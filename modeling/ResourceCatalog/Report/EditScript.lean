/-!
# Edit scripts

An edit script turns the lines of one text into those of another by stretches of lines that are
kept, deleted and inserted. A shortest one is found by dividing the problem at the middle of a
shortest path through the grid of both texts, where a diagonal step keeps a line: the searches from
both corners meet there.

A script found so is then made tidy. Lines that were inserted move down as far as equal lines
follow, so that insertions join; and a deletion next to an insertion becomes a replacement.
-/

namespace ResourceCatalog.Report

/-- A stretch of a script: where it starts in both texts and how many lines it has in them. -/
inductive Edit where
  | keep (old new length : Nat)
  | delete (old length new : Nat)
  | insert (old new length : Nat)
  | replace (old oldLength new newLength : Nat)
  deriving DecidableEq, Repr, Inhabited

namespace Edit

/-- Where the stretch starts in the old text. -/
def oldStart : Edit → Nat
  | .keep old _ _ => old
  | .delete old _ _ => old
  | .insert old _ _ => old
  | .replace old _ _ _ => old

def newStart : Edit → Nat
  | .keep _ new _ => new
  | .delete _ _ new => new
  | .insert _ new _ => new
  | .replace _ _ new _ => new

/-- How many lines of the old text the stretch has. -/
def oldLength : Edit → Nat
  | .keep _ _ length => length
  | .delete _ length _ => length
  | .insert _ _ _ => 0
  | .replace _ length _ _ => length

def newLength : Edit → Nat
  | .keep _ _ length => length
  | .delete _ _ _ => 0
  | .insert _ _ length => length
  | .replace _ _ _ length => length

def oldEnd (e : Edit) : Nat := e.oldStart + e.oldLength

def newEnd (e : Edit) : Nat := e.newStart + e.newLength

end Edit

variable (old new : Array String)

/-! ### Equal lines -/

/-- How many lines agree from two places on, among the first so many. -/
def agreeFrom : (count oldAt newAt : Nat) → Nat
  | 0, _, _ => 0
  | count + 1, oldAt, newAt =>
    if old[oldAt]? = new[newAt]? then agreeFrom count (oldAt + 1) (newAt + 1) + 1 else 0

/-- How many lines agree before two places, among the last so many. -/
def agreeBefore : (count oldAt newAt : Nat) → Nat
  | 0, _, _ => 0
  | count + 1, oldAt, newAt =>
    if old[oldAt - 1]? = new[newAt - 1]? then agreeBefore count (oldAt - 1) (newAt - 1) + 1 else 0

/-! ### The middle of a shortest path -/

/-- A part of the grid: a stretch of the old text and one of the new text. -/
structure Area where
  oldStart : Nat
  oldLength : Nat
  newStart : Nat
  newLength : Nat
  deriving Repr

/-- How far a search has come on each diagonal. Diagonals are numbered from `-origin` on. -/
structure Frontier where
  origin : Nat
  reached : Array Nat

namespace Frontier

def start (origin : Nat) : Frontier := ⟨origin, Array.replicate (2 * origin + 2) 0⟩

def get (f : Frontier) (diagonal : Int) : Nat := f.reached.getD (diagonal + f.origin).toNat 0

def set (f : Frontier) (diagonal : Int) (x : Nat) : Frontier :=
  { f with reached := f.reached.setIfInBounds (diagonal + f.origin).toNat x }

/-- Where a path with one more edit comes onto a diagonal: from the diagonal next to it that has
come further. -/
def enter (f : Frontier) (edits : Nat) (diagonal : Int) : Nat :=
  if diagonal = -(edits : Int) ∨
      (diagonal ≠ edits ∧ f.get (diagonal - 1) < f.get (diagonal + 1)) then
    f.get (diagonal + 1)
  else f.get (diagonal - 1) + 1

end Frontier

/-- The diagonals that a path with so many edits can end on, the highest one first. -/
def diagonals (edits : Nat) : List Int :=
  (List.range (edits + 1)).map fun (i : Nat) => (edits : Int) - 2 * (i : Int)

/-- The state of both searches, or the place where they have met. -/
inductive Search where
  | searching (forward backward : Frontier)
  | met (oldAt newAt : Nat)

/-- The search from the start goes along one diagonal. -/
def forwardStep (r : Area) (edits : Nat) (s : Search) (k : Int) : Search :=
  match s with
  | .met oldAt newAt => .met oldAt newAt
  | .searching forward backward =>
    let delta : Int := r.oldLength - r.newLength
    let x := forward.enter edits k
    let y := (x - k).toNat
    let equal :=
      if x < r.oldLength ∧ y < r.newLength then
        agreeFrom old new (min (r.oldLength - x) (r.newLength - y)) (r.oldStart + x)
          (r.newStart + y)
      else 0
    let forward := forward.set k (x + equal)
    if delta % 2 = 1 ∧ (k - delta).natAbs + 1 ≤ edits ∧
        r.oldLength ≤ x + equal + backward.get (delta - k) then
      .met (r.oldStart + x) (r.newStart + y)
    else .searching forward backward

/-- The search from the end goes along one diagonal. -/
def backwardStep (r : Area) (edits : Nat) (s : Search) (k : Int) : Search :=
  match s with
  | .met oldAt newAt => .met oldAt newAt
  | .searching forward backward =>
    let delta : Int := r.oldLength - r.newLength
    let x := backward.enter edits k
    let y := (x - k).toNat
    let equal :=
      if x < r.oldLength ∧ y < r.newLength then
        agreeBefore old new (min (r.oldLength - x) (r.newLength - y))
          (r.oldStart + r.oldLength - x) (r.newStart + r.newLength - y)
      else 0
    let backward := backward.set k (x + equal)
    if delta % 2 = 0 ∧ (k - delta).natAbs ≤ edits ∧
        r.oldLength ≤ x + equal + forward.get (delta - k) then
      .met (r.oldStart + r.oldLength - (x + equal)) (r.newStart + r.newLength - (y + equal))
    else .searching forward backward

/-- Half the edits that a script can have at most, and a little more. -/
def searchDepth (r : Area) : Nat := (r.oldLength + r.newLength + 1) / 2 + 1

/-- Both searches with one more edit. -/
def searchStep (r : Area) (s : Search) (edits : Nat) : Search :=
  (diagonals edits).foldl (backwardStep old new r edits)
    ((diagonals edits).foldl (forwardStep old new r edits) s)

/-- A place on a shortest path through an area. -/
def middle? (r : Area) : Option (Nat × Nat) :=
  let frontier := Frontier.start (searchDepth r + 1)
  match (List.range (searchDepth r)).foldl (searchStep old new r)
      (.searching frontier frontier) with
  | .met oldAt newAt => some (oldAt, newAt)
  | .searching _ _ => none

/-! ### A shortest script -/

/-- A stretch of kept lines, unless there are none. -/
def keepLines (oldAt newAt length : Nat) : List Edit :=
  if length = 0 then [] else [.keep oldAt newAt length]

/-- The script for an area, divided at most so many times one inside the other. -/
def scriptWithin : Nat → Area → List Edit
  | depth, r =>
    let front := agreeFrom old new (min r.oldLength r.newLength) r.oldStart r.newStart
    let back := agreeBefore old new (min (r.oldLength - front) (r.newLength - front))
      (r.oldStart + r.oldLength) (r.newStart + r.newLength)
    let inner : Area :=
      ⟨r.oldStart + front, r.oldLength - front - back, r.newStart + front,
        r.newLength - front - back⟩
    keepLines r.oldStart r.newStart front ++
      (if inner.oldLength = 0 ∧ inner.newLength = 0 then []
        else if inner.newLength = 0 then [.delete inner.oldStart inner.oldLength inner.newStart]
        else if inner.oldLength = 0 then [.insert inner.oldStart inner.newStart inner.newLength]
        else
          match depth, middle? old new inner with
          | depth + 1, some (oldAt, newAt) =>
            scriptWithin depth
              ⟨inner.oldStart, oldAt - inner.oldStart, inner.newStart, newAt - inner.newStart⟩ ++
            scriptWithin depth
              ⟨oldAt, inner.oldStart + inner.oldLength - oldAt, newAt,
                inner.newStart + inner.newLength - newAt⟩
          | _, _ =>
            [.delete inner.oldStart inner.oldLength inner.newStart,
              .insert inner.oldStart inner.newStart inner.newLength]) ++
      keepLines (inner.oldStart + inner.oldLength) (inner.newStart + inner.newLength) back

/-! ### Moving insertions -/

/-- A place in a script: the stretches before it with the nearest one first, a stretch, and those
after it. -/
structure Place where
  before : List Edit
  here : Edit
  after : List Edit

/-- The stretches after a place with some more kept lines in front. -/
def keepAfter (oldAt newAt length : Nat) : List Edit → List Edit
  | .keep o n l :: rest => .keep (o - length) (n - length) (l + length) :: rest
  | after => .keep oldAt newAt length :: after

/-- The stretches before a place with some more kept lines at the end. -/
def keepBefore (oldAt newAt length : Nat) : List Edit → List Edit
  | .keep o n l :: rest => .keep o n (l + length) :: rest
  | before => .keep oldAt newAt length :: before

/-- Moves a deletion or an insertion up, as far as equal lines go before an insertion, and joins it
with its like. -/
def moveUp (here : Edit) (after : List Edit) : List Edit → Place
  | [] => ⟨[], here, after⟩
  | .keep o n l :: before =>
    match here with
    | .insert io newAt length =>
      let equal := agreeBefore old new l (o + l) (newAt + length)
      if equal = 0 then ⟨.keep o n l :: before, here, after⟩
      else
        let moved : Edit := .insert (io - equal) (newAt - equal) length
        let after := keepAfter (o + l - equal) (newAt + length - equal) equal after
        if equal = l then moveUp moved after before
        else ⟨.keep o n (l - equal) :: before, moved, after⟩
    | _ => ⟨.keep o n l :: before, here, after⟩
  | .insert o n l :: before =>
    match here with
    | .insert _ _ length => moveUp (.insert o n (l + length)) after before
    | _ => moveUp here (.insert o n l :: after) before
  | .delete o l n :: before =>
    match here with
    | .delete _ length _ => moveUp (.delete o (l + length) n) after before
    | _ => moveUp here (.delete o l n :: after) before
  | .replace o ol n nl :: before => ⟨.replace o ol n nl :: before, here, after⟩

/-- Moves a deletion or an insertion down, as far as equal lines follow an insertion, and joins it
with its like. -/
def moveDown (before : List Edit) (here : Edit) : List Edit → Place
  | [] => ⟨before, here, []⟩
  | .keep o n l :: after =>
    match here with
    | .insert io newAt length =>
      let equal := agreeFrom old new l o newAt
      if equal = 0 then ⟨before, here, .keep o n l :: after⟩
      else
        let moved : Edit := .insert (io + equal) (newAt + equal) length
        let before := keepBefore o newAt equal before
        if equal = l then moveDown before moved after
        else ⟨before, moved, .keep (o + equal) (n + equal) (l - equal) :: after⟩
    | _ => ⟨before, here, .keep o n l :: after⟩
  | .insert o n l :: after =>
    match here with
    | .insert ho hn length => moveDown before (.insert ho hn (length + l)) after
    | _ => moveDown (.insert o n l :: before) here after
  | .delete o l n :: after =>
    match here with
    | .delete ho length hn => moveDown before (.delete ho (length + l) hn) after
    | _ => moveDown (.delete o l n :: before) here after
  | .replace o ol n nl :: after => ⟨before, here, .replace o ol n nl :: after⟩

/-- Moves the stretches of one kind up and then down, one after the other, at most so many. -/
def moveAll (chosen : Edit → Bool) : Nat → List Edit → List Edit → List Edit
  | 0, before, after => before.reverse ++ after
  | _ + 1, before, [] => before.reverse
  | steps + 1, before, here :: after =>
    if chosen here then
      let up := moveUp old new here after before
      let down := moveDown old new up.before up.here up.after
      moveAll chosen steps (down.here :: down.before) down.after
    else moveAll chosen steps (here :: before) after

def isDelete : Edit → Bool
  | .delete _ _ _ => true
  | _ => false

def isInsert : Edit → Bool
  | .insert _ _ _ => true
  | _ => false

/-- Moves the deletions and then the insertions of a script. -/
def tidy (script : List Edit) : List Edit :=
  let steps := old.size + new.size + script.length
  moveAll old new isInsert steps [] (moveAll old new isDelete steps [] script)

/-! ### Replacements -/

/-- The stretches since the last kept lines: a deletion and an insertion, if there are any. -/
structure Change where
  deleted : Option (Nat × Nat × Nat)
  inserted : Option (Nat × Nat × Nat)

def Change.none : Change := ⟨Option.none, Option.none⟩

def Change.edits (c : Change) : List Edit :=
  match c.deleted, c.inserted with
  | some (o, ol, _), some (_, n, nl) => [.replace o ol n nl]
  | some (o, l, n), Option.none => [.delete o l n]
  | Option.none, some (o, n, l) => [.insert o n l]
  | Option.none, Option.none => []

/-- Makes one stretch of neighbours of one kind, and replacements of deletions next to insertions.
The last stretch of kept lines is held back until something else comes. -/
def joinEdits (kept : Option (Nat × Nat × Nat)) (change : Change) : List Edit → List Edit
  | [] =>
    (kept.map fun (o, n, l) => Edit.keep o n l).toList ++ change.edits
  | .keep o n l :: rest =>
    change.edits ++
      (match kept with
        | some (ko, kn, kl) => joinEdits (some (ko, kn, kl + l)) Change.none rest
        | none => joinEdits (some (o, n, l)) Change.none rest)
  | .delete o l n :: rest =>
    let deleted :=
      match change.deleted with
      | some (co, cl, cn) => (co, cl + l, cn)
      | none => (o, l, n)
    (kept.map fun (o, n, l) => Edit.keep o n l).toList ++
      joinEdits none { change with deleted := some deleted } rest
  | .insert o n l :: rest =>
    let inserted :=
      match change.inserted with
      | some (co, cn, cl) => (co, cn, cl + l)
      | none => (o, n, l)
    (kept.map fun (o, n, l) => Edit.keep o n l).toList ++
      joinEdits none { change with inserted := some inserted } rest
  | .replace o ol n nl :: rest =>
    (kept.map fun (o, n, l) => Edit.keep o n l).toList ++
      .replace o ol n nl :: joinEdits none change rest

/-- The tidy script that turns the old lines into the new ones. -/
def editScript : List Edit :=
  let whole : Area := ⟨0, old.size, 0, new.size⟩
  joinEdits none Change.none
    (tidy old new (scriptWithin old new (old.size + new.size) whole))

end ResourceCatalog.Report
