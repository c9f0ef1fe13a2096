import ResourceCatalog.Report.EditScript

/-!
# Unified diffs

The edits between two texts are written line by line, with a blank before a kept line, a minus
before a deleted and a plus before an inserted one. Only a few kept lines are written around the
changes, so the diff falls into hunks, each under a line that tells where it is in both texts.
-/

namespace ResourceCatalog.Report

/-- The lines of a text, each with its line feed. -/
def linesOf : List Char → List (List Char)
  | [] => []
  | c :: rest =>
    if c = '\n' then [c] :: linesOf rest
    else
      match linesOf rest with
      | [] => [[c]]
      | line :: lines => (c :: line) :: lines

def lines (text : String) : Array String := ((linesOf text.toList).map String.ofList).toArray

/-! ### Hunks -/

/-- How many kept lines are written next to a change. -/
def context : Nat := 2

/-- Leaves out the kept lines at the beginning that are far from a change. -/
def trimFront : List Edit → List Edit
  | .keep o n l :: rest => .keep (o + (l - context)) (n + (l - context)) (min l context) :: rest
  | edits => edits

/-- Leaves out the kept lines at the end that are far from a change. -/
def trimBack : List Edit → List Edit
  | [] => []
  | [.keep o n l] => [.keep o n (min l context)]
  | edit :: rest => edit :: trimBack rest

/-- The hunks of a script, given those stretches of the first one that are known, the last of them
first. A long stretch of kept lines ends a hunk and begins the next one. -/
def hunksFrom (known : List Edit) : List Edit → List (List Edit)
  | [] =>
    match known with
    | [] => []
    | [.keep _ _ _] => []
    | known => [known.reverse]
  | .keep o n l :: rest =>
    if 2 * context < l then
      (Edit.keep o n context :: known).reverse ::
        hunksFrom [.keep (o + (l - context)) (n + (l - context)) context] rest
    else hunksFrom (.keep o n l :: known) rest
  | edit :: rest => hunksFrom (edit :: known) rest

def hunks (script : List Edit) : List (List Edit) := hunksFrom [] (trimBack (trimFront script))

/-! ### Text -/

/-- A stretch of lines from `start` to before `stop`, by its first line and its length. An empty one
is named by the line before it, and a length of one is left out. -/
def rangeText (start stop : Nat) : String :=
  let length := stop - start
  if length = 1 then s!"{start + 1}"
  else if length = 0 then s!"{start},0"
  else s!"{start + 1},{length}"

/-- Some lines of a text, each behind a mark. -/
def marked (mark : String) (text : Array String) (start length : Nat) : String :=
  String.join (((text.extract start (start + length)).toList).map fun line => mark ++ line)

def editText (old new : Array String) : Edit → String
  | .keep o _ l => marked " " old o l
  | .delete o l _ => marked "-" old o l
  | .insert _ n l => marked "+" new n l
  | .replace o ol n nl => marked "-" old o ol ++ marked "+" new n nl

def hunkText (old new : Array String) (hunk : List Edit) : String :=
  match hunk.head?, hunk.getLast? with
  | some first, some last =>
    let oldRange := rangeText first.oldStart last.oldEnd
    let newRange := rangeText first.newStart last.newEnd
    s!"@@ -{oldRange} +{newRange} @@\n" ++ String.join (hunk.map (editText old new))
  | _, _ => ""

/-- The unified diff of two texts, empty for equal texts. -/
def unifiedDiff (before after : String) : String :=
  let old := lines before
  let new := lines after
  match hunks (editScript old new) with
  | [] => ""
  | found =>
    "--- before\n+++ after\n" ++ String.join (found.map (hunkText old new))

end ResourceCatalog.Report
