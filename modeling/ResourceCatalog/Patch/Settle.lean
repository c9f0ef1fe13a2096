import ResourceCatalog.Patch.Apply
import ResourceCatalog.Patch.Rule

/-!
# Settling a document

Passes are made, and what each asks for is applied, until a pass asks for nothing. All patches of a
pass speak about the document before it, so items of arrays are removed last and from the back,
where no removal moves an item that is still to be removed. A patch that no longer applies is
skipped. A document that is still changing after ten passes is refused.
-/

namespace ResourceCatalog

/-! ### The order of application -/

/-- The removal of an item of an array: the pointer of the array, the index, and the patch. -/
structure ItemRemoval where
  array : String
  index : Nat
  patch : Patch

/-- The item of an array of the document that a patch removes, if that is what it does. -/
def itemRemoval? (document : Json) (patch : Patch) : Option ItemRemoval :=
  match patch with
  | .remove path => do
    let (array, token) ← Text.cutLast '/' path.toList
    let index ← Pointer.spelledNumber? (String.ofList token)
    let target ← document.find? (String.ofList array)
    if target.isArray then some ⟨String.ofList array, index, patch⟩ else none
  | _ => none

namespace ItemRemoval

/-- Arrays in the order of their pointers, and the items of each from the back. -/
def before (a b : ItemRemoval) : Bool :=
  decide (a.array < b.array) || (a.array == b.array && decide (b.index ≤ a.index))

def sameItem (a b : ItemRemoval) : Bool := a.array == b.array && a.index == b.index

/-- Of neighbours that remove the same item, the first. -/
def dedup : List ItemRemoval → List ItemRemoval
  | [] => []
  | a :: rest =>
    match dedup rest with
    | [] => [a]
    | b :: others => if a.sameItem b then a :: others else a :: b :: others

end ItemRemoval

/-- The patches of a pass in the order in which they are applied. -/
def applicationOrder (document : Json) (made : List Correction) : List Patch :=
  let patches := made.map Correction.patch
  let removals := patches.filterMap (itemRemoval? document)
  patches.filter (fun patch => (itemRemoval? document patch).isNone) ++
    (ItemRemoval.dedup (removals.mergeSort ItemRemoval.before)).map ItemRemoval.patch

/-- Applies patches one after the other, whether or not they are refused. -/
def applyAll (document : Json) (patches : List Patch) : Json :=
  patches.foldl (fun document patch => (patch.apply document).document) document

/-- The document after the corrections of a pass. -/
def correct (document : Json) (made : List Correction) : Json :=
  applyAll document (applicationOrder document made)

/-- One pass and what comes of it. -/
def passStep (rule : Rule) (subject : String) (document : Json) : Json :=
  correct document (pass rule subject document)

/-! ### Settling -/

/-- The passes after which a document that is still changing is refused. -/
def maxPasses : Nat := 10

/-- A document that a rule asks nothing of. -/
structure Settled where
  document : Json
  /-- What the first pass asked for. -/
  corrections : List Correction
  /-- The passes made, with the last one, which asked for nothing. -/
  passes : Nat

namespace Settled

/-- The corrections that tell of mistakes in the document. -/
def mistakes (s : Settled) : List Correction := s.corrections.filter Correction.isMistake

end Settled

/-- A document that keeps changing, with what the last two passes asked for. -/
structure Unsettled where
  subject : String
  last : List Correction
  previous : List Correction

def Unsettled.message (u : Unsettled) : String :=
  s!"Patching {u.subject} did not converge after {maxPasses} iterations\nlast patch set:\n" ++
    s!"{Correction.listing u.last}\nprevious patch set:\n{Correction.listing u.previous}"

/-- Passes over a document while there are any left, after `made` passes, the first of which asked
for `first` and the last two for `previous` and `last`. -/
def settleFrom (rule : Rule) (subject : String) (first? : Option (List Correction)) (made : Nat)
    (previous last : List Correction) : (left : Nat) → Json → Except Unsettled Settled
  | 0, _ => .error ⟨subject, last, previous⟩
  | left + 1, document =>
    match pass rule subject document with
    | [] => .ok ⟨document, first?.getD [], made + 1⟩
    | c :: rest =>
      settleFrom rule subject (first?.or (some (c :: rest))) (made + 1) last (c :: rest) left
        (correct document (c :: rest))

/-- Makes passes over a document until it is settled. -/
def settle (rule : Rule) (subject : String) (document : Json) : Except Unsettled Settled :=
  settleFrom rule subject none 0 [] [] maxPasses document

end ResourceCatalog
