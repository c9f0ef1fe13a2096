import ResourceCatalog.Patch.Role

/-!
# Rules and passes

A rule looks at one place and asks for corrections. A pass shows a rule every place of a document,
each container before what it holds, members in the order of their keys. What the rule has asked to
be removed is not entered any more in the same pass.
-/

namespace ResourceCatalog

/-- A rule: the corrections it asks for at a place. -/
abbrev Rule := Cursor → List Correction

namespace Rule

/-- All rules in turn at the same place. -/
def all (rules : List Rule) : Rule := fun c => rules.flatMap fun rule => rule c

/-- The rule where a condition holds, and nothing elsewhere. -/
def onlyAt (condition : Cursor → Bool) (rule : Rule) : Rule :=
  fun c => if condition c then rule c else []

def onObjects : Rule → Rule := onlyAt fun c => c.value.isObject

def onArrays : Rule → Rule := onlyAt fun c => c.value.isArray

def atRoot : Rule → Rule := onlyAt Cursor.isRoot

/-- The rule that is given the members of an object, and asks for nothing elsewhere. -/
def ofMembers (requests : Cursor → Members → List Correction) : Rule := fun c =>
  match c.value with
  | .obj members => requests c members
  | _ => []

/-- The rule on the objects that are schemas. -/
def onSchemas (rule : Rule) : Rule := onObjects (onlyAt (fun c => c.role == .schema) rule)

end Rule

/-- Whether one of the corrections removes the place of a pointer. -/
def removes (made : List Correction) (pointer : String) : Bool :=
  made.any fun c =>
    match c.patch with
    | .remove path => path == pointer
    | _ => false

/-! ### The walk -/

section Walk

variable (rule : Rule) (subject : String) (document : Json)

mutual

/-- Shows the rule a value and all it holds. The corrections made so far go in, and come out with
those of this value behind them. -/
def visit (trail : Trail) (made : List Correction) : Json → List Correction
  | .arr items =>
    visitItems (.arr items) trail 0 (made ++ rule ⟨subject, document, .arr items, trail⟩) items
  | .obj members =>
    visitMembers (.obj members) trail (made ++ rule ⟨subject, document, .obj members, trail⟩)
      members
  | value => made ++ rule ⟨subject, document, value, trail⟩

def visitItems (container : Json) (trail : Trail) (index : Nat) (made : List Correction) :
    List Json → List Correction
  | [] => made
  | item :: rest =>
    let below : Trail := ⟨container, .index index⟩ :: trail
    let made := if removes made below.pointer then made else visit below made item
    visitItems container trail (index + 1) made rest

def visitMembers (container : Json) (trail : Trail) (made : List Correction) :
    List (String × Json) → List Correction
  | [] => made
  | (name, value) :: rest =>
    let below : Trail := ⟨container, .property name⟩ :: trail
    let made := if removes made below.pointer then made else visit below made value
    visitMembers container trail made rest

end

end Walk

/-- The corrections that one pass of a rule over a document asks for. -/
def pass (rule : Rule) (subject : String) (document : Json) : List Correction :=
  visit rule subject document [] [] document

end ResourceCatalog
