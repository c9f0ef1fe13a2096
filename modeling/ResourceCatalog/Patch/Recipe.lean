import ResourceCatalog.Patch.Rule

/-!
# Rules as data

A recipe describes a rule: where it applies, under which conditions, and what it asks for. Recipes
can be read from a file, compared and printed, and every recipe stands for a rule.
-/

namespace ResourceCatalog

/-- A condition on a place. -/
inductive Condition where
  /-- An object with the key. -/
  | has (key : String)
  /-- An object without the key. -/
  | lacks (key : String)
  /-- The name under which the place sits in an object. -/
  | named (name : String)
  /-- The index at which the place sits in an array. -/
  | numbered (index : Nat)
  | pointer (place : String)
  | value (wanted : Json)
  | role (name : String)
  | depth (containers : Nat)
  /-- The container is an object with the key. -/
  | parentHas (key : String)
  /-- The document is an object with the key. -/
  | rootHas (key : String)
  | about (name : String)

def Condition.holds (c : Cursor) : Condition → Bool
  | .has key => c.value.hasMember key
  | .lacks key => c.value.isObject && !c.value.hasMember key
  | .named name => c.propertyName? == some name
  | .numbered index => c.index? == some index
  | .pointer place => c.pointer == place
  | .value wanted => c.value.same wanted
  | .role name => c.role.name == name
  | .depth containers => c.depth == containers
  | .parentHas key =>
    match c.parent? with
    | some parent => parent.value.hasMember key
    | none => false
  | .rootHas key => c.document.hasMember key
  | .about name => c.subject == name

/-- What a recipe asks for. Requests at objects or arrays ask for nothing elsewhere. -/
inductive Request where
  | remove
  | replaceValue (value : Json)
  | removeProperty (key : String)
  | renameProperty (key newKey : String)
  | addProperty (key : String) (value : Json)
  | replaceProperty (key : String) (value : Json)
  | removeItem (index : Nat)
  /-- Negates the boolean under a key. -/
  | toggle (key : String)
  /-- Takes one from a positive number under a key. -/
  | countDown (key : String)
  /-- Removes every item equal to a value. -/
  | removeItems (value : Json)

namespace Request

/-- The indices of the items equal to a value. -/
def indicesOf (value : Json) (items : List Json) : List Nat :=
  (items.zipIdx.filter fun entry => entry.1.same value).map Prod.snd

/-- The corrections asked for at a place. -/
def corrections (c : Cursor) (reason : String) (request : Request) : List Correction :=
  match request, c.value with
  | .remove, _ => [c.remove reason]
  | .replaceValue value, _ => [c.replaceValue value reason]
  | .removeProperty key, .obj members => [c.removeProperty members key reason]
  | .renameProperty key newKey, .obj members => [c.renameProperty members key newKey reason]
  | .addProperty key value, .obj members => [c.addProperty members key value reason]
  | .replaceProperty key value, .obj members => [c.replaceProperty members key value reason]
  | .toggle key, .obj members =>
    match Keyed.get? key members with
    | some (.bool b) => [c.replaceProperty members key (.bool (!b)) reason]
    | _ => []
  | .countDown key, .obj members =>
    match (Keyed.get? key members).bind Json.asNat? with
    | some (n + 1) => [c.replaceProperty members key (Json.nat n) reason]
    | _ => []
  | .removeItem index, .arr items => [c.removeItem items index reason]
  | .removeItems value, .arr items =>
    (indicesOf value items).map fun index => c.removeItem items index reason
  | _, _ => []

end Request

/-- Where a recipe applies. -/
inductive Guard where
  | objects
  | arrays
  | root

def Guard.guard : Guard → Rule → Rule
  | .objects => Rule.onObjects
  | .arrays => Rule.onArrays
  | .root => Rule.atRoot

/-- The description of a rule. -/
inductive Recipe where
  /-- Several recipes in turn. -/
  | all (recipes : List Recipe) (guards : List Guard)
  /-- Requests, each with its reason, where every condition holds. -/
  | when (conditions : List Condition) (requests : List (Request × String)) (guards : List Guard)
deriving Inhabited

namespace Recipe

/-- A rule behind all of some guards. -/
def guarded (guards : List Guard) (rule : Rule) : Rule :=
  guards.foldl (fun rule guard => guard.guard rule) rule

mutual

/-- The rule that a recipe describes. -/
def rule : Recipe → Rule
  | .all recipes guards => guarded guards (Rule.all (rules recipes))
  | .when conditions requests guards =>
    guarded guards (Rule.onlyAt (fun c => conditions.all (Condition.holds c)) fun c =>
      requests.flatMap fun entry => entry.1.corrections c entry.2)

def rules : List Recipe → List Rule
  | [] => []
  | recipe :: rest => rule recipe :: rules rest

end

end Recipe

end ResourceCatalog
