import ResourceCatalog.Patch.Rule

/-!
# The standard rules

Five rules put right what is often wrong with resource schemas. They look at the objects that are
schemas and nowhere else.

* A combinator whose branches only list required names is folded into `required`, or dropped if its
  branches are alternatives.
* A list of one type becomes the type, and a list of several an `anyOf` with a branch for each.
* An empty `required` is removed.
* Names in `required` that `properties` does not declare are dropped.
* The defaults `"true"` and `"false"` of a boolean become booleans.

Where two rules could touch `required` in one pass, the later one waits for the next pass.
-/

namespace ResourceCatalog.Standard

/-! ### Folding combinators that only require -/

/-- The combinators in the order in which they are folded. -/
def combinators : List String := ["oneOf", "anyOf", "allOf"]

/-- The names of each branch, if every branch is an object with nothing but a `required` list. -/
def requiredOnly? (branches : List Json) : Option (List (List String)) :=
  branches.mapM fun branch =>
    match branch with
    | .obj [("required", names)] => names.asStrings?
    | _ => none

/-- The array under a key. -/
def arrayAt? (members : Members) (key : String) : Option (List Json) :=
  (members.get? key).bind Json.asArray?

/-- Whether the first rule changes `required` of this object in the current pass. -/
def foldsRequired (members : Members) : Bool :=
  combinators.any fun key =>
    match arrayAt? members key with
    | some branches => (requiredOnly? branches).isSome
    | none => false

/-- The names with those of another list that are not among them behind. -/
def addNames (names new : List String) : List String :=
  new.foldl (fun names name => if names.contains name then names else names ++ [name]) names

/-- What folding has come to so far: the required names, whether any were folded in, and the
corrections. -/
structure Folding where
  names : List String
  folded : Bool
  made : List Correction

/-- Folds one combinator. All branches of an `allOf` hold, and so does a branch that is the only
one; any other branches are alternatives. -/
def foldCombinator (c : Cursor) (members : Members) (state : Folding) (key : String) : Folding :=
  match (arrayAt? members key).bind requiredOnly? with
  | none => state
  | some branches =>
    if key = "allOf" ∨ branches.length = 1 then
      { names := addNames state.names branches.flatten
        folded := true
        made := state.made ++
          [c.removeProperty members key s!"{key} only lists required properties"] }
    else
      { state with made := state.made ++ [c.removeProperty members key Correction.noMistake] }

def collapseRequiredCombinators : Rule := Rule.ofMembers fun c members =>
  let names := ((members.get? "required").bind Json.asStrings?).getD []
  let state := combinators.foldl (foldCombinator c members) ⟨names, false, []⟩
  if state.folded then
    let value := Json.strings state.names
    let reason := "required properties folded from combinator"
    state.made ++
      [if members.contains "required" then c.replaceProperty members "required" value reason
        else c.addProperty members "required" value reason]
  else state.made

/-! ### Lists of types -/

/-- The keywords that only constrain values of one type. -/
def typeKeywords (type : String) : List String :=
  match type with
  | "array" => ["items", "prefixItems", "contains", "minItems", "maxItems", "uniqueItems"]
  | "object" =>
    ["properties", "required", "additionalProperties", "patternProperties", "minProperties",
      "maxProperties"]
  | "string" => ["minLength", "maxLength", "pattern", "format"]
  | "number" | "integer" =>
    ["minimum", "maximum", "exclusiveMinimum", "exclusiveMaximum", "multipleOf"]
  | _ => []

/-- Whether the second rule splits the type of this object in the current pass. -/
def splitsType (members : Members) : Bool :=
  match arrayAt? members "type" with
  | some types => decide (1 < types.length) && !members.contains "anyOf" && !foldsRequired members
  | none => false

/-- The keywords of an object that move into the branch of a type. -/
def branchKeywords (members : Members) (type : Json) : List String :=
  match type with
  | .str name => (typeKeywords name).filter members.contains
  | _ => []

/-- The branch of a type: the type itself and the keywords that constrain its values. -/
def typeBranch (members : Members) (type : Json) : Json :=
  .obj ((branchKeywords members type).foldl
    (fun branch key =>
      match members.get? key with
      | some value => Keyed.insert key value branch
      | none => branch)
    [("type", type)])

def normalizeTypeArrays : Rule := Rule.ofMembers fun c members =>
  match arrayAt? members "type" with
  | none => []
  | some [] => [c.removeProperty members "type" "empty type list"]
  | some [single] =>
    [c.replaceProperty members "type" single "type list with a single type"]
  | some types =>
    if splitsType members then
      let moved := types.foldl (fun names type => addNames names (branchKeywords members type)) []
      let branches := types.map (typeBranch members)
      c.removeProperty members "type" Correction.noMistake ::
        moved.map (fun key => c.removeProperty members key Correction.noMistake) ++
        [c.addProperty members "anyOf" (.arr branches) Correction.noMistake]
    else []

/-! ### Cleaning up `required` -/

def removeEmptyRequired : Rule := Rule.ofMembers fun c members =>
  if foldsRequired members || splitsType members then []
  else
    match members.get? "required" with
    | some (.arr []) => [c.removeProperty members "required" "empty required list"]
    | _ => []

def dropUndeclaredRequired : Rule := Rule.ofMembers fun c members =>
  if foldsRequired members || splitsType members then []
  else
    match (members.get? "properties").bind Json.asObject?,
        (members.get? "required").bind Json.asStrings? with
    | some properties, some required =>
      let declared := required.filter properties.contains
      let undeclared := required.filter fun name => !properties.contains name
      if undeclared.isEmpty then []
      else
        let reason := "required lists undeclared properties: " ++ Text.join ", " undeclared
        if declared.isEmpty then [c.removeProperty members "required" reason]
        else [c.replaceProperty members "required" (Json.strings declared) reason]
    | _, _ => []

/-! ### Defaults of booleans -/

/-- The lower-case letter that matches a character when case is ignored. Among the letters that
matter here, the long s is the only one outside ASCII that matches. -/
def foldCase (c : Char) : Char :=
  if 'A' ≤ c ∧ c ≤ 'Z' then Char.ofNat (c.toNat + 32)
  else if c.toNat = 0x17F then 's'
  else c

/-- The boolean that a text spells in any case of its letters. -/
def spelledBool? (text : String) : Option Bool :=
  let folded := text.toList.map foldCase
  if folded = ['t', 'r', 'u', 'e'] then some true
  else if folded = ['f', 'a', 'l', 's', 'e'] then some false
  else none

def booleanStringDefaults : Rule := Rule.ofMembers fun c members =>
  match members.get? "type", members.get? "default" with
  | some (.str "boolean"), some (.str text) =>
    match spelledBool? text with
    | some value =>
      [c.replaceProperty members "default" (.bool value) "boolean default given as a string"]
    | none => []
  | _, _ => []

/-! ### Together -/

/-- The standard rules, in order. -/
def rules : List Rule :=
  [collapseRequiredCombinators, normalizeTypeArrays, removeEmptyRequired, dropUndeclaredRequired,
    booleanStringDefaults].map Rule.onSchemas

/-- All standard rules as one. -/
def rule : Rule := Rule.all rules

end ResourceCatalog.Standard
