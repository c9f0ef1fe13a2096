import Mathlib
import ResourceCatalog.Proofs.Import.Additions

/-!
# The records that are met

Typing asks for a definition wherever it comes to a record. `Typing.Call` is one such question with
the state in which it is asked, and the functions here list the questions that a computation asks,
in their order. They follow the rules of typing step by step and leave what happens in between to
typing itself: `Typing.thereafter` runs a computation and goes on in the state that it leaves.
-/

namespace ResourceCatalog

namespace Typing

/-- What there is after a computation: what its result gives in the state that is left. There is
nothing after a failure. -/
def thereafter {α β : Type} (m : Typing α) (next : α → TypingState → List β)
    (state : TypingState) : List β :=
  match m.run.run state with
  | (.ok a, left) => next a left
  | (.error _, _) => []

/-- A property, or nothing where it has no type. Its failure is recorded then. -/
def attempt (path : String) (typed : Typing Property) : Typing (Option Property) :=
  tryCatch (some <$> typed) fun error => do
    recordFailure path error
    return none

/-! ### Records -/

/-- A record whose definition is asked for. -/
structure Call where
  /-- How many levels there still are below the record. -/
  levels : Nat
  path : String
  name : String
  schema : Json
  /-- The state in which it is asked for. -/
  state : TypingState

namespace Call

variable (call : Call)

/-- What is left of the record without its documentation. -/
def text : String := (Schema.undocumented call.schema).compact

def key : String := Schema.fingerprint call.schema

/-- Whether no record of the same key has been met before. -/
def isFirst : Bool := (call.state.seen.lookup call.key).isNone

/-- The identity and the name that a first record gives to its definition. -/
def newId : Identity := ⟨call.state.supply.next⟩

def newName : String := freeName call.state.names call.name

variable (subject : Subject)

/-- The question for the definition, -/
def question : Typing Identity :=
  definitionOf (typeWithin subject call.levels) subject call.path call.name call.schema

/-- and what it is answered with. -/
def answer : Except TypingError Identity := ((call.question subject).run.run call.state).1

/-- The state in which the properties of a first record are typed: its definition has been taken in
and is used already. -/
def opened : TypingState :=
  (call.state.withDefinition call.key call.newName).withUse subject.resource call.newId call.path

end Call

/-- What comes of some properties, one after the other. -/
def outcomesOf (subject : Subject) (levels : Nat) (base : String) :
    Members → TypingState → List (String × Except TypingError Property)
  | [], _ => []
  | (name, schema) :: rest, state =>
    let typed := propertyOf (typeWithin subject levels) subject (joinPath base name) name schema
    (name, (typed.run.run state).1) ::
      thereafter (attempt (joinPath base name) typed)
        (fun _ => outcomesOf subject levels base rest) state

/-- What comes of the properties of a first record. -/
def Call.outcomes (call : Call) (subject : Subject) : List (String × Except TypingError Property) :=
  outcomesOf subject call.levels call.path (Schema.properties call.schema) (call.opened subject)

/-- The properties with a type among some outcomes. -/
def typedAmong (outcomes : List (String × Except TypingError Property)) :
    List (String × Property) :=
  outcomes.filterMap fun outcome => outcome.2.toOption.map fun property => (outcome.1, property)

/-! ### The calls of the rules -/

section Level

variable (subject : Subject) (levels : Nat)
  (inner : String → String → Schema.Resolved → TypingState → List Call)

/-- The calls of a schema one level further in. -/
def callsInner (path hint : String) (schema : Json) : TypingState → List Call :=
  thereafter (resolve subject schema) fun resolved => inner path hint resolved

def callsOfProperties (base : String) : Members → TypingState → List Call
  | [], _ => []
  | (name, schema) :: rest, state =>
    let path := joinPath base name
    callsInner subject inner path name schema state ++
      thereafter (attempt path (propertyOf (typeWithin subject levels) subject path name schema))
        (fun _ => callsOfProperties base rest) state

/-- The call of a record. Those of its properties follow if it is the first of its key. -/
def callsOfRecord (path name : String) (schema : Json) (state : TypingState) : List Call :=
  let call : Call := ⟨levels, path, name, schema, state⟩
  call :: if call.isFirst then
    callsOfProperties subject levels inner path (Schema.properties schema) (call.opened subject)
  else []

def callsOfValues (path name : String) (values : List Json) : TypingState → List Call :=
  match values with
  | [single] => callsInner subject inner path name single
  | several =>
    thereafter (several.mapM (resolve subject)) fun resolved =>
      thereafter (ofUnification (Schema.unifyAll (resolved.map Schema.Resolved.schema)))
        fun unified => callsInner subject inner path
          ((resolved.findSome? Schema.Resolved.name?).getD name) unified

def callsOfObject (path name : String) (schema : Json) : TypingState → List Call :=
  if Schema.isRecord schema then callsOfRecord subject levels inner path name schema
  else if Schema.isMap schema then
    callsOfValues subject inner path name (Schema.mapValues schema)
  else fun _ => []

/-- Whether a schema has its type by the rule for objects. -/
def isTypedAsObject (schema : Json) : Bool :=
  match schema.member? "type" with
  | some (.str type) => type == "object"
  | some _ => false
  | none => Schema.isRecord schema || Schema.isMap schema

def callsOfConcrete (path name : String) (schema : Json) : TypingState → List Call :=
  if isTypedAsObject schema then callsOfObject subject levels inner path name schema
  else fun _ => []

def callsOfAll (path hint : String) (branches : List Schema.Resolved) :
    TypingState → List Call :=
  thereafter (ofUnification (Schema.unifyAll (branches.map Schema.Resolved.schema)))
    fun unified => callsInner subject inner path
      ((branches.findSome? Schema.Resolved.name?).getD hint) unified

mutual

def callsOf (path hint : String) : Schema.Resolved → TypingState → List Call
  | .concrete schema name => callsOfConcrete subject levels inner path (name.getD hint) schema
  | .array _ _ none => fun _ => []
  | .array _ _ (some items) => callsOf path hint items
  | .combined _ _ .allOf branches =>
    match branches.filter isConstrained with
    | [] => fun _ => []
    | [_] => callsOfConstrained path hint branches
    | several => callsOfAll subject inner path hint several
  | .combined _ _ .anyOf branches => callsOfBranches path hint branches
  | .combined _ _ .oneOf branches => callsOfBranches path hint branches

def callsOfConstrained (path hint : String) : List Schema.Resolved → TypingState → List Call
  | [] => fun _ => []
  | branch :: rest =>
    if isConstrained branch then callsOf path hint branch else callsOfConstrained path hint rest

def callsOfBranches (path hint : String) : List Schema.Resolved → TypingState → List Call
  | [] => fun _ => []
  | branch :: rest => fun state =>
    callsOf path hint branch state ++
      thereafter (typeOf (typeWithin subject levels) subject path hint branch)
        (fun type => thereafter (render type) fun _ => callsOfBranches path hint rest) state

end

end Level

def callsWithin (subject : Subject) :
    Nat → String → String → Schema.Resolved → TypingState → List Call
  | 0 => fun _ _ _ _ => []
  | levels + 1 => callsOf subject levels (callsWithin subject levels)

/-! ### The calls of several properties -/

/-- A property that is to be typed. -/
structure Request where
  path : String
  name : String
  schema : Json

namespace Request

def typed (subject : Subject) (request : Request) : Typing Property :=
  property subject request.path request.name request.schema

def calls (subject : Subject) (request : Request) : TypingState → List Call :=
  callsInner subject (callsWithin subject (levelsFor subject.document request.schema))
    request.path request.name request.schema

/-- Types properties one after the other. -/
def typeAll (subject : Subject) : List Request → Typing (List (Option Property))
  | [] => return []
  | request :: rest => do
    let found ← attempt request.path (request.typed subject)
    return found :: (← typeAll subject rest)

def callsOfAll (subject : Subject) : List Request → TypingState → List Call
  | [], _ => []
  | request :: rest, state =>
    request.calls subject state ++
      thereafter (attempt request.path (request.typed subject))
        (fun _ => callsOfAll subject rest) state

end Request

end Typing

end ResourceCatalog
