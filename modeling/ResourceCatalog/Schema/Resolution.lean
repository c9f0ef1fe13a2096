import ResourceCatalog.Json.Printer
import ResourceCatalog.Pointer.Basic

/-!
# Following references

A schema refers to another place of its document by a `$ref` such as `#/definitions/Tag`.
Resolution replaces a reference by what it refers to, again and again, and goes on into the branches
of a combinator and the items of an array. The properties of an object are left as they are.

On the way down every reference is followed at most once: what may still be followed starts as all
references there are, and shrinks with each step. A reference that has been followed on the way
before is cyclic, and this is also why resolution ends.
-/

namespace ResourceCatalog.Schema

/-- The keywords that combine schemas. -/
inductive Combinator where
  | anyOf
  | oneOf
  | allOf
  deriving DecidableEq, Repr

def Combinator.key : Combinator → String
  | .anyOf => "anyOf"
  | .oneOf => "oneOf"
  | .allOf => "allOf"

/-- Why a schema cannot be resolved. -/
inductive ReferenceError where
  | broken (reference : String)
  | cyclic (reference : String)
  /-- A `$ref` that is not a text. -/
  | malformed (value : Json)
  deriving Repr

def ReferenceError.message : ReferenceError → String
  | .broken reference => s!"Reference {reference} does not resolve"
  | .cyclic reference => s!"Reference {reference} is cyclic"
  | .malformed value => s!"Unsupported schema at : non-string $ref {value.compact}"

/-- A schema with its references followed, and the name of the last reference on the way to it. -/
inductive Resolved where
  | concrete (schema : Json) (name : Option String)
  | array (schema : Json) (name : Option String) (items : Option Resolved)
  | combined (schema : Json) (name : Option String) (op : Combinator) (branches : List Resolved)
  deriving Inhabited

namespace Resolved

def schema : Resolved → Json
  | .concrete schema _ => schema
  | .array schema _ _ => schema
  | .combined schema _ _ _ => schema

def name? : Resolved → Option String
  | .concrete _ name => name
  | .array _ name _ => name
  | .combined _ name _ _ => name

end Resolved

/-! ### References -/

/-- The value that a reference refers to. -/
def target? (document : Json) (reference : String) : Option Json :=
  match reference.toList with
  | '#' :: rest => document.find? (String.ofList rest)
  | _ => none

theorem sizeOf_le_of_target? {document target : Json} {reference : String}
    (h : target? document reference = some target) : sizeOf target ≤ sizeOf document := by
  unfold target? at h
  split at h
  · exact Json.sizeOf_le_of_find? h
  · cases h

/-- The last segment of a reference, with its escapes read. -/
def referenceName? (reference : String) : Option String :=
  match Text.afterLast '/' reference.toList with
  | [] => none
  | ['#'] => none
  | segment => some (String.ofList (Pointer.unescapeChars segment))

mutual

/-- Every reference anywhere in a value. -/
def references : Json → List String
  | .arr items => referencesOfItems items
  | .obj members => referencesOfMembers members
  | _ => []

def referencesOfItems : List Json → List String
  | [] => []
  | x :: xs => references x ++ referencesOfItems xs

def referencesOfMembers : List (String × Json) → List String
  | [] => []
  | (k, .str s) :: xs =>
    if k = "$ref" then s :: referencesOfMembers xs else referencesOfMembers xs
  | (_, x) :: xs => references x ++ referencesOfMembers xs

end

/-! ### Parts of a schema -/

/-- The branches under one of the combinators. -/
def branches? (schema : Json) (op : Combinator) : Option (Combinator × List Json) :=
  match schema.member? op.key with
  | some (.arr branches) => some (op, branches)
  | _ => none

theorem sizeOf_lt_of_branches? {schema : Json} {op found : Combinator} {branches : List Json}
    (h : branches? schema op = some (found, branches)) : sizeOf branches < sizeOf schema := by
  unfold branches? at h
  split at h
  · next heq =>
    obtain ⟨_, rfl⟩ := Prod.mk.inj (Option.some.inj h)
    have := Json.sizeOf_lt_of_member? heq
    simp at this
    omega
  · cases h

/-- The first combinator of a schema that has a list of branches. -/
def combinator? (schema : Json) : Option (Combinator × List Json) :=
  (branches? schema .anyOf).or ((branches? schema .oneOf).or (branches? schema .allOf))

theorem sizeOf_lt_of_combinator? {schema : Json} {op : Combinator} {branches : List Json}
    (h : combinator? schema = some (op, branches)) : sizeOf branches < sizeOf schema := by
  unfold combinator? at h
  simp only [Option.or_eq_some_iff] at h
  rcases h with h | ⟨_, h | ⟨_, h⟩⟩ <;> exact sizeOf_lt_of_branches? h

/-- Whether a schema is one for arrays. -/
def isArraySchema (schema : Json) : Bool :=
  match schema.member? "type" with
  | some (.str type) => type == "array"
  | some _ => false
  | none => schema.hasMember "items"

/-- The schema of the items, if it is an object. -/
def itemsSchema? (schema : Json) : Option Json :=
  match schema.member? "items" with
  | some (.obj members) => some (.obj members)
  | _ => none

theorem sizeOf_lt_of_itemsSchema? {schema items : Json} (h : itemsSchema? schema = some items) :
    sizeOf items < sizeOf schema := by
  unfold itemsSchema? at h
  split at h
  · next heq =>
    obtain rfl := Option.some.inj h
    exact Json.sizeOf_lt_of_member? heq
  · cases h

/-! ### Resolution -/

theorem length_filter_ne_lt {reference : String} {remaining : List String}
    (h : reference ∈ remaining) :
    (remaining.filter (· != reference)).length < remaining.length := by
  refine List.length_filter_lt_length_iff_exists.2 ⟨reference, h, ?_⟩
  simp

/-- A reference leads to a part of the document, and there is one less to be followed. -/
theorem effort_lt_of_target? {document target : Json} {reference : String}
    {remaining : List String} (h : reference ∈ remaining)
    (htarget : target? document reference = some target) :
    (remaining.filter (· != reference)).length * (sizeOf document + 1) + sizeOf target <
      remaining.length * (sizeOf document + 1) := by
  have hlength := Nat.mul_le_mul_right (sizeOf document + 1)
    (Nat.succ_le_of_lt (length_filter_ne_lt h))
  have hsize := sizeOf_le_of_target? htarget
  rw [Nat.succ_mul] at hlength
  omega

mutual

/-- Resolves a schema that was reached through a reference of some name, if through any, when only
the remaining references may still be followed. -/
def resolveAmong (document : Json) (remaining : List String) (name : Option String)
    (schema : Json) : Except ReferenceError Resolved :=
  match schema.member? "$ref" with
  | some (.str reference) =>
    if h : reference ∈ remaining then
      match ht : target? document reference with
      | some target =>
        have := effort_lt_of_target? h ht
        resolveAmong document (remaining.filter (· != reference)) (referenceName? reference) target
      | none => .error (.broken reference)
    else .error (.cyclic reference)
  | some other => .error (.malformed other)
  | none =>
    match hc : combinator? schema with
    | some (op, branches) =>
      have := sizeOf_lt_of_combinator? hc
      (resolveBranches document remaining branches).map (.combined schema name op)
    | none =>
      if isArraySchema schema then
        match hi : itemsSchema? schema with
        | some items =>
          have := sizeOf_lt_of_itemsSchema? hi
          (resolveAmong document remaining none items).map fun resolved =>
            .array schema name (some resolved)
        | none => .ok (.array schema name none)
      else .ok (.concrete schema name)
  termination_by remaining.length * (sizeOf document + 1) + sizeOf schema

/-- Resolves the branches of a combinator one after the other. -/
def resolveBranches (document : Json) (remaining : List String) :
    List Json → Except ReferenceError (List Resolved)
  | [] => .ok []
  | branch :: rest =>
    match resolveAmong document remaining none branch with
    | .error e => .error e
    | .ok resolved => (resolveBranches document remaining rest).map (resolved :: ·)
  termination_by branches => remaining.length * (sizeOf document + 1) + sizeOf branches

end

/-- Resolves a schema against a document. -/
def resolve (document schema : Json) : Except ReferenceError Resolved :=
  resolveAmong document (references document ++ references schema) none schema

end ResourceCatalog.Schema
