import ResourceCatalog.Json.Number
import ResourceCatalog.Keyed

/-!
# Documents

A document is a JSON value. The members of an object are kept with ascending keys, compared by
code point, which is the order in which every walk visits them and every printer writes them.
Equality treats the two zeros among the doubles as one value and is otherwise exact.
-/

namespace ResourceCatalog

/-- A JSON value. -/
inductive Json where
  | null
  | bool (value : Bool)
  | num (value : Number)
  | str (value : String)
  | arr (items : List Json)
  | obj (members : List (String × Json))
  deriving Repr, Inhabited

/-- The members of an object. -/
abbrev Members := Keyed Json

namespace Json

/-! ### Kinds of values -/

def isObject : Json → Bool
  | .obj _ => true
  | _ => false

def isArray : Json → Bool
  | .arr _ => true
  | _ => false

def isString : Json → Bool
  | .str _ => true
  | _ => false

def asObject? : Json → Option Members
  | .obj members => some members
  | _ => none

def asArray? : Json → Option (List Json)
  | .arr items => some items
  | _ => none

def asString? : Json → Option String
  | .str s => some s
  | _ => none

def asBool? : Json → Option Bool
  | .bool b => some b
  | _ => none

def asNat? : Json → Option Nat
  | .num n => n.toNat?
  | _ => none

/-- The member of an object under a key. Other values have no members. -/
def member? (value : Json) (key : String) : Option Json :=
  match value with
  | .obj members => Keyed.get? key members
  | _ => none

def hasMember (value : Json) (key : String) : Bool := (value.member? key).isSome

/-- The strings of an array of strings; nothing for any other value. -/
def asStrings? (value : Json) : Option (List String) :=
  match value with
  | .arr items => items.mapM asString?
  | _ => none

def nat (n : Nat) : Json := .num (.integer n)

def strings (texts : List String) : Json := .arr (texts.map .str)

/-! ### Parts are smaller -/

theorem sizeOf_lt_of_get? {key : String} {members : Members} {value : Json}
    (h : Keyed.get? key members = some value) : sizeOf value < sizeOf members := by
  induction members with
  | nil => simp [Keyed.get?] at h
  | cons entry rest ih =>
    obtain ⟨k, v⟩ := entry
    by_cases hk : k = key
    · simp only [Keyed.get?, hk, if_true, Option.some.injEq] at h
      subst h
      simp
      omega
    · simp only [Keyed.get?, hk, if_false] at h
      have := ih h
      simp
      omega

theorem sizeOf_lt_of_member? {value : Json} {key : String} {child : Json}
    (h : value.member? key = some child) : sizeOf child < sizeOf value := by
  cases value <;> simp only [Json.member?, reduceCtorEq] at h
  have := sizeOf_lt_of_get? h
  simp
  omega

/-! ### Equality -/

mutual

/-- Equality of values. -/
def same : Json → Json → Bool
  | .null, .null => true
  | .bool a, .bool b => a == b
  | .num a, .num b => a.same b
  | .str a, .str b => a == b
  | .arr xs, .arr ys => sameItems xs ys
  | .obj xs, .obj ys => sameMembers xs ys
  | _, _ => false

def sameItems : List Json → List Json → Bool
  | [], [] => true
  | x :: xs, y :: ys => same x y && sameItems xs ys
  | _, _ => false

def sameMembers : List (String × Json) → List (String × Json) → Bool
  | [], [] => true
  | (k, x) :: xs, (l, y) :: ys => k == l && same x y && sameMembers xs ys
  | _, _ => false

end

/-- Whether a list holds a value equal to the given one. -/
def memberOf (value : Json) (items : List Json) : Bool := items.any value.same

/-! ### Measures -/

mutual

/-- The number of nodes of a value. -/
def size : Json → Nat
  | .arr items => 1 + sizeItems items
  | .obj members => 1 + sizeMembers members
  | _ => 1

def sizeItems : List Json → Nat
  | [] => 0
  | x :: xs => size x + sizeItems xs

def sizeMembers : List (String × Json) → Nat
  | [] => 0
  | (_, x) :: xs => size x + sizeMembers xs

end

mutual

/-- The nesting depth of a value. Scalars and empty containers have depth zero. -/
def depth : Json → Nat
  | .arr items => depthItems items
  | .obj members => depthMembers members
  | _ => 0

/-- One more than the greatest depth in a list of items, zero for no items. -/
def depthItems : List Json → Nat
  | [] => 0
  | x :: xs => max (depth x + 1) (depthItems xs)

def depthMembers : List (String × Json) → Nat
  | [] => 0
  | (_, x) :: xs => max (depth x + 1) (depthMembers xs)

end

end Json

end ResourceCatalog
