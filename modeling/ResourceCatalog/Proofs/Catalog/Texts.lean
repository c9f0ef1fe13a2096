import Mathlib
import ResourceCatalog.Import.Builder
import ResourceCatalog.Proofs.Graph.Collection
import ResourceCatalog.Proofs.Import.Runs

/-!
# Types and their texts

A text stands for a type up to two things: it has the names of definitions in place of references,
and it does not show how unions are nested. `PropertyType.flat` is what is left of a type then, and
`render_eq` says that the text is made of that alone. The other way round, a text can be read in one
way only if the names can be told from the rest of it. Three marks, `|`, `<` and `>`, show where
alternatives and elements end, so where no name holds a mark, texts are faithful exactly if no
definition is called like a scalar (`faithful_iff`). Names come from the names of properties, which
may be anything.
-/

namespace ResourceCatalog

/-! ### Types by name -/

/-- The types without parts. -/
inductive ScalarKind where
  | string
  | number
  | boolean
  | dateTime
  | json
  | null
  deriving DecidableEq, Repr

def ScalarKind.word : ScalarKind → String
  | .string => "string"
  | .number => "number"
  | .boolean => "boolean"
  | .dateTime => "date-time"
  | .json => "json"
  | .null => "null"

def ScalarKind.type : ScalarKind → PropertyType
  | .string => .string
  | .number => .number
  | .boolean => .boolean
  | .dateTime => .dateTime
  | .json => .json
  | .null => .null

theorem ScalarKind.references_type (kind : ScalarKind) : kind.type.references = [] := by
  cases kind <;> rfl

/-- A type that is written as one word. -/
inductive Leaf where
  | scalar (kind : ScalarKind)
  | named (name : String)
  /-- The union of no types. -/
  | nothing
  deriving DecidableEq, Repr

def Leaf.text : Leaf → String
  | .scalar kind => kind.word
  | .named name => name
  | .nothing => ""

mutual

/-- A type that is not a union of others, with the names of definitions in place of references. -/
inductive Alternative where
  | leaf (leaf : Leaf)
  | array (element : Alternatives)
  | map (element : Alternatives)

/-- The alternatives of a union, none of which is a union. Any other type is its only
alternative. -/
inductive Alternatives where
  | only (type : Alternative)
  | more (type : Alternative) (rest : Alternatives)

end

def Alternatives.append : Alternatives → Alternatives → Alternatives
  | .only type, others => .more type others
  | .more type rest, others => .more type (rest.append others)

namespace PropertyType

mutual

/-- A type with names in place of references and without unions inside of unions. -/
def flat (nameOf : Identity → String) : PropertyType → Alternatives
  | .string => .only (.leaf (.scalar .string))
  | .number => .only (.leaf (.scalar .number))
  | .boolean => .only (.leaf (.scalar .boolean))
  | .dateTime => .only (.leaf (.scalar .dateTime))
  | .json => .only (.leaf (.scalar .json))
  | .null => .only (.leaf (.scalar .null))
  | .ref definition => .only (.leaf (.named (nameOf definition)))
  | .array element => .only (.array (flat nameOf element))
  | .map element => .only (.map (flat nameOf element))
  | .union types => flatAll nameOf types

def flatAll (nameOf : Identity → String) : List PropertyType → Alternatives
  | [] => .only (.leaf .nothing)
  | [type] => flat nameOf type
  | type :: next :: rest => (flat nameOf type).append (flatAll nameOf (next :: rest))

end

end PropertyType

theorem ScalarKind.flat_type (names : Identity → String) (kind : ScalarKind) :
    kind.type.flat names = .only (.leaf (.scalar kind)) := by
  cases kind <;> rfl

/-! ### The text of a flat type -/

/-- How the text of a list begins. -/
def listStart : List Char := ['A', 'r', 'r', 'a', 'y', '<']

/-- How the text of a map begins. -/
def mapStart : List Char := ['M', 'a', 'p', '<', 's', 't', 'r', 'i', 'n', 'g', ',', ' ']

mutual

def Alternative.chars : Alternative → List Char
  | .leaf leaf => leaf.text.toList
  | .array element => listStart ++ (element.chars ++ ['>'])
  | .map element => mapStart ++ (element.chars ++ ['>'])

def Alternatives.chars : Alternatives → List Char
  | .only type => type.chars
  | .more type rest => type.chars ++ (' ' :: '|' :: ' ' :: rest.chars)

end

theorem Alternatives.chars_append (types others : Alternatives) :
    (types.append others).chars = types.chars ++ (' ' :: '|' :: ' ' :: others.chars) := by
  match types with
  | .only type => rfl
  | .more type rest =>
    simp only [append, chars, chars_append rest others, List.append_assoc, List.cons_append]

namespace PropertyType

variable {nameOf : Identity → Except GraphError String} {names : Identity → String}

theorem join_flat (names : Identity → String) (types : List PropertyType) :
    Text.join " | " (types.map fun type => String.ofList (type.flat names).chars) =
      String.ofList (flatAll names types).chars := by
  match types with
  | [] => rfl
  | [type] => simp [Text.join, flatAll]
  | type :: next :: rest =>
    have ih := join_flat names (next :: rest)
    rw [List.map_cons, Text.join] at ih
    rw [List.map_cons, List.map_cons, Text.join, String.intercalate_cons_cons, ih, flatAll,
      Alternatives.chars_append]
    apply String.toList_injective
    simp

mutual

/-- The text of a type is that of the flat type. -/
theorem render_eq (type : PropertyType) (h : ∀ id ∈ type.references, nameOf id = .ok (names id)) :
    type.render nameOf = .ok (String.ofList (type.flat names).chars) := by
  cases type with
  | ref definition =>
    have hmem : definition ∈ (ref definition).references := List.mem_singleton_self _
    simp [render, h definition hmem, flat, Alternatives.chars, Alternative.chars, Leaf.text]
  | array element =>
    rw [render, render_eq element h]
    apply congrArg Except.ok
    apply String.toList_injective
    simp [flat, Alternatives.chars, Alternative.chars, listStart, toString]
  | map element =>
    rw [render, render_eq element h]
    apply congrArg Except.ok
    apply String.toList_injective
    simp [flat, Alternatives.chars, Alternative.chars, mapStart, toString]
  | union types =>
    rw [render, renderAll_eq types h, flat, ← join_flat]
    rfl
  | _ => exact congrArg Except.ok String.ofList_toList.symm

theorem renderAll_eq (types : List PropertyType)
    (h : ∀ id ∈ referencesOfAll types, nameOf id = .ok (names id)) :
    renderAll nameOf types =
      .ok (types.map fun type => String.ofList (type.flat names).chars) := by
  cases types with
  | nil => rfl
  | cons type rest =>
    rw [referencesOfAll] at h
    rw [renderAll, render_eq type fun id hid => h id (List.mem_append_left _ hid),
      renderAll_eq rest fun id hid => h id (List.mem_append_right _ hid)]
    rfl

end

end PropertyType

/-! ### Reading a text -/

/-- The characters that show where an alternative or an element ends. -/
def isMark (c : Char) : Bool := c == '|' || c == '<' || c == '>'

/-- The text holds no mark. -/
def Unmarked (text : String) : Prop := ∀ c ∈ text.toList, isMark c = false

instance (text : String) : Decidable (Unmarked text) :=
  inferInstanceAs (Decidable (∀ c ∈ text.toList, isMark c = false))

/-- A name that is not read as anything else: it is neither empty nor the word for a scalar. -/
def Distinctive (name : String) : Prop := name ≠ "" ∧ ∀ kind : ScalarKind, name ≠ kind.word

theorem ScalarKind.word_injective : Function.Injective ScalarKind.word := by
  intro a b h
  cases a <;> cases b <;> first | rfl | (exact absurd h (by decide))

theorem ScalarKind.unmarked_word (kind : ScalarKind) : Unmarked kind.word := by
  cases kind <;> simp [Unmarked, ScalarKind.word, isMark]

theorem ScalarKind.word_ne_empty (kind : ScalarKind) : kind.word ≠ "" := by
  cases kind <;> decide

/-- What may follow an alternative in a text. -/
inductive Ended : List Char → Prop
  | text : Ended []
  | element (rest : List Char) : Ended ('>' :: rest)
  | alternative (rest : List Char) : Ended (' ' :: '|' :: ' ' :: rest)

/-- What may follow all alternatives in a text. -/
inductive Closed : List Char → Prop
  | text : Closed []
  | element (rest : List Char) : Closed ('>' :: rest)

theorem Closed.ended {rest : List Char} (h : Closed rest) : Ended rest := by
  cases h with
  | text => exact .text
  | element rest => exact .element rest

theorem Closed.ne_bar {rest others : List Char} (h : Closed rest) :
    rest ≠ ' ' :: '|' :: ' ' :: others := by
  cases h <;> simp

/-- A text from its first mark on. -/
def fromMark (text : List Char) : List Char := text.dropWhile fun c => !isMark c

theorem fromMark_append {text : String} (h : Unmarked text) (rest : List Char) :
    fromMark (text.toList ++ rest) = fromMark rest := by
  apply List.dropWhile_append_of_pos
  intro c hc
  simp [h c hc]

/-- What follows an alternative shows from its first mark on. -/
theorem Ended.ext {rest rest' : List Char} (h : Ended rest) (h' : Ended rest')
    (hmark : fromMark rest = fromMark rest') : rest = rest' := by
  cases h <;> cases h' <;> simp_all [fromMark, isMark]

theorem Ended.fromMark_ne {rest others : List Char} (h : Ended rest) :
    fromMark rest ≠ '<' :: others := by
  cases h <;> simp [fromMark, isMark]

theorem fromMark_array (element : Alternatives) (rest : List Char) :
    ∃ others, fromMark ((Alternative.array element).chars ++ rest) = '<' :: others := by
  simp [fromMark, Alternative.chars, listStart, isMark]

theorem fromMark_map (element : Alternatives) (rest : List Char) :
    ∃ others, fromMark ((Alternative.map element).chars ++ rest) = '<' :: others := by
  simp [fromMark, Alternative.chars, mapStart, isMark]

theorem Unmarked.append_inj {text text' : String} (h : Unmarked text) (h' : Unmarked text')
    {rest rest' : List Char} (hrest : Ended rest) (hrest' : Ended rest')
    (heq : text.toList ++ rest = text'.toList ++ rest') : text = text' ∧ rest = rest' := by
  have hsame : rest = rest' := by
    apply hrest.ext hrest'
    rw [← fromMark_append h, heq, fromMark_append h']
  subst hsame
  exact ⟨String.toList_injective (List.append_cancel_right heq), rfl⟩

/-! ### Names that can be told from the rest -/

/-- A name has no marks and is not read as anything else. -/
structure Clear (name : String) : Prop where
  unmarked : Unmarked name
  distinctive : Distinctive name

/-- A word that is no name, or a clear one. -/
def Leaf.Clear : Leaf → Prop
  | .named name => ResourceCatalog.Clear name
  | _ => True

mutual

/-- All names in an alternative are clear. -/
def Alternative.Clear : Alternative → Prop
  | .leaf leaf => leaf.Clear
  | .array element => element.Clear
  | .map element => element.Clear

def Alternatives.Clear : Alternatives → Prop
  | .only type => type.Clear
  | .more type rest => type.Clear ∧ rest.Clear

end

theorem Leaf.Clear.unmarked {leaf : Leaf} (h : leaf.Clear) : Unmarked leaf.text := by
  cases leaf with
  | scalar kind => exact kind.unmarked_word
  | named name => exact ResourceCatalog.Clear.unmarked h
  | nothing => exact fun c hc => absurd hc (by simp [Leaf.text])

theorem Leaf.Clear.eq_of_text_eq {a b : Leaf} (ha : a.Clear) (hb : b.Clear)
    (h : a.text = b.text) : a = b := by
  cases a with
  | scalar kind =>
    cases b with
    | scalar other => exact congrArg Leaf.scalar (ScalarKind.word_injective h)
    | named name => exact absurd h.symm (hb.distinctive.2 kind)
    | nothing => exact absurd h kind.word_ne_empty
  | named name =>
    cases b with
    | scalar kind => exact absurd h (ha.distinctive.2 kind)
    | named other => exact congrArg Leaf.named h
    | nothing => exact absurd h ha.distinctive.1
  | nothing =>
    cases b with
    | scalar kind => exact absurd h.symm kind.word_ne_empty
    | named name => exact absurd h.symm hb.distinctive.1
    | nothing => rfl

/-- A word does not begin as a list or a map does. -/
theorem Leaf.Clear.append_ne {leaf : Leaf} (h : leaf.Clear) {rest text : List Char}
    (hrest : Ended rest) (htext : ∃ others, fromMark text = '<' :: others) :
    leaf.text.toList ++ rest ≠ text := by
  rintro rfl
  obtain ⟨others, hothers⟩ := htext
  rw [fromMark_append h.unmarked] at hothers
  exact hrest.fromMark_ne hothers

mutual

/-- An alternative and what follows it can be read from the text in one way. -/
theorem Alternative.chars_append_inj (a b : Alternative) (ha : a.Clear) (hb : b.Clear)
    {s t : List Char} (hs : Ended s) (ht : Ended t) (h : a.chars ++ s = b.chars ++ t) :
    a = b ∧ s = t := by
  match a, b with
  | .leaf first, .leaf second =>
    obtain ⟨htext, hrest⟩ := Unmarked.append_inj (Leaf.Clear.unmarked ha)
      (Leaf.Clear.unmarked hb) hs ht h
    exact ⟨congrArg Alternative.leaf (Leaf.Clear.eq_of_text_eq ha hb htext), hrest⟩
  | .array first, .array second =>
    simp only [Alternative.chars, List.append_assoc] at h
    obtain ⟨rfl, hrest⟩ := Alternatives.chars_append_inj first second ha hb (.element s)
      (.element t) (List.append_cancel_left h)
    exact ⟨rfl, List.tail_eq_of_cons_eq hrest⟩
  | .map first, .map second =>
    simp only [Alternative.chars, List.append_assoc] at h
    obtain ⟨rfl, hrest⟩ := Alternatives.chars_append_inj first second ha hb (.element s)
      (.element t) (List.append_cancel_left h)
    exact ⟨rfl, List.tail_eq_of_cons_eq hrest⟩
  | .array first, .map second => simp [Alternative.chars, listStart, mapStart] at h
  | .map first, .array second => simp [Alternative.chars, listStart, mapStart] at h
  | .leaf first, .array second =>
    exact absurd h (Leaf.Clear.append_ne ha hs (fromMark_array second t))
  | .leaf first, .map second => exact absurd h (Leaf.Clear.append_ne ha hs (fromMark_map second t))
  | .array first, .leaf second =>
    exact absurd h.symm (Leaf.Clear.append_ne hb ht (fromMark_array first s))
  | .map first, .leaf second =>
    exact absurd h.symm (Leaf.Clear.append_ne hb ht (fromMark_map first s))

theorem Alternatives.chars_append_inj (xs ys : Alternatives) (hx : xs.Clear) (hy : ys.Clear)
    {s t : List Char} (hs : Closed s) (ht : Closed t) (h : xs.chars ++ s = ys.chars ++ t) :
    xs = ys ∧ s = t := by
  match xs, ys with
  | .only first, .only second =>
    obtain ⟨rfl, hrest⟩ := Alternative.chars_append_inj first second hx hy hs.ended ht.ended h
    exact ⟨rfl, hrest⟩
  | .more first rest, .more second others =>
    simp only [Alternatives.chars, List.append_assoc, List.cons_append] at h
    obtain ⟨rfl, hrest⟩ := Alternative.chars_append_inj first second hx.1 hy.1
      (.alternative _) (.alternative _) h
    simp only [List.cons.injEq, true_and] at hrest
    obtain ⟨rfl, hend⟩ := Alternatives.chars_append_inj rest others hx.2 hy.2 hs ht hrest
    exact ⟨rfl, hend⟩
  | .only first, .more second others =>
    simp only [Alternatives.chars, List.append_assoc, List.cons_append] at h
    obtain ⟨-, hrest⟩ := Alternative.chars_append_inj first second hx hy.1 hs.ended
      (.alternative _) h
    exact absurd hrest hs.ne_bar
  | .more first rest, .only second =>
    simp only [Alternatives.chars, List.append_assoc, List.cons_append] at h
    obtain ⟨-, hrest⟩ := Alternative.chars_append_inj first second hx.1 hy
      (.alternative _) ht.ended h
    exact absurd hrest.symm ht.ne_bar

end

theorem Alternatives.eq_of_chars_eq {xs ys : Alternatives} (hx : xs.Clear) (hy : ys.Clear)
    (h : xs.chars = ys.chars) : xs = ys := by
  refine (Alternatives.chars_append_inj xs ys hx hy .text .text ?_).1
  rw [List.append_nil, List.append_nil, h]

theorem Alternatives.Clear.append {xs ys : Alternatives} (hx : xs.Clear) (hy : ys.Clear) :
    (xs.append ys).Clear := by
  match xs with
  | .only type => exact ⟨hx, hy⟩
  | .more type rest => exact ⟨hx.1, Alternatives.Clear.append hx.2 hy⟩

namespace PropertyType

mutual

theorem clear_flat (names : Identity → String) (type : PropertyType)
    (h : ∀ id ∈ type.references, Clear (names id)) : (type.flat names).Clear := by
  cases type with
  | ref definition => exact h definition (List.mem_singleton_self _)
  | array element => exact clear_flat names element h
  | map element => exact clear_flat names element h
  | union types => exact clear_flatAll names types h
  | _ => exact trivial

theorem clear_flatAll (names : Identity → String) (types : List PropertyType)
    (h : ∀ id ∈ referencesOfAll types, Clear (names id)) : (flatAll names types).Clear := by
  match types with
  | [] => exact trivial
  | [type] => exact clear_flat names type fun id hid => h id (List.mem_append_left _ hid)
  | type :: next :: rest =>
    exact (clear_flat names type fun id hid => h id (List.mem_append_left _ hid)).append
      (clear_flatAll names (next :: rest) fun id hid => h id (List.mem_append_right _ hid))

end

end PropertyType

/-! ### The texts of two databases -/

namespace Database

/-- The name of a type definition, empty for one that is not there. -/
def nameOf (db : Database) (definition : Identity) : String :=
  (db.typeName definition).toOption.getD ""

/-- Some type definition has the name. -/
def Names (db : Database) (name : String) : Prop := ∃ definition, db.typeName definition = .ok name

/-- All definitions that the type mentions are there. -/
def Covers (db : Database) (type : PropertyType) : Prop :=
  ∀ definition ∈ type.references, ∃ name, db.typeName definition = .ok name

/-- Types of two databases have texts, and these are equal exactly if the types are, with the names
of definitions in place of references and without unions inside of unions. -/
def Faithful (a b : Database) : Prop :=
  ∀ type type', a.Covers type → b.Covers type' →
    ∃ text text', a.render type = .ok text ∧ b.render type' = .ok text' ∧
      (text = text' ↔ type.flat a.nameOf = type'.flat b.nameOf)

variable {a b db : Database}

theorem nameOf_eq {definition : Identity} {name : String}
    (h : db.typeName definition = .ok name) : db.nameOf definition = name := by
  rw [nameOf, h]
  rfl

theorem Covers.typeName {type : PropertyType} (h : db.Covers type) {definition : Identity}
    (hmem : definition ∈ type.references) :
    db.typeName definition = .ok (db.nameOf definition) := by
  obtain ⟨name, hname⟩ := h definition hmem
  rw [nameOf_eq hname, hname]

theorem render_flat {type : PropertyType} (h : db.Covers type) :
    db.render type = .ok (String.ofList (type.flat db.nameOf).chars) :=
  type.render_eq fun _ hmem => h.typeName hmem

theorem covers_ref {definition : Identity} {name : String}
    (h : db.typeName definition = .ok name) : db.Covers (.ref definition) := by
  intro other hother
  obtain rfl := List.mem_singleton.1 hother
  exact ⟨name, h⟩

theorem covers_of_references_eq_nil {type : PropertyType} (h : type.references = []) :
    db.Covers type := by
  intro definition hmem
  rw [h] at hmem
  exact absurd hmem List.not_mem_nil

theorem Faithful.symm (h : Faithful a b) : Faithful b a := by
  intro type type' htype htype'
  obtain ⟨text', text, htext', htext, hsame⟩ := h type' type htype' htype
  exact ⟨text, text', htext, htext', by rw [eq_comm, hsame, eq_comm]⟩

theorem Faithful.distinctive (h : Faithful a b) {name : String} (hname : a.Names name) :
    Distinctive name := by
  obtain ⟨definition, hdefinition⟩ := hname
  have hother : ∀ leaf type', b.Covers type' → type'.flat b.nameOf = .only (.leaf leaf) →
      leaf ≠ .named name → name ≠ leaf.text := by
    intro leaf type' htype' hflat hleaf hsame
    obtain ⟨text, text', htext, htext', hfaithful⟩ :=
      h (.ref definition) type' (covers_ref hdefinition) htype'
    have hname : (PropertyType.ref definition).flat a.nameOf = .only (.leaf (.named name)) := by
      rw [PropertyType.flat, nameOf_eq hdefinition]
    rw [render_flat (covers_ref hdefinition), hname, Except.ok.injEq] at htext
    rw [render_flat htype', hflat, Except.ok.injEq] at htext'
    rw [← htext, ← htext', hname, hflat] at hfaithful
    have hwords : String.ofList (Alternatives.only (.leaf (.named name))).chars =
        String.ofList (Alternatives.only (.leaf leaf)).chars := by
      rw [Alternatives.chars, Alternatives.chars, Alternative.chars, Alternative.chars, ← hsame]
      rfl
    simp only [Alternatives.only.injEq, Alternative.leaf.injEq] at hfaithful
    exact hleaf (hfaithful.1 hwords).symm
  constructor
  · exact hother .nothing (.union []) (covers_of_references_eq_nil rfl) rfl (by simp)
  · intro kind
    exact hother (.scalar kind) kind.type (covers_of_references_eq_nil kind.references_type)
      (kind.flat_type b.nameOf) (by simp)

/-- Where no name holds a mark, texts stand for types exactly if no name is empty or the word for a
scalar. Names need not be distinct for that. -/
theorem faithful_iff (h : ∀ name, a.Names name ∨ b.Names name → Unmarked name) :
    Faithful a b ↔ ∀ name, a.Names name ∨ b.Names name → Distinctive name := by
  constructor
  · intro hfaithful name hname
    rcases hname with hname | hname
    · exact hfaithful.distinctive hname
    · exact hfaithful.symm.distinctive hname
  · intro hdistinctive type type' htype htype'
    refine ⟨_, _, render_flat htype, render_flat htype', ?_⟩
    have hclear : ∀ name, a.Names name ∨ b.Names name → Clear name := fun name hname =>
      ⟨h name hname, hdistinctive name hname⟩
    have hflat := type.clear_flat a.nameOf fun definition hmem =>
      hclear _ (Or.inl ⟨definition, htype.typeName hmem⟩)
    have hflat' := type'.clear_flat b.nameOf fun definition hmem =>
      hclear _ (Or.inr ⟨definition, htype'.typeName hmem⟩)
    constructor
    · intro htext
      exact Alternatives.eq_of_chars_eq hflat hflat' (String.ofList_injective htext)
    · intro hsame
      rw [hsame]

theorem Names.mem {name : String} (h : db.Names name) :
    name ∈ db.typeDefinitions.all.map (·.entity.name) := by
  obtain ⟨definition, hname⟩ := h
  rw [typeName] at hname
  cases hget : db.typeDefinitions.get definition with
  | error e =>
    rw [hget] at hname
    cases hname
  | ok r =>
    rw [hget] at hname
    cases hname
    exact List.mem_map_of_mem (Collection.mem_all_of_get hget)

theorem Names.eq_of_only {name only : String} (h : db.Names name)
    (honly : db.typeDefinitions.all.map (·.entity.name) = [only]) : name = only :=
  List.mem_singleton.1 (honly ▸ h.mem)

/-- The catalog of a document with one property, a record of one text. -/
def withRecord (property : String) : Database :=
  (BuildStep.runAll BuildStep.bareBuilder [.importDocument "AWS::S3::Bucket"
    (.obj [("properties", .obj [(property, .obj
      [("properties", .obj [("Mail", .obj [("type", .str "string")])]),
        ("type", .str "object")])])]) none]).database

/-- Whether texts are faithful depends on how a property is called. -/
theorem faithful_withRecord :
    Faithful (withRecord "Owner") (withRecord "Owner") ∧
      ¬Faithful (withRecord "string") (withRecord "Owner") := by
  have howner : ∀ name, (withRecord "Owner").Names name → name = "Owner" :=
    fun name hname => hname.eq_of_only (by decide +kernel)
  have hstring : ∀ name, (withRecord "string").Names name → name = "string" :=
    fun name hname => hname.eq_of_only (by decide +kernel)
  have hunmarked : Unmarked "Owner" ∧ Unmarked "string" := by
    simp [Unmarked, isMark]
  constructor
  · refine (faithful_iff fun name hname => ?_).2 fun name hname => ?_
    · rw [howner name (or_self_iff.1 hname)]
      exact hunmarked.1
    · rw [howner name (or_self_iff.1 hname)]
      exact ⟨by decide, fun kind => by cases kind <;> decide⟩
  · rw [faithful_iff]
    · intro hdistinctive
      have hname : (withRecord "string").Names "string" :=
        ⟨⟨3⟩, by decide +kernel⟩
      exact (hdistinctive "string" (Or.inl hname)).2 .string rfl
    · intro name hname
      rcases hname with hname | hname
      · rw [hstring name hname]
        exact hunmarked.2
      · rw [howner name hname]
        exact hunmarked.1

end Database

end ResourceCatalog
