import Mathlib
import ResourceCatalog.Json.Printer
import ResourceCatalog.Proofs.Number.Shortest

/-!
# The text of a document tells the document

Two values with the same compact text are the same value. A number ends where its characters do, a
string at the first quotation mark that is not escaped, and what follows a value inside an array or
an object begins no value. So the text of a value can be told from what follows it, and this carries
over from the items and members to the whole.
-/

namespace ResourceCatalog

/-- Two texts of one kind of characters, each followed by another kind, can be told from what
follows. -/
theorem append_inj_of_forall {α : Type} {p : α → Bool} {xs ys s t : List α}
    (hxs : ∀ a ∈ xs, p a = true) (hys : ∀ a ∈ ys, p a = true) (hs : ∀ a ∈ s.head?, p a = false)
    (ht : ∀ a ∈ t.head?, p a = false) (h : xs ++ s = ys ++ t) : xs = ys ∧ s = t := by
  induction xs generalizing ys with
  | nil =>
    cases ys with
    | nil => exact ⟨rfl, h⟩
    | cons y ys =>
      have hy := hys y List.mem_cons_self
      rw [hs y (by rw [← List.nil_append s, h]; rfl)] at hy
      cases hy
  | cons x xs ih =>
    obtain ⟨hx, hxs⟩ := List.forall_mem_cons.1 hxs
    cases ys with
    | nil =>
      rw [ht x (by rw [← List.nil_append t, ← h]; rfl)] at hx
      cases hx
    | cons y ys =>
      obtain ⟨rfl, hrest⟩ := List.cons.inj h
      obtain ⟨rfl, rfl⟩ := ih hxs (List.forall_mem_cons.1 hys).2 hrest
      exact ⟨rfl, rfl⟩

/-! ### Numbers -/

/-- A character of the text of a number. -/
def isNumberChar (c : Char) : Bool := c.isDigit || c == '-' || c == '+' || c == '.' || c == 'e'

theorem isNumberChar_of_isDigit {c : Char} (h : c.isDigit = true) : isNumberChar c = true := by
  rw [isNumberChar, h]
  rfl

theorem isNumberChar_of_mem_toDigits {n : Nat} : ∀ c ∈ Nat.toDigits 10 n, isNumberChar c = true :=
  fun _ hc => isNumberChar_of_isDigit (Literal.isDigit_of_mem_toDigits hc)

theorem isDigit_or_eq_of_mem_toString {i : Int} {c : Char} (hc : c ∈ (toString i).toList) :
    c.isDigit = true ∨ c = '-' := by
  cases i with
  | ofNat n =>
    change c ∈ (toString n).toList at hc
    rw [Pointer.toList_toString] at hc
    exact Or.inl (Literal.isDigit_of_mem_toDigits hc)
  | negSucc n =>
    rw [Literal.toList_toString_negSucc, List.mem_cons] at hc
    exact hc.symm.imp_left Literal.isDigit_of_mem_toDigits

theorem isNumberChar_toString (i : Int) : ∀ c ∈ (toString i).toList, isNumberChar c = true := by
  intro c hc
  rcases isDigit_or_eq_of_mem_toString hc with hdigit | rfl
  · exact isNumberChar_of_isDigit hdigit
  · rfl

theorem Decimal.isNumberChar_render (d : Decimal) :
    ∀ c ∈ (d.render Number.layout).toList, isNumberChar c = true := by
  have hzeros : ∀ k, ∀ c ∈ List.replicate k '0', isNumberChar c = true := fun k c hc =>
    isNumberChar_of_isDigit (forall_isDigit_zeros k c hc)
  refine d.render_cases (P := fun text => ∀ c ∈ text, isNumberChar c = true) ?_ ?_ ?_ ?_ ?_
  · exact fun _ => List.all_eq_true.1 rfl
  · exact fun k _ => List.forall_mem_append.2 ⟨List.forall_mem_append.2
      ⟨isNumberChar_of_mem_toDigits, hzeros k⟩, List.all_eq_true.1 rfl⟩
  · exact fun cut _ _ => List.forall_mem_append.2
      ⟨fun c hc => isNumberChar_of_mem_toDigits c (List.mem_of_mem_take hc), List.forall_mem_cons.2
        ⟨rfl, fun c hc => isNumberChar_of_mem_toDigits c (List.mem_of_mem_drop hc)⟩⟩
  · exact fun k _ => List.forall_mem_cons.2 ⟨rfl, List.forall_mem_cons.2 ⟨rfl,
      List.forall_mem_append.2 ⟨hzeros k, isNumberChar_of_mem_toDigits⟩⟩⟩
  · intro c rest exponent hdigits _
    have hall := hdigits ▸ isNumberChar_of_mem_toDigits (n := (d.trim 20).digits)
    obtain ⟨hc, hrest⟩ := List.forall_mem_cons.1 hall
    refine List.forall_mem_cons.2 ⟨hc, List.forall_mem_append.2 ⟨?_, List.forall_mem_append.2
      ⟨?_, isNumberChar_toString exponent⟩⟩⟩
    · split
      · exact fun _ h => absurd h List.not_mem_nil
      · exact List.forall_mem_cons.2 ⟨rfl, hrest⟩
    · split <;> exact List.all_eq_true.1 rfl

/-- Every decimal number has a point or an exponent in its text. -/
theorem Decimal.exists_mark_mem_render (d : Decimal) :
    ∃ c ∈ (d.render Number.layout).toList, c = '.' ∨ c = 'e' := by
  refine d.render_cases (P := fun text => ∃ c ∈ text, c = '.' ∨ c = 'e') ?_ ?_ ?_ ?_ ?_
  · exact fun _ => ⟨'.', List.mem_cons_of_mem _ List.mem_cons_self, Or.inl rfl⟩
  · exact fun k _ => ⟨'.', List.mem_append_right _ List.mem_cons_self, Or.inl rfl⟩
  · exact fun cut _ _ => ⟨'.', List.mem_append_right _ List.mem_cons_self, Or.inl rfl⟩
  · exact fun k _ => ⟨'.', List.mem_cons_of_mem _ List.mem_cons_self, Or.inl rfl⟩
  · intro c rest exponent _ _
    refine ⟨'e', List.mem_cons_of_mem _ (List.mem_append_right _ (List.mem_append_left _ ?_)),
      Or.inr rfl⟩
    split <;> decide

namespace Number

theorem toList_render_double (d : Double) : (Number.double d).render.toList =
    (if d.negative then ['-'] else []) ++ (d.shortest.render layout).toList := by
  rw [render, String.toList_append]
  cases d.negative <;> rfl

theorem isNumberChar_render (n : Number) : ∀ c ∈ n.render.toList, isNumberChar c = true := by
  cases n with
  | integer i => exact isNumberChar_toString i
  | double d =>
    rw [toList_render_double]
    refine List.forall_mem_append.2 ⟨?_, d.shortest.isNumberChar_render⟩
    split
    · exact List.forall_mem_singleton.2 rfl
    · exact fun _ h => absurd h List.not_mem_nil

theorem render_ne_nil (n : Number) : n.render.toList ≠ [] := by
  cases n with
  | integer i =>
    cases i with
    | ofNat n =>
      change (toString n).toList ≠ []
      rw [Pointer.toList_toString]
      exact Nat.toDigits_ne_nil
    | negSucc n =>
      change (toString (Int.negSucc n)).toList ≠ []
      rw [Literal.toList_toString_negSucc]
      exact List.cons_ne_nil _ _
  | double d =>
    obtain ⟨c, hc, -⟩ := d.shortest.exists_mark_mem_render
    rw [toList_render_double]
    exact List.append_ne_nil_of_right_ne_nil _ (List.ne_nil_of_mem hc)

/-- An integer has neither a point nor an exponent in its text. -/
theorem render_integer_ne_double (i : Int) (d : Double) :
    (Number.integer i).render ≠ (Number.double d).render := by
  intro h
  obtain ⟨c, hc, hmark⟩ := d.shortest.exists_mark_mem_render
  have hmem : c ∈ (toString i).toList := by
    change c ∈ (Number.integer i).render.toList
    rw [h, toList_render_double]
    exact List.mem_append_right _ hc
  rcases isDigit_or_eq_of_mem_toString hmem with hdigit | rfl
  · rcases hmark with rfl | rfl <;> cases hdigit
  · rcases hmark with hmark | hmark <;> cases hmark

/-- Numbers of one text are the same. -/
theorem render_injective : Function.Injective Number.render := by
  intro m n h
  cases m with
  | integer i =>
    cases n with
    | integer j => exact congrArg Number.integer (Int.repr_injective h)
    | double d => exact absurd h (render_integer_ne_double i d)
  | double d =>
    cases n with
    | integer j => exact absurd h.symm (render_integer_ne_double j d)
    | double e =>
      have htext := congrArg String.toList h
      rw [toList_render_double, toList_render_double] at htext
      -- no text of a decimal number begins with a sign
      have hsign : ∀ (a b : Decimal), '-' :: (a.render layout).toList ≠ (b.render layout).toList := by
        intro a b hab
        obtain ⟨_, hread, -⟩ := b.decimal?_render
        rw [← hab] at hread
        cases hread
      have hnegative : d.negative = e.negative ∧
          d.shortest.render layout = e.shortest.render layout := by
        cases hd : d.negative <;> cases he : e.negative <;> rw [hd, he] at htext
        · exact ⟨rfl, String.toList_inj.1 htext⟩
        · exact absurd htext.symm (hsign _ _)
        · exact absurd htext (hsign _ _)
        · exact ⟨rfl, String.toList_inj.1 (List.cons.inj htext).2⟩
      exact congrArg Number.double (Double.eq_of_shortest hnegative.1
        (Decimal.value_eq_of_render_eq hnegative.2))

end Number

namespace Json

/-! ### Strings -/

/-- All characters that are escaped come before this one. -/
def firstPlain : Nat := 93

theorem escapeChar_of_le {c : Char} (h : firstPlain ≤ c.toNat) : escapeChar c = [c] := by
  rw [firstPlain] at h
  have hne : ∀ d : Char, d.toNat < 93 → c ≠ d := by
    rintro d hd rfl
    omega
  rw [escapeChar, if_neg (hne '"' (by decide)), if_neg (hne '\\' (by decide)), if_neg (by omega),
    if_neg (by omega), if_neg (hne '\n' (by decide)), if_neg (hne '\r' (by decide)),
    if_neg (hne '\t' (by decide)), if_neg (by omega)]

theorem prefix_escapeChar : ∀ m < firstPlain, ∀ n < firstPlain,
    escapeChar (Char.ofNat m) <+: escapeChar (Char.ofNat n) → m = n := by decide +kernel

theorem head_escapeChar : ∀ m < firstPlain,
    (escapeChar (Char.ofNat m)).head?.any (fun c => c.toNat < firstPlain && c != '"') = true := by
  decide +kernel

/-- What stands for a character begins with neither a quotation mark nor, for an early character,
with a later one. -/
theorem exists_escapeChar_eq (c : Char) : ∃ d rest, escapeChar c = d :: rest ∧ d ≠ '"' ∧
    (d.toNat < firstPlain ↔ c.toNat < firstPlain) := by
  rcases Nat.lt_or_ge c.toNat firstPlain with hlt | hge
  · have hhead := head_escapeChar c.toNat hlt
    rw [Char.ofNat_toNat] at hhead
    cases hescape : escapeChar c with
    | nil =>
      rw [hescape] at hhead
      cases hhead
    | cons d rest =>
      rw [hescape, List.head?_cons, Option.any_some, Bool.and_eq_true, decide_eq_true_eq,
        bne_iff_ne] at hhead
      exact ⟨d, rest, rfl, hhead.2, iff_of_true hhead.1 hlt⟩
  · refine ⟨c, [], escapeChar_of_le hge, ?_, Iff.rfl⟩
    rintro rfl
    exact absurd hge (by decide)

theorem escapeChar_append_inj {c d : Char} {u v : List Char}
    (h : escapeChar c ++ u = escapeChar d ++ v) : c = d ∧ u = v := by
  suffices hsame : c = d from ⟨hsame, List.append_cancel_left (hsame ▸ h)⟩
  obtain ⟨x, xs, hc, -, hearly⟩ := exists_escapeChar_eq c
  obtain ⟨y, ys, hd, -, hearly'⟩ := exists_escapeChar_eq d
  have hhead : x = y := by
    rw [hc, hd] at h
    exact (List.cons.inj h).1
  rcases Nat.lt_or_ge c.toNat firstPlain with hlt | hge
  · have hlt' : d.toNat < firstPlain := hearly'.1 (hhead ▸ hearly.2 hlt)
    have hprefix := List.prefix_or_prefix_of_prefix (List.prefix_append (escapeChar c) u)
      (h ▸ List.prefix_append (escapeChar d) v)
    rw [← Char.ofNat_toNat c, ← Char.ofNat_toNat d] at hprefix
    have hnat : c.toNat = d.toNat := hprefix.elim (prefix_escapeChar _ hlt _ hlt')
      fun hback => (prefix_escapeChar _ hlt' _ hlt hback).symm
    rw [← Char.ofNat_toNat c, hnat, Char.ofNat_toNat]
  · have hge' : firstPlain ≤ d.toNat :=
      not_lt.1 fun hlt' => not_lt.2 hge (hearly.1 (hhead ▸ hearly'.2 hlt'))
    rw [escapeChar_of_le hge, escapeChar_of_le hge'] at h
    exact (List.cons.inj h).1

theorem escaped_append_inj {a b s t : List Char}
    (h : a.flatMap escapeChar ++ '"' :: s = b.flatMap escapeChar ++ '"' :: t) : a = b ∧ s = t := by
  induction a generalizing b with
  | nil =>
    cases b with
    | nil => exact ⟨rfl, (List.cons.inj h).2⟩
    | cons d ds =>
      obtain ⟨y, ys, hd, hquote, -⟩ := exists_escapeChar_eq d
      rw [List.flatMap_cons, hd] at h
      exact absurd (List.cons.inj h).1.symm hquote
  | cons c cs ih =>
    cases b with
    | nil =>
      obtain ⟨x, xs, hc, hquote, -⟩ := exists_escapeChar_eq c
      rw [List.flatMap_cons, hc] at h
      exact absurd (List.cons.inj h).1 hquote
    | cons d ds =>
      rw [List.flatMap_cons, List.flatMap_cons, List.append_assoc, List.append_assoc] at h
      obtain ⟨rfl, hrest⟩ := escapeChar_append_inj h
      obtain ⟨rfl, rfl⟩ := ih hrest
      exact ⟨rfl, rfl⟩

theorem toList_quote (s : String) :
    (quote s).toList = '"' :: (s.toList.flatMap escapeChar ++ ['"']) := by
  rw [quote]
  simp only [String.toList_append, String.toList_ofList]
  rfl

theorem quote_append_inj {a b : String} {s t : List Char}
    (h : (quote a).toList ++ s = (quote b).toList ++ t) : a = b ∧ s = t := by
  rw [toList_quote, toList_quote, List.cons_append, List.cons_append, List.append_assoc,
    List.append_assoc] at h
  obtain ⟨hsame, hrest⟩ := escaped_append_inj (List.cons.inj h).2
  exact ⟨String.toList_inj.1 hsame, hrest⟩

/-! ### Values -/

/-- What can follow a value: nothing, or a character that no value begins with. -/
def Separated (rest : List Char) : Prop := ∀ c ∈ rest.head?, c = ',' ∨ c = ']' ∨ c = '\x7d'

theorem separated_comma (rest : List Char) : Separated (',' :: rest) :=
  fun _ hc => Or.inl (Option.some.inj hc).symm

theorem separated_bracket (rest : List Char) : Separated (']' :: rest) :=
  fun _ hc => Or.inr (Or.inl (Option.some.inj hc).symm)

theorem separated_brace (rest : List Char) : Separated ('\x7d' :: rest) :=
  fun _ hc => Or.inr (Or.inr (Option.some.inj hc).symm)

/-- The kinds of texts that values have. -/
inductive TextKind where
  | number
  | null
  | yes
  | no
  | string
  | array
  | object
  | other
  deriving DecidableEq

/-- The kind of text that begins with a character. -/
def TextKind.ofChar (c : Char) : TextKind :=
  if isNumberChar c then .number
  else if c = 'n' then .null
  else if c = 't' then .yes
  else if c = 'f' then .no
  else if c = '"' then .string
  else if c = '[' then .array
  else if c = '\x7b' then .object
  else .other

def textKind : Json → TextKind
  | .null => .null
  | .bool true => .yes
  | .bool false => .no
  | .num _ => .number
  | .str _ => .string
  | .arr _ => .array
  | .obj _ => .object

theorem toList_compact_arr (items : List Json) :
    (compact (.arr items)).toList = '[' :: ((compactItems items).toList ++ [']']) := by
  rw [compact, String.toList_append, String.toList_append]
  rfl

theorem toList_compact_obj (members : Members) :
    (compact (.obj members)).toList = '\x7b' :: ((compactMembers members).toList ++ ['\x7d']) := by
  rw [compact, String.toList_append, String.toList_append]
  rfl

/-- The first character of a text tells its kind. -/
theorem exists_compact_eq (x : Json) :
    ∃ c rest, (compact x).toList = c :: rest ∧ TextKind.ofChar c = x.textKind := by
  cases x with
  | null => exact ⟨_, _, rfl, rfl⟩
  | bool b => cases b <;> exact ⟨_, _, rfl, rfl⟩
  | num n =>
    obtain ⟨c, rest, htext⟩ := List.exists_cons_of_ne_nil n.render_ne_nil
    have hc := n.isNumberChar_render c (htext ▸ List.mem_cons_self)
    exact ⟨c, rest, htext, if_pos hc⟩
  | str s => exact ⟨_, _, toList_quote s, rfl⟩
  | arr items => exact ⟨_, _, toList_compact_arr items, rfl⟩
  | obj members => exact ⟨_, _, toList_compact_obj members, rfl⟩

theorem textKind_ne_other (x : Json) : x.textKind ≠ .other := by
  cases x with
  | bool b => cases b <;> exact TextKind.noConfusion
  | _ => exact TextKind.noConfusion

theorem textKind_eq_of_append {x y : Json} {s t : List Char}
    (h : (compact x).toList ++ s = (compact y).toList ++ t) : x.textKind = y.textKind := by
  obtain ⟨c, _, hx, hkind⟩ := exists_compact_eq x
  obtain ⟨d, _, hy, hkind'⟩ := exists_compact_eq y
  rw [hx, hy] at h
  rw [← hkind, ← hkind', (List.cons.inj h).1]

/-- No value begins with a character of no kind. -/
theorem compact_append_ne (x : Json) {c : Char} (hc : TextKind.ofChar c = .other)
    (s t : List Char) : (compact x).toList ++ s ≠ c :: t := by
  intro h
  obtain ⟨d, _, hx, hkind⟩ := exists_compact_eq x
  rw [hx] at h
  rw [(List.cons.inj h).1, hc] at hkind
  exact x.textKind_ne_other hkind.symm

/-- The items behind the first one. -/
def itemsTail : List Json → List Char
  | [] => []
  | x :: rest => ',' :: (compactItems (x :: rest)).toList

theorem toList_compactItems_cons (x : Json) (rest : List Json) :
    (compactItems (x :: rest)).toList = (compact x).toList ++ itemsTail rest := by
  cases rest with
  | nil =>
    rw [compactItems]
    exact (List.append_nil _).symm
  | cons y rest =>
    rw [compactItems, String.toList_append, String.toList_append, List.append_assoc]
    rfl

/-- The members behind the first one. -/
def membersTail : Members → List Char
  | [] => []
  | entry :: rest => ',' :: (compactMembers (entry :: rest)).toList

theorem toList_compactMembers_cons (k : String) (x : Json) (rest : Members) :
    (compactMembers ((k, x) :: rest)).toList =
      (quote k).toList ++ ':' :: ((compact x).toList ++ membersTail rest) := by
  cases rest with
  | nil =>
    rw [compactMembers, String.toList_append, String.toList_append, List.append_assoc, membersTail,
      List.append_nil]
    rfl
  | cons y rest =>
    rw [compactMembers]
    simp only [String.toList_append, List.append_assoc]
    rfl

theorem separated_itemsTail (rest : List Json) (s : List Char) :
    Separated (itemsTail rest ++ ']' :: s) := by
  cases rest with
  | nil => exact separated_bracket s
  | cons x rest => exact separated_comma _

theorem separated_membersTail (rest : Members) (s : List Char) :
    Separated (membersTail rest ++ '\x7d' :: s) := by
  cases rest with
  | nil => exact separated_brace s
  | cons x rest => exact separated_comma _

theorem isNumberChar_of_separated {s : List Char} (h : Separated s) :
    ∀ c ∈ s.head?, isNumberChar c = false := by
  intro c hc
  rcases h c hc with rfl | rfl | rfl <;> rfl

mutual

/-- The text of a value tells the value, and where it ends. -/
theorem compact_append_inj (x y : Json) {s t : List Char} (hs : Separated s) (ht : Separated t)
    (h : (compact x).toList ++ s = (compact y).toList ++ t) : x = y ∧ s = t := by
  have hkind := textKind_eq_of_append h
  cases x with
  | null =>
    cases y with
    | null => exact ⟨rfl, List.append_cancel_left h⟩
    | bool b => cases b <;> cases hkind
    | _ => cases hkind
  | bool a =>
    cases y with
    | bool b =>
      obtain rfl : a = b := by cases a <;> cases b <;> first | rfl | cases hkind
      exact ⟨rfl, List.append_cancel_left h⟩
    | _ => cases a <;> cases hkind
  | num m =>
    cases y with
    | num n =>
      obtain ⟨htext, hrest⟩ := append_inj_of_forall m.isNumberChar_render n.isNumberChar_render
        (isNumberChar_of_separated hs) (isNumberChar_of_separated ht) h
      exact ⟨congrArg Json.num (Number.render_injective (String.toList_inj.1 htext)), hrest⟩
    | bool b => cases b <;> cases hkind
    | _ => cases hkind
  | str a =>
    cases y with
    | str b =>
      obtain ⟨rfl, hrest⟩ := quote_append_inj h
      exact ⟨rfl, hrest⟩
    | bool b => cases b <;> cases hkind
    | _ => cases hkind
  | arr xs =>
    cases y with
    | arr ys =>
      rw [toList_compact_arr, toList_compact_arr, List.cons_append, List.cons_append,
        List.append_assoc, List.append_assoc] at h
      obtain ⟨rfl, hrest⟩ := compactItems_append_inj xs ys (List.cons.inj h).2
      exact ⟨rfl, hrest⟩
    | bool b => cases b <;> cases hkind
    | _ => cases hkind
  | obj xs =>
    cases y with
    | obj ys =>
      rw [toList_compact_obj, toList_compact_obj, List.cons_append, List.cons_append,
        List.append_assoc, List.append_assoc] at h
      obtain ⟨rfl, hrest⟩ := compactMembers_append_inj xs ys (List.cons.inj h).2
      exact ⟨rfl, hrest⟩
    | bool b => cases b <;> cases hkind
    | _ => cases hkind

theorem compactItems_append_inj (xs ys : List Json) {s t : List Char}
    (h : (compactItems xs).toList ++ ']' :: s = (compactItems ys).toList ++ ']' :: t) :
    xs = ys ∧ s = t := by
  cases xs with
  | nil =>
    cases ys with
    | nil => exact ⟨rfl, (List.cons.inj h).2⟩
    | cons y ys =>
      rw [toList_compactItems_cons, List.append_assoc] at h
      exact absurd h.symm (compact_append_ne y rfl _ _)
  | cons x xs =>
    rw [toList_compactItems_cons, List.append_assoc] at h
    cases ys with
    | nil => exact absurd h (compact_append_ne x rfl _ _)
    | cons y ys =>
      rw [toList_compactItems_cons, List.append_assoc] at h
      obtain ⟨rfl, hrest⟩ := compact_append_inj x y (separated_itemsTail xs s)
        (separated_itemsTail ys t) h
      cases xs with
      | nil =>
        cases ys with
        | nil => exact ⟨rfl, (List.cons.inj hrest).2⟩
        | cons y ys => exact absurd (List.cons.inj hrest).1 (by decide)
      | cons x' xs =>
        cases ys with
        | nil => exact absurd (List.cons.inj hrest).1 (by decide)
        | cons y ys =>
          obtain ⟨hsame, hend⟩ := compactItems_append_inj (x' :: xs) (y :: ys) (List.cons.inj hrest).2
          exact ⟨congrArg (x :: ·) hsame, hend⟩

theorem compactMembers_append_inj (xs ys : Members) {s t : List Char}
    (h : (compactMembers xs).toList ++ '\x7d' :: s = (compactMembers ys).toList ++ '\x7d' :: t) :
    xs = ys ∧ s = t := by
  cases xs with
  | nil =>
    cases ys with
    | nil => exact ⟨rfl, (List.cons.inj h).2⟩
    | cons y ys =>
      obtain ⟨l, y⟩ := y
      rw [toList_compactMembers_cons, toList_quote] at h
      exact absurd (List.cons.inj h).1 (by decide)
  | cons x xs =>
    obtain ⟨k, x⟩ := x
    rw [toList_compactMembers_cons, List.append_assoc] at h
    cases ys with
    | nil =>
      rw [toList_quote] at h
      exact absurd (List.cons.inj h).1 (by decide)
    | cons y ys =>
      obtain ⟨l, y⟩ := y
      rw [toList_compactMembers_cons, List.append_assoc] at h
      obtain ⟨rfl, hmember⟩ := quote_append_inj h
      rw [List.cons_append, List.cons_append, List.append_assoc, List.append_assoc] at hmember
      have hvalue := (List.cons.inj hmember).2
      obtain ⟨rfl, hrest⟩ := compact_append_inj x y (separated_membersTail xs s)
        (separated_membersTail ys t) hvalue
      cases xs with
      | nil =>
        cases ys with
        | nil => exact ⟨rfl, (List.cons.inj hrest).2⟩
        | cons y ys => exact absurd (List.cons.inj hrest).1 (by decide)
      | cons x' xs =>
        cases ys with
        | nil => exact absurd (List.cons.inj hrest).1 (by decide)
        | cons y ys =>
          obtain ⟨hsame, hend⟩ := compactMembers_append_inj (x' :: xs) (y :: ys)
            (List.cons.inj hrest).2
          exact ⟨congrArg ((k, x) :: ·) hsame, hend⟩

end

/-- Values of one text are the same. -/
theorem compact_injective : Function.Injective compact := by
  intro x y h
  have hnil : Separated [] := fun _ hc => nomatch hc
  refine (compact_append_inj x y hnil hnil ?_).1
  rw [h]

theorem compact_ne_empty (x : Json) : compact x ≠ "" := by
  intro h
  obtain ⟨c, rest, hx, -⟩ := exists_compact_eq x
  rw [h] at hx
  cases hx

end Json

end ResourceCatalog
