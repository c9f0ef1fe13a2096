import Mathlib
import ResourceCatalog.Pointer.Basic

/-!
# Pointers and their tokens

A pointer that is put together from tokens is read as these tokens, whatever characters they have:
the written form of a token has no slash, so every slash begins a token. The token of an index is
its decimal digits, which are read back as the index. The tokens of any pointer are those of the
text before its last slash, and one more. A pointer comes before all pointers that lead further down
from its place.
-/

namespace ResourceCatalog

namespace Text

variable {sep : Char}

theorem splitOn_of_not_mem {piece : List Char} (h : sep ∉ piece) : splitOn sep piece = [piece] := by
  induction piece with
  | nil => rfl
  | cons c rest ih =>
    rw [List.mem_cons, not_or] at h
    obtain ⟨hc, hrest⟩ := h
    rw [splitOn, if_neg (Ne.symm hc), ih hrest]

theorem splitOn_append {piece : List Char} (h : sep ∉ piece) (text : List Char) :
    splitOn sep (piece ++ sep :: text) = piece :: splitOn sep text := by
  induction piece with
  | nil => rw [List.nil_append, splitOn, if_pos rfl]
  | cons c rest ih =>
    rw [List.mem_cons, not_or] at h
    obtain ⟨hc, hrest⟩ := h
    rw [List.cons_append, splitOn, if_neg (Ne.symm hc), ih hrest]

/-- Pieces before a separator and pieces behind it are cut apart on their own. -/
theorem splitOn_append_sep (before after : List Char) :
    splitOn sep (before ++ sep :: after) = splitOn sep before ++ splitOn sep after := by
  induction before with
  | nil => simp [splitOn]
  | cons c rest ih =>
    by_cases hc : c = sep
    · simp [splitOn, hc, ih]
    · obtain ⟨piece, pieces, hpieces⟩ := List.exists_cons_of_ne_nil (splitOn_ne_nil sep rest)
      simp [splitOn, hc, ih, hpieces]

theorem cutLast_of_not_mem {text : List Char} (h : sep ∉ text) : cutLast sep text = none := by
  induction text with
  | nil => rfl
  | cons c rest ih =>
    rw [List.mem_cons, not_or] at h
    obtain ⟨hc, hrest⟩ := h
    rw [cutLast, ih hrest]
    exact if_neg (Ne.symm hc)

theorem cutLast_append (before : List Char) {after : List Char} (h : sep ∉ after) :
    cutLast sep (before ++ sep :: after) = some (before, after) := by
  induction before with
  | nil =>
    rw [List.nil_append, cutLast, cutLast_of_not_mem h]
    exact if_pos rfl
  | cons c rest ih => rw [List.cons_append, cutLast, ih]

/-- A text with a separator has a last one. -/
theorem exists_last_sep {text : List Char} (h : sep ∈ text) :
    ∃ before after, text = before ++ sep :: after ∧ sep ∉ after := by
  obtain ⟨after, before, htext, hafter⟩ := List.eq_append_cons_of_mem (List.mem_reverse.2 h)
  refine ⟨before.reverse, after.reverse, ?_, by simpa using hafter⟩
  rw [← List.reverse_reverse text, htext]
  simp

end Text

namespace Pointer

/-! ### Written tokens -/

theorem unescapeChars_escapeChars (token : List Char) :
    unescapeChars (escapeChars token) = token := by
  induction token with
  | nil => rfl
  | cons c rest ih =>
    rw [escapeChars]
    by_cases htilde : c = '~'
    · rw [if_pos htilde, unescapeChars, ih, htilde]
    · rw [if_neg htilde]
      by_cases hslash : c = '/'
      · rw [if_pos hslash, unescapeChars, ih, hslash]
      · rw [if_neg hslash]
        have hcons : ∀ text, unescapeChars (c :: text) = c :: unescapeChars text := by
          intro text
          rw [unescapeChars]
          · exact fun _ h => absurd h htilde
          · exact fun _ h => absurd h htilde
        rw [hcons, ih]

theorem slash_not_mem_escapeChars (token : List Char) : '/' ∉ escapeChars token := by
  induction token with
  | nil => exact List.not_mem_nil
  | cons c rest ih =>
    rw [escapeChars]
    split
    · simp [ih]
    · split
      · simp [ih]
      · next hslash =>
        rw [List.mem_cons, not_or]
        exact ⟨Ne.symm hslash, ih⟩

theorem escapeChars_of_plain {token : List Char} (h : ∀ c ∈ token, c ≠ '~' ∧ c ≠ '/') :
    escapeChars token = token := by
  induction token with
  | nil => rfl
  | cons c rest ih =>
    obtain ⟨htilde, hslash⟩ := h c List.mem_cons_self
    rw [escapeChars, if_neg htilde, if_neg hslash,
      ih fun d hd => h d (List.mem_cons_of_mem _ hd)]

/-- The characters that a token adds to a pointer. -/
def written (token : String) : List Char := '/' :: escapeChars token.toList

theorem toList_join (base token : String) :
    (join base token).toList = base.toList ++ written token := by
  rw [join, escape, String.toList_append, String.toList_append, String.toList_ofList,
    List.append_assoc, String.toList_ofList]
  rfl

theorem toList_foldl_join (base : String) (tokens : List String) :
    (tokens.foldl join base).toList = base.toList ++ tokens.flatMap written := by
  induction tokens generalizing base with
  | nil => rw [List.foldl_nil, List.flatMap_nil, List.append_nil]
  | cons token rest ih =>
    rw [List.foldl_cons, ih, toList_join, List.flatMap_cons, List.append_assoc]

theorem toList_ofTokens (tokens : List String) :
    (ofTokens tokens).toList = tokens.flatMap written := by
  rw [ofTokens, toList_foldl_join]
  rfl

theorem ofTokens_append_singleton (tokens : List String) (token : String) :
    ofTokens (tokens ++ [token]) = join (ofTokens tokens) token := by
  rw [ofTokens, ofTokens, List.foldl_append]
  rfl

theorem splitOn_written (tokens : List String) (token : String) :
    Text.splitOn '/' (escapeChars token.toList ++ tokens.flatMap written) =
      (token :: tokens).map fun t => escapeChars t.toList := by
  induction tokens generalizing token with
  | nil =>
    rw [List.flatMap_nil, List.append_nil]
    exact Text.splitOn_of_not_mem (slash_not_mem_escapeChars _)
  | cons next rest ih =>
    rw [List.flatMap_cons, written, List.cons_append,
      Text.splitOn_append (slash_not_mem_escapeChars _), ih]
    rfl

theorem tokens?_ofTokens (tokens : List String) : tokens? (ofTokens tokens) = some tokens := by
  rw [tokens?, toList_ofTokens]
  cases tokens with
  | nil => rfl
  | cons token rest =>
    rw [List.flatMap_cons, written, List.cons_append]
    change some _ = some _
    rw [splitOn_written, List.map_map]
    refine congrArg some ((List.map_congr_left fun t _ => ?_).trans (List.map_id _))
    rw [Function.comp_apply, unescapeChars_escapeChars, String.ofList_toList, id]

theorem ofTokens_injective {a b : List String} (h : ofTokens a = ofTokens b) : a = b :=
  Option.some.inj ((tokens?_ofTokens a).symm.trans ((congrArg tokens? h).trans (tokens?_ofTokens b)))

theorem join_injective {base key newKey : String} (h : join base key = join base newKey) :
    key = newKey := by
  have htexts : escapeChars key.toList = escapeChars newKey.toList := by
    have hlists := congrArg String.toList h
    rw [toList_join, toList_join, List.append_cancel_left_eq, written, written] at hlists
    exact (List.cons.inj hlists).2
  rw [← String.toList_inj, ← unescapeChars_escapeChars key.toList, htexts,
    unescapeChars_escapeChars]

/-- A key is not below another key of the same object, whatever slashes it has. -/
theorem not_below_join (base key newKey : String) :
    ¬ (join base key ++ "/").toList <+: (join base newKey).toList := by
  intro h
  rw [String.toList_append, toList_join, toList_join, List.append_assoc,
    List.prefix_append_right_inj, written, written, List.cons_append, List.cons_prefix_cons] at h
  exact slash_not_mem_escapeChars newKey.toList (h.2.subset (by simp))

theorem cutLast_join (base token : String) :
    Text.cutLast '/' (join base token).toList = some (base.toList, escapeChars token.toList) := by
  rw [toList_join, written]
  exact Text.cutLast_append _ (slash_not_mem_escapeChars _)

theorem splitLast?_join (tokens : List String) (token : String) :
    splitLast? (join (ofTokens tokens) token) = some (ofTokens tokens, token) := by
  rw [splitLast?, ← ofTokens_append_singleton, tokens?_ofTokens, ofTokens_append_singleton,
    cutLast_join, Option.map_some]
  dsimp only
  rw [String.ofList_toList, unescapeChars_escapeChars, String.ofList_toList]

/-! ### Where a pointer is cut -/

theorem tokens?_eq_some_nil {pointer : String} : tokens? pointer = some [] ↔ pointer = "" := by
  constructor
  · intro h
    rw [tokens?] at h
    split at h
    · next hnil => exact String.toList_eq_nil_iff.1 hnil
    · next rest _ => simp [Text.splitOn_ne_nil] at h
    · simp at h
  · rintro rfl
    rfl

/-- The tokens of a pointer are those of the text before its last slash and the one behind it. -/
theorem tokens?_cut {pointer : String} {before after : List Char} (hafter : '/' ∉ after)
    (hpointer : pointer.toList = before ++ '/' :: after) :
    tokens? pointer = (tokens? (String.ofList before)).map fun tokens =>
      tokens ++ [String.ofList (unescapeChars after)] := by
  cases before with
  | nil => simp [tokens?, hpointer, Text.splitOn_of_not_mem hafter]
  | cons c rest =>
    by_cases hc : c = '/'
    · simp [tokens?, hpointer, hc, Text.splitOn_append_sep, Text.splitOn_of_not_mem hafter]
    · simp [tokens?, hpointer, hc]

/-- Where a pointer is cut for the container and the last token is where its tokens end. -/
theorem splitLast?_cases {pointer : String} (h : pointer ≠ "") :
    tokens? pointer = none ∧ splitLast? pointer = none ∨
      ∃ container token tokens, splitLast? pointer = some (container, token) ∧
        tokens? container = some tokens ∧ tokens? pointer = some (tokens ++ [token]) := by
  cases htokens : tokens? pointer with
  | none => exact Or.inl ⟨rfl, by simp [splitLast?, htokens]⟩
  | some tokens =>
    have hslash : '/' ∈ pointer.toList := by
      rw [tokens?] at htokens
      split at htokens
      · next hnil => exact absurd (String.toList_eq_nil_iff.1 hnil) h
      · next rest heq => simp [heq]
      · simp at htokens
    obtain ⟨before, after, hpointer, hafter⟩ := Text.exists_last_sep hslash
    have hcut := tokens?_cut hafter hpointer
    rw [htokens] at hcut
    obtain ⟨init, hinit, htokens'⟩ := Option.map_eq_some_iff.1 hcut.symm
    refine Or.inr ⟨String.ofList before, String.ofList (unescapeChars after), init, ?_, hinit,
      by rw [htokens']⟩
    simp [splitLast?, htokens, hpointer, Text.cutLast_append before hafter]

/-! ### The order of pointers -/

/-- A pointer comes before those that lead further down. -/
theorem ofTokens_lt_append (tokens : List String) (token : String) (rest : List String) :
    ofTokens tokens < ofTokens (tokens ++ token :: rest) := by
  rw [String.lt_iff, toList_ofTokens, toList_ofTokens, List.flatMap_append, List.flatMap_cons,
    written, List.cons_append]
  have hnil : ([] : List Char) < '/' :: (escapeChars token.toList ++ rest.flatMap written) :=
    List.nil_lt_cons _ _
  have happend : tokens.flatMap written ++ [] < tokens.flatMap written ++ _ :=
    List.append_left_lt hnil
  rwa [List.append_nil] at happend

/-! ### Indices as tokens -/

theorem toList_toString (n : Nat) : (toString n).toList = Nat.toDigits 10 n := by
  rw [Nat.toString_eq_ofList_toDigits, String.toList_ofList]

theorem toString_injective {m n : Nat} (h : toString m = toString n) : m = n := by
  have hdigits : Nat.toDigits 10 m = Nat.toDigits 10 n := by
    rw [← toList_toString, ← toList_toString, h]
  rw [← Nat.ofDigitChars_ten_toDigits (n := m), hdigits, Nat.ofDigitChars_ten_toDigits]

theorem isDigit_of_mem {n : Nat} {c : Char} (h : c ∈ Nat.toDigits 10 n) :
    '0' ≤ c ∧ c ≤ '9' := by
  have hdigit := Nat.isDigit_of_mem_toDigits (by decide) (by decide) h
  rw [Char.isDigit, Bool.and_eq_true, decide_eq_true_eq, decide_eq_true_eq] at hdigit
  exact hdigit

theorem digitsValue?_toDigits {n : Nat} (h : n < UInt64.size) :
    digitsValue? (Nat.toDigits 10 n) = some n := by
  have hdigits : Nat.toDigits 10 n ≠ [] ∧
      (Nat.toDigits 10 n).all (fun c => '0' ≤ c && c ≤ '9') = true := by
    refine ⟨Nat.toDigits_ne_nil, List.all_eq_true.2 fun c hc => ?_⟩
    rw [Bool.and_eq_true, decide_eq_true_eq, decide_eq_true_eq]
    exact isDigit_of_mem hc
  have hvalue : (Nat.toDigits 10 n).foldl (fun n c => n * 10 + (c.toNat - 48)) 0 = n := by
    have hread := Nat.ofDigitChars_ten_toDigits (n := n)
    rw [Nat.ofDigitChars_eq_foldl] at hread
    simp only [Nat.mul_comm _ 10]
    exact hread
  rw [digitsValue?, if_pos hdigits]
  dsimp only
  rw [hvalue, if_pos h]

/-- The digits of a number that is not zero do not begin with a zero. -/
theorem head_toDigits_ne_zero {n : Nat} (h : 0 < n) (rest : List Char) :
    Nat.toDigits 10 n ≠ '0' :: rest := by
  induction n using Nat.strongRecOn generalizing rest with
  | ind n ih =>
    by_cases hn : n < 10
    · rw [Nat.toDigits_of_lt_base hn]
      intro heq
      have hzero := (List.cons.inj heq).1
      interval_cases n <;> revert hzero <;> decide
    · have hn' : 10 ≤ n := not_lt.1 hn
      rw [Nat.toDigits_of_base_le (by decide) hn']
      intro heq
      cases hdigits : Nat.toDigits 10 (n / 10) with
      | nil => exact Nat.toDigits_ne_nil hdigits
      | cons c others =>
        rw [hdigits, List.cons_append, List.cons.injEq] at heq
        refine ih (n / 10) (Nat.div_lt_self h (by decide)) (Nat.div_pos hn' (by decide)) others ?_
        rw [hdigits, heq.1]

theorem index?_toString {n : Nat} (h : n < UInt64.size) : index? (toString n) = some n := by
  rw [index?, toList_toString]
  split
  · next c rest heq =>
    rcases Nat.eq_zero_or_pos n with rfl | hpos
    · rw [Nat.toDigits_zero] at heq
      cases heq
    · exact absurd heq (head_toDigits_ne_zero hpos _)
  · exact digitsValue?_toDigits h

theorem spelledNumber?_toString {n : Nat} (h : n < UInt64.size) :
    spelledNumber? (toString n) = some n := by
  rw [spelledNumber?, toList_toString]
  split
  · next rest heq =>
    have hplus : '+' ∈ Nat.toDigits 10 n := heq ▸ List.mem_cons_self
    exact absurd (isDigit_of_mem hplus).1 (by decide)
  · exact digitsValue?_toDigits h

theorem escapeChars_toString (n : Nat) : escapeChars (toString n).toList = (toString n).toList := by
  refine escapeChars_of_plain fun c hc => ?_
  rw [toList_toString] at hc
  obtain ⟨hlow, hhigh⟩ := isDigit_of_mem hc
  refine ⟨?_, ?_⟩
  · rintro rfl
    exact absurd hhigh (by decide)
  · rintro rfl
    exact absurd hlow (by decide)

/-- The number that some digits stand for. -/
def valueOf (digits : List Char) : Nat := digits.foldl (fun n c => n * 10 + (c.toNat - 48)) 0

theorem digitChar_of_isDigit {c : Char} (h : '0' ≤ c ∧ c ≤ '9') :
    c.toNat - 48 < 10 ∧ (c.toNat - 48).digitChar = c := by
  obtain ⟨hlow, hhigh⟩ := h
  have hlow' : 48 ≤ c.toNat := hlow
  have hhigh' : c.toNat ≤ 57 := hhigh
  have hchar : ∀ n ≤ 57, 48 ≤ n → (n - 48).digitChar = Char.ofNat n := by decide
  exact ⟨by omega, (hchar c.toNat hhigh' hlow').trans c.ofNat_toNat⟩

/-- Digits are those of the number they stand for, unless they begin with a needless zero. -/
theorem toDigits_valueOf (digits : List Char) (hne : digits ≠ [])
    (hdigits : ∀ c ∈ digits, '0' ≤ c ∧ c ≤ '9') (hzero : ∀ rest, digits = '0' :: rest → rest = []) :
    Nat.toDigits 10 (valueOf digits) = digits ∧ (digits ≠ ['0'] → 0 < valueOf digits) := by
  induction digits using List.reverseRecOn with
  | nil => exact absurd rfl hne
  | append_singleton init c ih =>
    obtain ⟨hlt, hchar⟩ := digitChar_of_isDigit (hdigits c (List.mem_append_right _
      List.mem_cons_self))
    have hvalue : valueOf (init ++ [c]) = 10 * valueOf init + (c.toNat - 48) := by
      rw [valueOf, List.foldl_append, ← valueOf, Nat.mul_comm 10]
      rfl
    rw [hvalue]
    rcases eq_or_ne init [] with rfl | hinit
    · have hempty : valueOf [] = 0 := rfl
      rw [hempty, Nat.mul_zero, Nat.zero_add, Nat.toDigits_of_lt_base hlt, hchar]
      refine ⟨rfl, fun hne' => Nat.pos_of_ne_zero fun hzero' => hne' ?_⟩
      rw [← hchar, hzero']
      rfl
    · have hinit0 : init ≠ ['0'] := by
        rintro rfl
        exact absurd (hzero [c] rfl) (List.cons_ne_nil _ _)
      obtain ⟨hread, hpos⟩ := ih hinit (fun d hd => hdigits d (List.mem_append_left _ hd))
        (fun rest heq => by
          have happend : init ++ [c] = '0' :: (rest ++ [c]) := by rw [heq, List.cons_append]
          exact absurd (hzero _ happend) (List.append_ne_nil_of_right_ne_nil _
            (List.cons_ne_nil _ _)))
      have hpos' := hpos hinit0
      have happend := Nat.toDigits_append_toDigits (by decide : 1 < 10) hpos' hlt
      rw [hread, Nat.toDigits_of_lt_base hlt, hchar] at happend
      exact ⟨happend.symm, fun _ => by omega⟩

/-- An index is denoted by its decimal digits and by nothing else. -/
theorem index?_eq_some_iff {token : String} {n : Nat} :
    index? token = some n ↔ token = toString n ∧ n < UInt64.size := by
  constructor
  · intro h
    have hdigits : digitsValue? token.toList = some n ∧
        ∀ rest, token.toList = '0' :: rest → rest = [] := by
      rw [index?] at h
      split at h
      · cases h
      · next hzero =>
        refine ⟨h, fun rest heq => ?_⟩
        cases rest with
        | nil => rfl
        | cons c others => exact absurd heq (hzero c others)
    obtain ⟨hvalue, hzero⟩ := hdigits
    rw [digitsValue?] at hvalue
    split at hvalue
    · next hall =>
      dsimp only at hvalue
      split at hvalue
      · next hlt =>
        obtain ⟨hne, hall⟩ := hall
        have hchars : ∀ c ∈ token.toList, '0' ≤ c ∧ c ≤ '9' := by
          intro c hc
          have hdigit := List.all_eq_true.1 hall c hc
          rwa [Bool.and_eq_true, decide_eq_true_eq, decide_eq_true_eq] at hdigit
        have hread := (toDigits_valueOf token.toList hne hchars hzero).1
        obtain rfl := Option.some.inj hvalue
        refine ⟨?_, hlt⟩
        rw [Nat.toString_eq_ofList_toDigits]
        exact (String.ofList_toList.symm.trans (congrArg String.ofList hread.symm))
      · cases hvalue
    · cases hvalue
  · rintro ⟨rfl, hlt⟩
    exact index?_toString hlt

end Pointer

end ResourceCatalog
