import Mathlib
import ResourceCatalog.Text.Split

/-!
# Texts as bytes

The UTF-8 form of a text has one to four bytes for each character. Texts are compared by code point,
and this is the order of their bytes: the bytes of a character are the digits of its code point to
the base 64, and the first byte tells how many follow.
-/

namespace ResourceCatalog.Text

/-- The bytes of the UTF-8 form of a text. -/
def bytes (text : String) : List UInt8 := text.toByteArray.data.toList

theorem bytes_eq_flatMap (text : String) :
    bytes text = text.toList.flatMap String.utf8EncodeChar := by
  rw [bytes, ← String.utf8Encode_toList, List.utf8Encode, List.toList_data_toByteArray]

/-- Whatever follows, a character of a smaller code point comes first among the bytes too: it has
fewer bytes and a smaller first one, or as many bytes with the same order. -/
theorem utf8EncodeChar_append_lt {c d : Char} (h : c < d) (x y : List UInt8) :
    String.utf8EncodeChar c ++ x < String.utf8EncodeChar d ++ y := by
  have hlt : c.val.toNat < d.val.toNat := h
  have hmax : d.val.toNat < 0x110000 := by
    rcases d.valid with hvalid | ⟨_, hvalid⟩
    · exact hvalid.trans (by decide)
    · exact hvalid
  rw [String.utf8EncodeChar, String.utf8EncodeChar]
  generalize c.val.toNat = m at hlt ⊢
  generalize d.val.toNat = n at hlt hmax ⊢
  -- the bytes are the digits of the code point to the base 64
  have hdigits : ∀ k : Nat, k / 4096 = k / 64 / 64 ∧ k / 262144 = k / 64 / 64 / 64 :=
    fun k => ⟨(Nat.div_div_eq_div_mul k 64 64).symm, by omega⟩
  rw [(hdigits m).1, (hdigits m).2, (hdigits n).1, (hdigits n).2]
  split_ifs <;>
    simp only [List.cons_append, List.cons_lt_cons_iff, UInt8.lt_iff_toNat_lt,
      ← UInt8.toNat_inj, UInt8.toNat_ofNat'] <;>
    omega

theorem flatMap_utf8EncodeChar_lt {a b : List Char} (h : a < b) :
    a.flatMap String.utf8EncodeChar < b.flatMap String.utf8EncodeChar := by
  induction a generalizing b with
  | nil =>
    cases b with
    | nil => exact absurd h (List.not_lt_nil _)
    | cons d rest =>
      cases hd : (d :: rest).flatMap String.utf8EncodeChar with
      | nil =>
        have hnil := List.flatMap_eq_nil_iff.1 hd d List.mem_cons_self
        exact absurd hnil String.utf8EncodeChar_ne_nil
      | cons byte bytes => exact List.nil_lt_cons _ _
  | cons c cs ih =>
    cases b with
    | nil => exact absurd h (List.not_lt_nil _)
    | cons d ds =>
      rw [List.flatMap_cons, List.flatMap_cons]
      rcases List.cons_lt_cons_iff.1 h with hlt | ⟨rfl, hrest⟩
      · exact utf8EncodeChar_append_lt hlt _ _
      · exact List.append_left_lt (ih hrest)

/-- The order of texts is the order of their bytes. -/
theorem bytes_lt_iff {a b : String} : bytes a < bytes b ↔ a < b := by
  have hmono : ∀ {a b : String}, a < b → bytes a < bytes b := fun h => by
    rw [bytes_eq_flatMap, bytes_eq_flatMap]
    exact flatMap_utf8EncodeChar_lt (String.lt_iff.1 h)
  refine ⟨fun h => ?_, hmono⟩
  rcases lt_trichotomy a b with hlt | rfl | hgt
  · exact hlt
  · exact absurd h (List.lt_irrefl _)
  · exact absurd h (List.lt_asymm (hmono hgt))

/-- Texts with one beginning are neighbours: what stands between the beginning itself and a text
that has it has it too. -/
theorem prefix_of_not_lt {start a b : List Char} (hlow : ¬ a < start) (hab : ¬ b < a)
    (h : start <+: b) : start <+: a := by
  induction start generalizing a b with
  | nil => exact List.nil_prefix
  | cons c start ih =>
    obtain ⟨behind, rfl⟩ := h
    cases a with
    | nil => exact absurd (List.nil_lt_cons _ _) hlow
    | cons d a =>
      rw [List.cons_append, List.cons_lt_cons_iff, not_or, not_and] at hab
      rw [List.cons_lt_cons_iff, not_or, not_and] at hlow
      obtain rfl : c = d := le_antisymm (not_lt.1 hlow.1) (not_lt.1 hab.1)
      exact (List.prefix_cons_inj c).2 (ih (hlow.2 rfl) (hab.2 rfl) ⟨behind, rfl⟩)

end ResourceCatalog.Text
