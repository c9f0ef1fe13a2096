import Mathlib
import ResourceCatalog.Proofs.Patch.Cursors
import ResourceCatalog.Proofs.Patch.Outcome

/-!
# What a correction says

A correction says what was at its place and what is there afterwards, and these two are made up
from the value at the cursor, while its patch works on the document through a pointer. Both agree:
for all that can be asked for at a visit of a pass, whatever the keys and the indices, the patch
alone makes of the document what the correction says, and nothing besides.
-/

namespace ResourceCatalog

/-! ### What may be asked for -/

/-- The corrections that can be asked for at a place: those of any value, but not the removal of the
whole document, and those of an object or an array with its own members or items. -/
inductive Cursor.Offers (c : Cursor) : Correction → Prop
  | replaceValue (value : Json) (reason : String) : c.Offers (c.replaceValue value reason)
  | remove (h : c.isRoot = false) (reason : String) : c.Offers (c.remove reason)
  | removeProperty {members : Members} (h : c.value = .obj members) (key reason : String) :
      c.Offers (c.removeProperty members key reason)
  | renameProperty {members : Members} (h : c.value = .obj members) (key newKey reason : String) :
      c.Offers (c.renameProperty members key newKey reason)
  | addProperty {members : Members} (h : c.value = .obj members) (key : String) (value : Json)
      (reason : String) : c.Offers (c.addProperty members key value reason)
  | replaceProperty {members : Members} (h : c.value = .obj members) {key : String}
      (hthere : Keyed.contains members key = true) (value : Json) (reason : String) :
      c.Offers (c.replaceProperty members key value reason)
  | removeItem {items : List Json} (h : c.value = .arr items) (index : Nat) (reason : String) :
      c.Offers (c.removeItem items index reason)

/-! ### The truth of a correction -/

/-- One document is another one with a value put in the place of the one at some tokens. -/
structure Json.Replaced (document edited : Json) (tokens : List String) (after : Json) : Prop where
  edited_eq : document.replace? after tokens = some edited
  there : edited.at? tokens = some after
  elsewhere : ∀ others, Apart tokens others → edited.at? others = document.at? others

/-- One document is another one without the member or the item of a container. The other members
are what and where they were, and the items behind a deleted one move up. -/
structure Json.Deleted (document smaller : Json) (container : List String) (last : String) :
    Prop where
  smaller_eq : document.delete? (container ++ [last]) = some smaller
  outside : ∀ others, Apart container others → smaller.at? others = document.at? others
  members : ∀ members, document.at? container = some (.obj members) →
    smaller.at? container = some (.obj (Keyed.erase last members)) ∧
      ∀ others, Apart (container ++ [last]) others → smaller.at? others = document.at? others
  items : ∀ items, document.at? container = some (.arr items) →
    ∃ i, last = toString i ∧ smaller.at? container = some (.arr (items.eraseIdx i))

/-- A correction is true of a document: what it says was there is there, and its patch alone makes
of the document what the correction says. A value after the correction stands in the place of the
one before, and without one the place is deleted. A patch that is refused changes nothing. -/
structure Correction.TrueOf (document : Json) (x : Correction) : Prop where
  before : document.find? x.place = some x.before
  refused : (x.patch.apply document).error?.isSome → (x.patch.apply document).document = document
  replaced : ∀ after, x.after? = some after → ∃ tokens, Pointer.tokens? x.place = some tokens ∧
    document.Replaced (x.patch.apply document).document tokens after
  deleted : x.after? = none → ∃ container last,
    Pointer.tokens? x.place = some (container ++ [last]) ∧
      document.Deleted (x.patch.apply document).document container last

variable {document before after : Json} {tokens : List String}

/-- The patch of a correction puts a value at a place, or it is refused where it would put the value
there that is there. -/
structure Patch.Puts (patch : Patch) (document : Json) (tokens : List String) (after : Json) :
    Prop where
  document_eq : (patch.apply document).document = document.mapAt (fun _ => after) tokens
  refused : (patch.apply document).error?.isSome → (patch.apply document).document = document

theorem Correction.trueOf_of_puts {x : Correction} (hplace : x.place = Pointer.ofTokens tokens)
    (hafter : x.after? = some after) (hat : document.at? tokens = some x.before)
    (hputs : x.patch.Puts document tokens after) : x.TrueOf document where
  before := by simp [hplace, Json.find?, Pointer.tokens?_ofTokens, hat]
  refused := hputs.refused
  replaced other hother := by
    obtain rfl : after = other := Option.some.inj (hafter.symm.trans hother)
    refine ⟨tokens, by rw [hplace, Pointer.tokens?_ofTokens], ?_, ?_, fun others hapart => ?_⟩
    · rw [Json.replace?_eq, hat, hputs.document_eq, Option.map_some]
    · rw [hputs.document_eq, Json.at?_mapAt hat]
    · rw [hputs.document_eq, Json.at?_mapAt_of_apart hapart]
  deleted hnone := by simp [hafter] at hnone

/-- An edit in a container puts what becomes of the container, and one that is refused should have
left the container as it is. -/
theorem Patch.puts_of_outcome {patch : Patch} (result : Option Json)
    (hformed : document.WellFormed) (hat : document.at? tokens = some before) (hafter : result.getD before = after)
    (h : patch.outcome document = orLeave document
      (result.map fun changed => document.mapAt (fun _ => changed) tokens)) :
    patch.Puts document tokens after := by
  have hends := endsIn_apply patch document
  rw [h] at hends
  cases result with
  | some changed =>
    obtain rfl : changed = after := by simpa using hafter
    have happlied : patch.apply document = ⟨document.mapAt (fun _ => changed) tokens, none⟩ := hends
    constructor <;> simp [happlied]
  | none =>
    obtain rfl : before = after := by simpa using hafter
    refine ⟨?_, fun _ => hends.1⟩
    rw [hends.1, hformed.mapAt_self hat]

/-! ### Edits in a container -/

section Containers

variable {base key : String} {container : Json} {members : Members}

theorem Patch.puts_whole (hbase : base = Pointer.ofTokens tokens)
    (hat : document.at? tokens = some before) (after : Json) :
    (Patch.replace base after).Puts document tokens after := by
  have hends := endsIn_apply (.replace base after) document
  rw [outcome, hbase, Pointer.tokens?_ofTokens, Option.bind_some, Json.replace?_eq, hat,
    ← hbase] at hends
  have happlied : (Patch.replace base after).apply document =
    ⟨document.mapAt (fun _ => after) tokens, none⟩ := hends
  constructor <;> simp [happlied]

theorem Json.bind_editAt?_join (edit : String → Json → Option Json) (whole : Json)
    (hat : document.at? tokens = some container) (key : String) :
    (Pointer.tokens? (Pointer.join (Pointer.ofTokens tokens) key)).bind
        (document.editAt? edit whole) =
      (edit key container).map fun changed => document.mapAt (fun _ => changed) tokens := by
  rw [← Pointer.ofTokens_append_singleton, Pointer.tokens?_ofTokens, Option.bind_some,
    Json.editAt?_append_singleton, hat, Option.bind_some]

/-- An edit one token below a place puts what becomes of the value at the place. -/
theorem Patch.puts_below {patch : Patch} {edit : String → Json → Option Json} {whole : Json}
    (hformed : document.WellFormed) (hbase : base = Pointer.ofTokens tokens)
    (hat : document.at? tokens = some before)
    (houtcome : patch.outcome document = orLeave document
      ((Pointer.tokens? (Pointer.join base key)).bind (document.editAt? edit whole)))
    (hafter : (edit key before).getD before = after) : patch.Puts document tokens after := by
  apply puts_of_outcome _ hformed hat hafter
  rw [houtcome, hbase, Json.bind_editAt?_join edit whole hat]

/-- The members with one of them under another key, if it is there. -/
def Keyed.rename {α : Type} (key newKey : String) (entries : Keyed α) : Keyed α :=
  match Keyed.get? key entries with
  | some value => Keyed.insert newKey value (Keyed.erase key entries)
  | none => entries

theorem Cursor.after?_renameProperty (c : Cursor) (members : Members) (key newKey reason : String) :
    (c.renameProperty members key newKey reason).after? =
      some (.obj (Keyed.rename key newKey members)) := by
  cases h : Keyed.get? key members <;> simp [renameProperty, request, Keyed.rename, h]

/-- A move inside of an object renames the member. -/
theorem Patch.puts_move (hformed : document.WellFormed) (hbase : base = Pointer.ofTokens tokens)
    (hat : document.at? tokens = some (.obj members)) (key newKey : String) :
    (Patch.move (Pointer.join base key) (Pointer.join base newKey)).Puts document tokens
      (.obj (Keyed.rename key newKey members)) := by
  subst hbase
  have hascending := (Json.wellFormed_obj.1 (hformed.at? hat)).1
  have hsource : (Pointer.tokens? (Pointer.join (Pointer.ofTokens tokens) key)).bind document.at? =
      Keyed.get? key members := by
    rw [← Pointer.ofTokens_append_singleton, Pointer.tokens?_ofTokens, Option.bind_some,
      Json.at?_append, hat]
    simp [Json.at?, Json.child?]
  cases hkey : Keyed.get? key members with
  | none =>
    rw [hkey] at hsource
    apply puts_of_outcome none hformed hat (by simp [Keyed.rename, hkey])
    simp [outcome, hsource, orLeave]
  | some value =>
    rw [hkey] at hsource
    apply puts_of_outcome (some (.obj (Keyed.rename key newKey members))) hformed hat rfl
    by_cases hsame : key = newKey
    · subst hsame
      have hnothing : Keyed.rename key key members = members := by
        simp [Keyed.rename, hkey, hascending.insert_erase hkey]
      simp [outcome, hsource, hnothing, hformed.mapAt_self hat]
    · have hne : Pointer.join (Pointer.ofTokens tokens) key ≠
          Pointer.join (Pointer.ofTokens tokens) newKey :=
        fun h => hsame (Pointer.join_injective h)
      have hthere : Keyed.contains members key = true := by simp [Keyed.contains, hkey]
      have hdelete := Json.bind_editAt?_join Json.take? .null hat key
      rw [Json.take?, if_pos hthere, Option.map_some] at hdelete
      have hleft : (document.mapAt (fun _ => .obj (Keyed.erase key members)) tokens).at? tokens =
          some (.obj (Keyed.erase key members)) := Json.at?_mapAt hat
      have hinsert := Json.bind_editAt?_join (Json.put? value) value hleft newKey
      rw [Json.put?, Option.map_some, Json.mapAt_mapAt] at hinsert
      rw [outcome, if_neg hne, if_neg (Pointer.not_below_join _ key newKey), hsource]
      simp only [Json.delete?, Json.insert?, hdelete, hinsert]
      simp [orLeave, Keyed.rename, hkey]

end Containers

/-! ### Deletions -/

/-- A deletion is the same as a change of the container. -/
theorem Json.exists_of_delete? {container : List String} {last : String} {smaller : Json}
    (h : document.delete? (container ++ [last]) = some smaller) : ∃ found changed,
      document.at? container = some found ∧ take? last found = some changed ∧
        smaller = document.mapAt (fun _ => changed) container := by
  rw [delete?, editAt?_append_singleton] at h
  obtain ⟨changed, hchanged, rfl⟩ := Option.map_eq_some_iff.1 h
  obtain ⟨found, hfound, htake⟩ := Option.bind_eq_some_iff.1 hchanged
  exact ⟨found, changed, hfound, htake, rfl⟩

theorem Json.eq_erase_of_take? {members : Members} {token : String} {changed : Json}
    (h : take? token (.obj members) = some changed) :
    changed = .obj (Keyed.erase token members) := by
  rw [take?] at h
  split at h
  · exact (Option.some.inj h).symm
  · simp at h

theorem Json.exists_eraseIdx_of_take? {items : List Json} {token : String} {changed : Json}
    (h : take? token (.arr items) = some changed) :
    ∃ i, token = toString i ∧ changed = .arr (items.eraseIdx i) := by
  obtain ⟨i, hi, hitem⟩ := Option.bind_eq_some_iff.1 h
  refine ⟨i, (Pointer.index?_eq_some_iff.1 hi).1, ?_⟩
  split at hitem
  · exact (Option.some.inj hitem).symm
  · simp at hitem

/-- An object without a member is not told from the object at places apart from the member. -/
theorem Json.at?_mapAt_erase {container others : List String} {last : String} {members : Members}
    (hat : document.at? container = some (.obj members))
    (hapart : Apart (container ++ [last]) others) :
    (document.mapAt (fun _ => .obj (Keyed.erase last members)) container).at? others =
      document.at? others := by
  by_cases hbeside : Apart container others
  · exact at?_mapAt_of_apart hbeside _ document
  · have hinside : container <+: others := by
      by_contra houtside
      exact hbeside ⟨houtside, fun h => hapart.2 (h.trans (List.prefix_append container [last]))⟩
    obtain ⟨rest, rfl⟩ := hinside
    have hrest : Apart [last] rest := by
      simpa [Apart, List.prefix_append_right_inj] using hapart
    rw [at?_mapAt_append hat, at?_append, hat, Option.bind_some]
    cases rest with
    | nil => exact absurd List.nil_prefix hrest.2
    | cons other more =>
      have hne := ne_of_apart_singleton hrest
      rw [at?, at?, child?, child?, Keyed.get?_erase_of_ne hne.symm]

theorem Json.deleted_of_delete? {container : List String} {last : String} {smaller : Json}
    (h : document.delete? (container ++ [last]) = some smaller) :
    document.Deleted smaller container last := by
  obtain ⟨found, changed, hfound, htake, rfl⟩ := exists_of_delete? h
  constructor
  · exact h
  · intro others hapart
    exact at?_mapAt_of_apart hapart _ document
  · intro members hmembers
    obtain rfl : .obj members = found := Option.some.inj (hmembers.symm.trans hfound)
    obtain rfl := eq_erase_of_take? htake
    exact ⟨at?_mapAt hfound, fun others hapart => at?_mapAt_erase hfound hapart⟩
  · intro items hitems
    obtain rfl : .arr items = found := Option.some.inj (hitems.symm.trans hfound)
    obtain ⟨i, hlast, rfl⟩ := exists_eraseIdx_of_take? htake
    exact ⟨i, hlast, at?_mapAt hfound⟩

theorem Correction.trueOf_of_deletes {x : Correction} {container : List String} {last : String}
    (hplace : x.place = Pointer.ofTokens (container ++ [last])) (hafter : x.after? = none)
    (hat : document.at? (container ++ [last]) = some x.before)
    (hpatch : x.patch = .remove (Pointer.ofTokens (container ++ [last]))) : x.TrueOf document := by
  have htokens := Pointer.tokens?_ofTokens (container ++ [last])
  have hthere := Json.isSome_delete? document (container ++ [last])
  rw [hat] at hthere
  obtain ⟨smaller, hsmaller⟩ := Option.isSome_iff_exists.1 hthere
  have happlied : x.patch.apply document = ⟨smaller, none⟩ := by
    have hends := Patch.endsIn_apply x.patch document
    rw [hpatch, Patch.outcome, htokens, Option.bind_some, hsmaller] at hends
    rw [hpatch]
    exact hends
  constructor
  · rw [hplace, Json.find?, htokens, Option.bind_some, hat]
  · simp [happlied]
  · simp [hafter]
  · intro _
    rw [happlied]
    exact ⟨container, last, by rw [hplace, htokens], Json.deleted_of_delete? hsmaller⟩

/-! ### What is offered is true -/

theorem Json.take?_getD_items {items : List Json} (hindexable : items.length ≤ UInt64.size)
    (index : Nat) :
    (Json.take? (toString index) (.arr items)).getD (.arr items) = .arr (items.eraseIdx index) := by
  by_cases hlt : index < items.length
  · rw [take?, Pointer.index?_toString (hlt.trans_le hindexable), Option.bind_some, if_pos hlt,
      Option.getD_some]
  · have hnone : take? (toString index) (.arr items) = none := by
      rw [take?, Option.bind_eq_none_iff]
      intro i hi
      obtain rfl := Pointer.toString_injective (Pointer.index?_eq_some_iff.1 hi).1
      exact if_neg hlt
    rw [hnone, Option.getD_none, List.eraseIdx_of_length_le (not_lt.1 hlt)]

theorem Json.take?_getD_members (key : String) (members : Members) :
    (Json.take? key (.obj members)).getD (.obj members) = .obj (Keyed.erase key members) := by
  rw [take?]
  split
  · rfl
  · next habsent =>
    rw [Keyed.contains_iff_mem_keys] at habsent
    rw [Option.getD_none, Keyed.erase_of_absent habsent]

theorem Json.exchange?_getD_members {key : String} {members : Members} (value : Json)
    (hthere : Keyed.contains members key = true) :
    (Json.exchange? value key (.obj members)).getD (.obj members) =
      .obj (Keyed.insert key value members) := by
  obtain ⟨old, hold⟩ := Option.isSome_iff_exists.1 hthere
  simp [exchange?, child?, hold, setChild]

/-- Whatever is asked for at a cursor that shows a value of the document is true of the document. -/
theorem Cursor.Offers.trueOf {c : Cursor} {x : Correction} (h : c.Offers x)
    (hformed : document.WellFormed) (hindexable : document.Indexable)
    (hat : document.at? c.trail.tokens = some c.value) : x.TrueOf document := by
  obtain ⟨subject, root, value, trail⟩ := c
  dsimp only at hat
  have hpointer : trail.pointer = Pointer.ofTokens trail.tokens := trail.pointer_eq_ofTokens
  cases h with
  | replaceValue after reason =>
    exact Correction.trueOf_of_puts hpointer rfl hat (Patch.puts_whole hpointer hat after)
  | remove hroot reason =>
    cases trail with
    | nil => simp [Cursor.isRoot] at hroot
    | cons step rest =>
      rw [Trail.tokens_cons] at hpointer hat
      exact Correction.trueOf_of_deletes hpointer rfl hat (congrArg Patch.remove hpointer)
  | @removeProperty members hvalue key reason =>
    obtain rfl : value = .obj members := hvalue
    have hafter := Json.take?_getD_members key members
    exact Correction.trueOf_of_puts hpointer rfl hat
      (Patch.puts_below hformed hpointer hat rfl hafter)
  | @renameProperty members hvalue key newKey reason =>
    obtain rfl : value = .obj members := hvalue
    exact Correction.trueOf_of_puts hpointer (Cursor.after?_renameProperty ..) hat
      (Patch.puts_move hformed hpointer hat key newKey)
  | @addProperty members hvalue key put reason =>
    obtain rfl : value = .obj members := hvalue
    have hafter : (Json.put? put key (.obj members)).getD (.obj members) =
      .obj (Keyed.insert key put members) := rfl
    exact Correction.trueOf_of_puts hpointer rfl hat
      (Patch.puts_below hformed hpointer hat rfl hafter)
  | @replaceProperty members hvalue key hthere put reason =>
    obtain rfl : value = .obj members := hvalue
    have hafter := Json.exchange?_getD_members put hthere
    exact Correction.trueOf_of_puts hpointer rfl hat
      (Patch.puts_below hformed hpointer hat rfl hafter)
  | @removeItem items hvalue index reason =>
    obtain rfl : value = .arr items := hvalue
    have hafter := Json.take?_getD_items (Json.indexable_arr.1 (hindexable.at? hat)).1 index
    exact Correction.trueOf_of_puts hpointer rfl hat
      (Patch.puts_below hformed hpointer hat rfl hafter)

/-- Whatever is asked for at a visit of a pass is true of the document. -/
theorem trueOf_of_offers (rule : Rule) (subject : String) (hformed : document.WellFormed)
    (hindexable : document.Indexable) {c : Cursor} (hc : c ∈ visits rule subject document)
    {x : Correction} (hx : c.Offers x) : x.TrueOf document := by
  have hplace := (walked_visits rule subject hformed).sublist.subset hc
  exact hx.trueOf hformed hindexable (at?_of_mem_places hformed hindexable hplace)

/-- An object with a slash in a key. -/
def slashed : Json := .obj [("a", .obj [("x/y", .nat 1)])]

def atSlashed : Cursor :=
  ⟨"Test", slashed, .obj [("x/y", .nat 1)], [⟨slashed, .property "a"⟩]⟩

/-- Puts a tilde in the place of the key with a slash. -/
def withoutSlash : Correction := atSlashed.renameProperty [("x/y", .nat 1)] "x/y" "~" "no slashes"

theorem trueOf_of_offers_withoutSlash :
    atSlashed ∈ visits (Rule.all []) "Test" slashed ∧ withoutSlash.TrueOf slashed ∧
      withoutSlash.patch = .move "/a/x~1y" "/a/~0" ∧
      withoutSlash.after? = some (.obj [("~", .nat 1)]) := by
  have hformed : slashed.WellFormed := by
    simp [slashed, Json.WellFormed, Json.MembersWellFormed, Keyed.Ascending, Json.nat]
  have hindexable : slashed.Indexable := by
    simp [slashed, Json.Indexable, Json.MembersIndexable, Json.nat]
  have hc : atSlashed ∈ visits (Rule.all []) "Test" slashed := by
    simp [visits, visitsFrom, visitsOfMembers, Rule.all, removes, slashed, atSlashed]
  have hpatch : withoutSlash.patch = .move "/a/x~1y" "/a/~0" := by
    simp only [withoutSlash, Cursor.renameProperty, Cursor.request]
    cbv
  have hx : atSlashed.Offers withoutSlash := .renameProperty rfl _ _ _
  refine ⟨hc, trueOf_of_offers (Rule.all []) "Test" hformed hindexable hc hx, hpatch, ?_⟩
  rw [withoutSlash, Cursor.after?_renameProperty]
  cbv

end ResourceCatalog
