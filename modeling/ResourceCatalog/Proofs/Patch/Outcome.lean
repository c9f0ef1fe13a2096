import Mathlib
import ResourceCatalog.Patch.Apply
import ResourceCatalog.Proofs.Json.Places

/-!
# Patches along tokens

A patch addresses its places in three ways: it cuts a pointer at the last slash, it looks a pointer
up, and it changes what a pointer leads to. All of them come to the same place, the one at the end
of the tokens of the pointer. So what a patch does is told by recursions along tokens, with no text
of a pointer in them but the one that a move compares: an insertion, a deletion and a replacement in
the container of the last token, and for a move a deletion and then an insertion. A refused patch
leaves the document as it was, unless it is a move that had already taken its value away.
-/

namespace ResourceCatalog

/-! ### The three edits -/

namespace Json

/-- Puts a value into a container: under a key, in front of the item at an index, or behind the last
item for the token `-`. -/
def put? (value : Json) (token : String) : Json → Option Json
  | .obj members => some (.obj (Keyed.insert token value members))
  | .arr items =>
    if token = "-" then some (.arr (items ++ [value]))
    else (Pointer.index? token).bind fun i =>
      if i ≤ items.length then some (.arr (items.insertIdx i value)) else none
  | _ => none

/-- Takes the member or the item at a token out of a container. -/
def take? (token : String) : Json → Option Json
  | .obj members =>
    if Keyed.contains members token then some (.obj (Keyed.erase token members)) else none
  | .arr items => (Pointer.index? token).bind fun i =>
      if i < items.length then some (.arr (items.eraseIdx i)) else none
  | _ => none

/-- Puts a value in the place of the member or the item at a token. -/
def exchange? (value : Json) (token : String) (container : Json) : Option Json :=
  (container.child? token).map fun _ => container.setChild token value

/-- Goes down along tokens to the container of the last one and edits it there. No tokens mean the
whole document, which then becomes the one given for it. -/
def editAt? (value : Json) (edit : String → Json → Option Json) (whole : Json) :
    List String → Option Json
  | [] => some whole
  | [token] => edit token value
  | token :: next :: rest =>
    (value.child? token).bind fun child =>
      (child.editAt? edit whole (next :: rest)).map (value.setChild token)

/-- The document with a value inserted at some tokens. -/
def insert? (document value : Json) : List String → Option Json :=
  document.editAt? (put? value) value

/-- The document without the value at some tokens. For the whole document `null` is left. -/
def delete? (document : Json) : List String → Option Json := document.editAt? take? .null

/-- The document with another value at some tokens. -/
def replace? (document value : Json) : List String → Option Json :=
  document.editAt? (exchange? value) value

variable {edit : String → Json → Option Json} {whole : Json}

/-- An edit in the container at some tokens puts what becomes of the container in its place. -/
theorem editAt?_append_singleton (tokens : List String) (token : String) (value : Json) :
    value.editAt? edit whole (tokens ++ [token]) =
      ((value.at? tokens).bind (edit token)).map fun changed =>
        value.mapAt (fun _ => changed) tokens := by
  induction tokens generalizing value with
  | nil => simp [editAt?, at?, mapAt]
  | cons first rest ih =>
    obtain ⟨next, others, hrest⟩ := List.exists_cons_of_ne_nil
      (List.append_ne_nil_of_right_ne_nil rest (List.cons_ne_nil token []))
    rw [List.cons_append, hrest, editAt?, ← hrest, at?]
    cases hchild : value.child? first with
    | none => simp
    | some child =>
      simp only [Option.bind_some, ih, Option.map_map]
      refine congrArg (fun change => Option.map change _) (funext fun changed => ?_)
      simp [mapAt, hchild]

theorem replace?_eq (document value : Json) (tokens : List String) :
    document.replace? value tokens =
      (document.at? tokens).map fun _ => document.mapAt (fun _ => value) tokens := by
  induction tokens generalizing document with
  | nil => rfl
  | cons token rest ih =>
    cases hchild : document.child? token with
    | none => cases rest <;> simp [replace?, editAt?, exchange?, at?, hchild]
    | some child =>
      cases rest with
      | nil => simp [replace?, editAt?, exchange?, at?, mapAt, hchild]
      | cons next others =>
        have hrest := ih child
        rw [replace?] at hrest ⊢
        rw [editAt?, hchild, Option.bind_some, hrest]
        simp [at?, mapAt, hchild, Option.map_map, Function.comp_def]

/-- A container gives up what it holds and nothing else. -/
theorem isSome_take? (token : String) (container : Json) :
    (take? token container).isSome = (container.child? token).isSome := by
  cases container with
  | obj members =>
    cases h : Keyed.contains members token <;> simp_all [take?, child?, Keyed.contains]
  | arr items =>
    cases hi : Pointer.index? token with
    | none => simp [take?, child?, hi]
    | some i => by_cases hlt : i < items.length <;> simp_all [take?, child?]
  | _ => rfl

theorem isSome_editAt? (hedit : ∀ token container,
      (edit token container).isSome = (container.child? token).isSome)
    (tokens : List String) (value : Json) :
    (value.editAt? edit whole tokens).isSome = (value.at? tokens).isSome := by
  cases tokens using List.reverseRecOn with
  | nil => rfl
  | append_singleton init last =>
    rw [editAt?_append_singleton, at?_append, Option.isSome_map]
    cases value.at? init with
    | none => rfl
    | some container => simp [hedit, at?]

theorem isSome_delete? (document : Json) (tokens : List String) :
    (document.delete? tokens).isSome = (document.at? tokens).isSome :=
  isSome_editAt? isSome_take? tokens document

theorem isSome_replace? (document value : Json) (tokens : List String) :
    (document.replace? value tokens).isSome = (document.at? tokens).isSome :=
  isSome_editAt? (fun _ _ => Option.isSome_map ..) tokens document

end Json

/-! ### What a patch comes to -/

/-- A document after a patch is what an outcome says, and it comes with a refusal if that does. -/
def Applied.EndsIn (applied : Applied) : Except Json Json → Prop
  | .ok edited => applied = ⟨edited, none⟩
  | .error left => applied.document = left ∧ applied.error?.isSome

namespace Patch

open Pointer (tokens?)

/-- The edited document if there is one, and otherwise what is left. -/
def orLeave (left : Json) : Option Json → Except Json Json
  | some edited => .ok edited
  | none => .error left

/-- What a patch comes to on a document, said along the tokens of its pointers: the edited document,
or the document that a refused patch leaves behind. -/
def outcome (patch : Patch) (document : Json) : Except Json Json :=
  match patch with
  | .add path value => orLeave document ((tokens? path).bind (document.insert? value))
  | .remove path => orLeave document ((tokens? path).bind document.delete?)
  | .replace path value => orLeave document ((tokens? path).bind (document.replace? value))
  | .copy source path => orLeave document (((tokens? source).bind document.at?).bind fun value =>
      (tokens? path).bind (document.insert? value))
  | .move source path =>
    if source = path then
      orLeave document (((tokens? source).bind document.at?).map fun _ => document)
    else if (source ++ "/").toList <+: path.toList then .error document
    else
      match (tokens? source).bind document.at?, (tokens? source).bind document.delete? with
      | some value, some shorter => orLeave shorter ((tokens? path).bind (shorter.insert? value))
      | _, _ => .error document

variable {path : String}

/-! ### The steps of a patch

What the steps of a patch report of a refusal does not matter to what becomes of the document. -/

theorem insertIdx_eq_take_append {items : List Json} (value : Json) {i : Nat}
    (h : i ≤ items.length) : items.insertIdx i value = items.take i ++ value :: items.drop i := by
  induction items generalizing i with
  | nil => simp_all
  | cons item rest ih =>
    cases i with
    | zero => simp
    | succ i => simp [ih (Nat.le_of_succ_le_succ h)]

theorem toOption_bind {ε α β : Type} (result : Except ε α) (next : α → Except ε β) :
    (result >>= next).toOption = result.toOption.bind fun found => (next found).toOption := by
  cases result <;> rfl

theorem toOption_indexIn (token : String) (length : Nat) (path : String) :
    (indexIn token length path).toOption =
      (Pointer.index? token).bind fun i => if i ≤ length then some i else none := by
  cases hi : Pointer.index? token with
  | none => simp [indexIn, hi, Except.toOption]
  | some i =>
    by_cases hlong : length < i
    · simp [indexIn, hi, hlong, Except.toOption]
    · have hshort : i ≤ length := by omega
      simp [indexIn, hi, hlong, hshort, Except.toOption]

theorem toOption_putInto (path : String) (value : Json) (token : String) (container : Json) :
    (putInto path value token container).toOption = Json.put? value token container := by
  cases container with
  | arr items =>
    by_cases hend : token = "-"
    · simp [putInto, Json.put?, hend, Except.toOption]
    · rw [putInto, if_neg hend, toOption_bind, toOption_indexIn, Json.put?, if_neg hend,
        Option.bind_assoc]
      refine congrArg (Option.bind (Pointer.index? token)) (funext fun i => ?_)
      by_cases hi : i ≤ items.length
      · simp [hi, insertIdx_eq_take_append value hi, Except.toOption, pure, Except.pure]
      · simp [hi]
  | _ => rfl

theorem toOption_takeFrom (path token : String) (container : Json) :
    (takeFrom path token container).toOption = Json.take? token container := by
  cases container with
  | obj members =>
    have hany : (members.any fun entry => entry.1 == token) = Keyed.contains members token := by
      rw [Bool.eq_iff_iff, Keyed.any_key_iff, Keyed.contains_iff_mem_keys]
    cases h : Keyed.contains members token <;>
      simp [takeFrom, Json.take?, hany, h, Except.toOption]
  | arr items =>
    rw [takeFrom, toOption_bind, toOption_indexIn, Json.take?, Option.bind_assoc]
    refine congrArg (Option.bind (Pointer.index? token)) (funext fun i => ?_)
    -- an index is only refused here if it is the one after the last item
    rcases lt_trichotomy i items.length with hlt | heq | hgt
    · have hne : i ≠ items.length := by omega
      simp [hlt, hlt.le, hne, Except.toOption, pure, Except.pure]
    · simp [heq, Except.toOption]
    · have hnot : ¬ i ≤ items.length := by omega
      have hnot' : ¬ i < items.length := by omega
      simp [hnot, hnot']
  | _ => rfl

/-- The container that is found by cutting a pointer is the one that its tokens lead to. -/
theorem toOption_inContainer {edit : String → Json → Except ApplyError Json}
    {step : String → Json → Option Json}
    (hstep : ∀ token container, (edit token container).toOption = step token container)
    (document whole : Json) (hpath : path ≠ "") :
    (inContainer document path edit).toOption =
      (tokens? path).bind (document.editAt? step whole) := by
  cases Pointer.splitLast?_cases hpath with
  | inl h => simp [inContainer, h, Except.toOption]
  | inr h =>
    obtain ⟨container, token, tokens, hsplit, hcontainer, htokens⟩ := h
    simp only [inContainer, hsplit, hcontainer, htokens, Option.bind_some, Json.modifyAt?_eq,
      Json.editAt?_append_singleton]
    cases document.at? tokens with
    | none => simp [Except.toOption]
    | some found =>
      rw [Option.map_some, Option.bind_some, ← hstep]
      cases edit token found <;> simp [Except.toOption, Except.map]

theorem toOption_insertAt (document : Json) (path : String) (value : Json) :
    (insertAt document path value).toOption = (tokens? path).bind (document.insert? value) := by
  rw [insertAt]
  split
  · next h => simp [h, Pointer.tokens?_eq_some_nil.2, Json.insert?, Json.editAt?, Except.toOption]
  · next h => exact toOption_inContainer (toOption_putInto path value) document value h

theorem toOption_deleteAt (document : Json) (path : String) :
    (deleteAt document path).toOption = (tokens? path).bind document.delete? := by
  rw [deleteAt]
  split
  · next h => simp [h, Pointer.tokens?_eq_some_nil.2, Json.delete?, Json.editAt?, Except.toOption]
  · next h => exact toOption_inContainer (toOption_takeFrom path) document .null h

theorem toOption_replaceAt (document : Json) (path : String) (value : Json) :
    (replaceAt document path value).toOption = (tokens? path).bind (document.replace? value) := by
  rw [replaceAt]
  cases tokens? path with
  | none => simp [Except.toOption]
  | some tokens =>
    simp only [Option.bind_some, Json.modifyAt?_eq, Json.replace?_eq]
    cases document.at? tokens <;> simp [Except.toOption, Except.map]

/-! ### Whole patches -/

theorem endsIn_whole (document : Json) (result : Except ApplyError Json) :
    (whole document result).EndsIn (orLeave document result.toOption) := by
  cases result with
  | ok edited => rfl
  | error e => exact ⟨rfl, rfl⟩

theorem endsIn_moveFrom (document : Json) (source path : String) :
    (moveFrom document source path).EndsIn (outcome (.move source path) document) := by
  rw [moveFrom, outcome, Text.startsWith]
  by_cases hsame : source = path
  · rw [if_pos hsame, if_pos hsame, Json.find?]
    cases (tokens? source).bind document.at? with
    | none => exact ⟨rfl, rfl⟩
    | some value => rfl
  rw [if_neg hsame, if_neg hsame]
  by_cases hbelow : (source ++ "/").toList <+: path.toList
  · rw [if_pos (List.isPrefixOf_iff_prefix.2 hbelow), if_pos hbelow]
    exact ⟨rfl, rfl⟩
  rw [if_neg fun h => hbelow (List.isPrefixOf_iff_prefix.1 h), if_neg hbelow, ← toOption_deleteAt]
  have hthere : (deleteAt document source).toOption.isSome = (document.find? source).isSome := by
    rw [toOption_deleteAt, Json.find?]
    cases tokens? source with
    | none => rfl
    | some tokens => exact Json.isSome_delete? document tokens
  rw [Json.find?] at hthere ⊢
  cases hdelete : deleteAt document source with
  | error e =>
    cases (tokens? source).bind document.at? <;> exact ⟨rfl, rfl⟩
  | ok shorter =>
    rw [hdelete] at hthere
    obtain ⟨value, hvalue⟩ := Option.isSome_iff_exists.1 hthere.symm
    simp only [hvalue, Option.getD_some, Except.toOption]
    rw [← toOption_insertAt]
    exact endsIn_whole shorter _

theorem endsIn_apply (patch : Patch) (document : Json) :
    (patch.apply document).EndsIn (patch.outcome document) := by
  cases patch with
  | add path value =>
    rw [apply, outcome, ← toOption_insertAt]
    exact endsIn_whole document _
  | remove path =>
    rw [apply, outcome, ← toOption_deleteAt]
    exact endsIn_whole document _
  | replace path value =>
    rw [apply, outcome, ← toOption_replaceAt]
    exact endsIn_whole document _
  | move source path => exact endsIn_moveFrom document source path
  | copy source path =>
    rw [apply, outcome, Json.find?]
    cases (tokens? source).bind document.at? with
    | none => exact ⟨rfl, rfl⟩
    | some value =>
      dsimp only [Option.bind_some]
      rw [← toOption_insertAt]
      exact endsIn_whole document _

theorem orLeave_eq_error_iff {left left' : Json} {result : Option Json} :
    orLeave left result = .error left' ↔ result = none ∧ left = left' := by
  cases result <;> simp [orLeave]

/-- What a refused patch leaves is the document, or what a move has left after it took its value. -/
theorem left_of_outcome {patch : Patch} {document left : Json}
    (h : patch.outcome document = .error left) :
    left = document ∨ ∃ source path value, patch = .move source path ∧
      (tokens? source).bind document.at? = some value ∧
      (tokens? source).bind document.delete? = some left ∧
      (tokens? path).bind (left.insert? value) = none := by
  cases patch with
  | move source path =>
    rw [outcome] at h
    split at h
    · exact Or.inl (orLeave_eq_error_iff.1 h).2.symm
    split at h
    · exact Or.inl (Except.error.inj h).symm
    split at h
    · next value shorter hvalue hshorter =>
      obtain ⟨hrefused, hleft⟩ := orLeave_eq_error_iff.1 h
      subst hleft
      exact Or.inr ⟨source, path, value, rfl, hvalue, hshorter, hrefused⟩
    · exact Or.inl (Except.error.inj h).symm
  | _ => exact Or.inl (orLeave_eq_error_iff.1 h).2.symm

theorem error?_eq_none_iff_of_endsIn {applied : Applied} {document : Json}
    {result : Option Json} (h : applied.EndsIn (orLeave document result)) :
    applied.error? = none ↔ result.isSome := by
  cases result with
  | some edited => simp [show applied = ⟨edited, none⟩ from h]
  | none => simpa using Option.isSome_iff_ne_none.1 h.2

theorem isSome_bind_tokens? {edit : List String → Option Json} {document : Json}
    (h : ∀ tokens, (edit tokens).isSome = (document.at? tokens).isSome) (path : String) :
    ((tokens? path).bind edit).isSome = (document.find? path).isSome := by
  rw [Json.find?]
  cases tokens? path with
  | none => rfl
  | some tokens => exact h tokens

/-- A patch comes to what is told along the tokens of its pointers, and it is refused where nothing
is told. What a refused patch leaves is the document itself, or, for a move whose target is refused,
the document without the value that was to be moved. A removal and a replacement go through where
there is a value. An index is written with decimal digits in one way only, and it has 64 bits. -/
theorem apply_along_tokens (patch : Patch) (document : Json) :
    (patch.apply document).EndsIn (patch.outcome document) ∧
      ((patch.apply document).error?.isSome → (patch.apply document).document = document ∨
        ∃ source path value, patch = .move source path ∧
          (tokens? source).bind document.at? = some value ∧
          (tokens? source).bind document.delete? = some (patch.apply document).document ∧
          (tokens? path).bind ((patch.apply document).document.insert? value) = none) ∧
      (∀ path, ((remove path).apply document).error? = none ↔ (document.find? path).isSome) ∧
      (∀ path value,
        ((replace path value).apply document).error? = none ↔ (document.find? path).isSome) ∧
      ∀ token i, Pointer.index? token = some i ↔ token = toString i ∧ i < UInt64.size := by
  have hends := endsIn_apply patch document
  refine ⟨hends, fun hrefused => ?_, fun path => ?_, fun path value => ?_,
    fun _ _ => Pointer.index?_eq_some_iff⟩
  · cases houtcome : patch.outcome document with
    | ok edited =>
      rw [houtcome] at hends
      simp [show patch.apply document = ⟨edited, none⟩ from hends] at hrefused
    | error left =>
      rw [houtcome] at hends
      rw [hends.1]
      exact left_of_outcome houtcome
  · rw [error?_eq_none_iff_of_endsIn (endsIn_apply (remove path) document),
      isSome_bind_tokens? (Json.isSome_delete? document)]
  · rw [error?_eq_none_iff_of_endsIn (endsIn_apply (replace path value) document),
      isSome_bind_tokens? (Json.isSome_replace? document value)]

/-- A number and a list in which nothing has a name. -/
def numberAndList : Json := .obj [("a", .nat 1), ("b", .arr [])]

/-- The number is taken away before it turns out that the list has no place for it. -/
theorem apply_along_tokens_lostNumber :
    let moved := (move "/a" "/b/x").apply numberAndList
    moved.error?.isSome ∧ moved.document = .obj [("b", .arr [])] ∧
      (moved.document = numberAndList ∨ ∃ source path value, move "/a" "/b/x" = .move source path ∧
        (tokens? source).bind numberAndList.at? = some value ∧
        (tokens? source).bind numberAndList.delete? = some moved.document ∧
        (tokens? path).bind (moved.document.insert? value) = none) := by
  have houtcome : (move "/a" "/b/x").outcome numberAndList = .error (.obj [("b", .arr [])]) := by
    cbv
  have hends := (apply_along_tokens (move "/a" "/b/x") numberAndList).1
  rw [houtcome] at hends
  exact ⟨hends.2, hends.1, (apply_along_tokens (move "/a" "/b/x") numberAndList).2.1 hends.2⟩

end Patch

end ResourceCatalog
