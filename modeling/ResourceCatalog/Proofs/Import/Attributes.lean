import Mathlib
import ResourceCatalog.Proofs.Import.History
import ResourceCatalog.Proofs.Import.Levels
import ResourceCatalog.Proofs.Import.Listing
import ResourceCatalog.Proofs.Json.Parts

/-!
# Properties that are listed as attributes

The pointer to a property is read three times: it becomes a path of names with dots in between, the
path is cut at its dots to find the schema, and a path without a dot names a property that is no
property of the resource any more. For a name without a dot the three readings agree, whatever
slashes and tildes it has, and the property becomes an attribute: `attributes_runAll_empty`. A name
with a dot is taken for the path of a property inside of another one, so its property stays where it
is, also when it is listed.

A failure is recorded under the path of its property. The paths inside of a property have dots, so no
failure in there is taken for one of a property of the document. Only inside of a property of the
empty name the paths are bare names.
-/

namespace ResourceCatalog

namespace Typing

/-! ### Paths -/

theorem joinPath_empty (name : String) : joinPath "" name = name := if_pos rfl

theorem dot_mem_joinPath {base : String} (h : base ≠ "") (name : String) :
    '.' ∈ (joinPath base name).toList := by
  rw [joinPath, if_neg h]
  change '.' ∈ (base ++ "." ++ name).toList
  simp

/-- The paths inside of a property have dots, unless the property has the empty name. -/
theorem PathInside.dot_mem {base path : String} (h : PathInside base path) (hbase : base ≠ "") :
    '.' ∈ path.toList := by
  obtain ⟨name, h⟩ := h
  induction h with
  | here => exact dot_mem_joinPath hbase name
  | @member path other _ ih =>
    refine dot_mem_joinPath (fun hempty => ?_) other
    rw [hempty] at ih
    cases ih

/-! ### Failures under a name -/

/-- No further failure has been recorded under a name. -/
def SilentOn (name : String) (before after : TypingState) : Prop :=
  ∀ failure ∈ after.failures, failure.path = name → failure ∈ before.failures

section Silent

variable {resource : Identity} {path name : String} {before middle after : TypingState}

theorem SilentOn.refl (state : TypingState) : SilentOn name state state := fun _ h _ => h

theorem SilentOn.trans (h : SilentOn name before middle) (h' : SilentOn name middle after) :
    SilentOn name before after :=
  fun failure hfailure hpath => h failure (h' failure hfailure hpath) hpath

theorem Grows.silentOn {new : Additions} (h : Grows resource path before after new)
    (hpath : path ≠ "") (hname : '.' ∉ name.toList) : SilentOn name before after := by
  intro failure hfailure hsame
  rw [h.failures, List.mem_append] at hfailure
  refine hfailure.resolve_left fun hnew => hname ?_
  rw [← hsame]
  exact (h.inside failure hnew).dot_mem hpath

/-- A failure is recorded under the path of its property. -/
theorem ends_attempt_silentOn {α : Type} {m : Typing α} (hm : Adds resource path m)
    (hpath : path ≠ "") (hname : '.' ∉ name.toList) {state : TypingState} (hstate : state.Coherent)
    (hends : path = name → Ends m state (fun _ _ => True) fun _ _ => False) :
    Ends (tryCatch (some <$> m) fun error => do
        recordFailure path error
        return none) state
      (fun _ left => SilentOn name state left) (fun _ _ => True) := by
  rw [ends_tryCatch, ends_map]
  by_cases hsame : path = name
  · refine ((hends hsame).and (hm state hstate)).mono ?_ fun _ _ h => h.1.elim
    rintro _ left ⟨-, -, new, hgrows, -⟩
    exact hgrows.silentOn hpath hname
  · refine (hm state hstate).mono ?_ ?_
    · rintro _ left ⟨-, new, hgrows, -⟩
      exact hgrows.silentOn hpath hname
    · rintro error left ⟨-, new, hgrows, -⟩
      rw [ends_bind, recordFailure]
      split
      · trivial
      · refine (hgrows.silentOn hpath hname).trans fun failure hfailure hunder => ?_
        rcases List.mem_cons.1 hfailure with rfl | hold
        · exact absurd hunder hsame
        · exact hold

end Silent

/-! ### The properties of a record -/

section Level

variable {base : Database} {first : Supply} {known : List Identity} {subject : Subject}
  {inner : String → String → Schema.Resolved → Typing PropertyType}

/-- A property that has a type where nothing has been typed yet is found wherever it is typed. -/
theorem keeps_attempt_property (hinner : InnerGoes subject.resource inner) (path name : String)
    (schema : Json) :
    Keeps base first subject.resource NoError known
      (tryCatch (some <$> propertyOf inner subject path name schema) fun error => do
        recordFailure path error
        return none)
      (fun found _ => Succeeds (propertyOf inner subject path name schema) →
        found.isSome = true) := by
  obtain ⟨error?, hcourse⟩ := course_propertyOf hinner path name schema
  have hfatal := keeps_propertyOf (hinner.keeps base first) known path name schema
  intro state hstate hknown
  rw [ends_tryCatch, ends_map]
  refine (((hcourse known).keeps base first state hstate hknown).and
    (hfatal state hstate hknown)).mono ?_ ?_
  · rintro p left ⟨⟨hleft, hsub, -⟩, -⟩
    exact ⟨hleft, hsub, fun _ => rfl⟩
  · rintro error left ⟨⟨hleft, hsub, hfails⟩, -, -, hfatal⟩
    have hrecord : Keeps base first subject.resource NoError known
        (do recordFailure path error; return (none : Option Property))
        (fun found _ => Succeeds (propertyOf inner subject path name schema) →
          found.isSome = true) := by
      refine (keeps_recordFailure hfatal).bind fun _ _ _ _ => Keeps.pure fun _ _ hs => ?_
      exact nomatch hfails.symm.trans ((hcourse []).succeeds_iff.1 hs)
    exact hrecord left hleft hsub

theorem keeps_keys_propertiesOf (hinner : InnerGoes subject.resource inner) (path : String)
    (required : List String) (members : Members) :
    Keeps base first subject.resource NoError known
      (propertiesOf inner subject path required members)
      (fun properties _ => Keyed.keys properties ⊆ Keyed.keys members ∧
        ∀ entry ∈ members,
          Succeeds (propertyOf inner subject (joinPath path entry.1) entry.1 entry.2) →
            entry.1 ∈ Keyed.keys properties) := by
  induction members generalizing known with
  | nil =>
    exact Keeps.pure fun _ _ => ⟨List.Subset.refl _, fun _ h => absurd h List.not_mem_nil⟩
  | cons member rest ih =>
    obtain ⟨name, schema⟩ := member
    refine (keeps_attempt_property hinner _ name schema).bind fun found seen _ hfound => ?_
    refine (@ih seen).bind fun others _ _ hothers => ?_
    obtain ⟨hkeys, hthere⟩ := hothers
    cases found with
    | none =>
      refine Keeps.pure fun _ _ => ⟨List.subset_cons_of_subset _ hkeys, fun entry hentry hs => ?_⟩
      rcases List.mem_cons.1 hentry with rfl | hentry
      · cases hfound hs
      · exact hthere entry hentry hs
    | some property =>
      refine Keeps.pure fun _ _ => ⟨fun key hkey => ?_, fun entry hentry hs => ?_⟩
      · rcases Keyed.mem_keys_insert.1 hkey with rfl | hkey
        · exact List.mem_cons_self
        · exact List.mem_cons_of_mem _ (hkeys hkey)
      · rcases List.mem_cons.1 hentry with rfl | hentry
        · exact Keyed.mem_keys_insert.2 (Or.inl rfl)
        · exact Keyed.mem_keys_insert.2 (Or.inr (hthere entry hentry hs))

/-- Properties record no failure under a name that none of them has, if none has the empty name. -/
theorem ends_propertiesOf_silentOn {resource : Identity} (hinner : InnerAdds resource inner)
    (required : List String) {name : String} (hname : '.' ∉ name.toList) {members : Members}
    (hempty : "" ∉ Keyed.keys members) (hother : name ∉ Keyed.keys members) {state : TypingState}
    (hstate : state.Coherent) :
    Ends (propertiesOf inner subject "" required members) state
      (fun _ left => SilentOn name state left) (fun _ _ => True) := by
  induction members generalizing state with
  | nil => exact SilentOn.refl state
  | cons member rest ih =>
    obtain ⟨key, schema⟩ := member
    obtain ⟨hkeyEmpty, hempty⟩ := not_or.1 (mt List.mem_cons.2 hempty)
    obtain ⟨hkeyOther, hother⟩ := not_or.1 (mt List.mem_cons.2 hother)
    have hproperty : Adds resource (joinPath "" key)
        (propertyOf inner subject (joinPath "" key) key schema) :=
      adds_propertyOf hinner _ key schema
    rw [propertiesOf, ends_bind]
    refine ((ends_attempt hproperty hstate).and (ends_attempt_silentOn hproperty ?_ hname hstate
      ?_)).mono (fun found left hleft => ?_) fun _ _ _ => trivial
    · rw [joinPath_empty]
      exact Ne.symm hkeyEmpty
    · rw [joinPath_empty]
      exact fun hsame => absurd hsame.symm hkeyOther
    · rw [ends_bind]
      refine (ih hempty hother hleft.1.1).mono (fun others left' hleft' => ?_) fun _ _ _ => trivial
      cases found with
      | none => exact hleft.2.trans hleft'
      | some property => exact hleft.2.trans hleft'

end Level

/-! ### Attributes -/

/-- A document declares a property, and its schema has a type. -/
structure Translates (subject : Subject) (name : String) (schema : Json) : Prop where
  declared : Keyed.get? name (Schema.properties subject.document) = some schema
  succeeds : Succeeds (property subject name name schema)

/-- The type is the one that typing gives to a property after some attributes, and the definitions
that it has made by then are among some definitions. -/
def GivenAfter (base : Database) (first : Supply) (state : TypingState) (subject : Subject)
    (earlier : List String) (name : String) (schema : Json)
    (definitions : List (Record TypeDefinition)) (type : PropertyType) : Prop :=
  ∃ after p, (property subject name name schema).run.run
      ((attributesOf subject earlier).run.run state).2 = (.ok p, after) ∧ p.type = type ∧
    Progress base first subject.resource after ∧
    after.database.typeDefinitions.all ⊆ definitions

section Attributes

variable {base : Database} {first : Supply} {subject : Subject} {state : TypingState}
  {name : String}

theorem Gathered.subset {resource : Identity} {path : String} {before after : TypingState}
    (h : Gathered resource path before after) :
    before.database.typeDefinitions.all ⊆ after.database.typeDefinitions.all := by
  obtain ⟨_, new, hgrows⟩ := h
  rw [hgrows.definitions]
  exact List.subset_append_left _ _

theorem member?_properties (schema : Json) (name : String) :
    ((schema.member? "properties").bind fun properties => properties.member? name) =
      Keyed.get? name (Schema.properties schema) := by
  rw [Schema.properties]
  cases schema.member? "properties" with
  | none => rfl
  | some properties => cases properties <;> rfl

/-- The schema of a name without a dot is the one that the document declares. -/
theorem attributeSchema_of_dotless (subject : Subject) (hname : '.' ∉ name.toList) :
    attributeSchema subject name subject.document (Text.split '.' name) =
      match Keyed.get? name (Schema.properties subject.document) with
      | none => throw (.missingAttribute name)
      | some schema => pure schema := by
  rw [Text.split_of_not_mem hname, attributeSchema, member?_properties]
  cases Keyed.get? name (Schema.properties subject.document) <;> rfl

theorem adds_attributeSchema {resource : Identity} {path : String} (subject : Subject)
    (name : String) (schema : Json) (segments : List String) :
    Adds resource path (attributeSchema subject name schema segments) := by
  induction segments generalizing schema with
  | nil => exact adds_throw _
  | cons segment rest ih =>
    rw [attributeSchema]
    split
    · exact adds_throw _
    · split
      · exact adds_pure _
      · exact (adds_resolve _).bind fun resolved => ih resolved.schema

/-- An attribute by way of the schema that its name leads to, or nothing and a failure. -/
def attemptAttribute (subject : Subject) (name : String) : Typing (Option Property) :=
  tryCatch (some <$> do
    let schema ← attributeSchema subject name subject.document (Text.split '.' name)
    property subject name (String.ofList (Text.afterLast '.' name.toList)) schema) fun error => do
      recordFailure name error
      return none

theorem attributesOf_cons (subject : Subject) (name : String) (rest : List String) :
    attributesOf subject (name :: rest) = do
      let found ← attemptAttribute subject name
      let others ← attributesOf subject rest
      match found with
      | some property => return Keyed.insert name property others
      | none => return others := rfl

/-- Attributes are typed one after the other. -/
theorem left_attributesOf_cons {found : Option Property} {left : TypingState}
    (h : (attemptAttribute subject name).run.run state = (.ok found, left)) (rest : List String) :
    ((attributesOf subject (name :: rest)).run.run state).2 =
      ((attributesOf subject rest).run.run left).2 := by
  rw [attributesOf_cons, run_bind_of_ok h]
  rcases hrest : (attributesOf subject rest).run.run left with ⟨e | others, after⟩
  · rw [ExceptT.run_bind, StateT.run_bind, hrest]
    rfl
  · rw [run_bind_of_ok hrest]
    cases found <;> rfl

theorem adds_attribute (subject : Subject) (name hint : String) (segments : List String) :
    Adds subject.resource name (do
      let schema ← attributeSchema subject name subject.document segments
      property subject name hint schema) :=
  (adds_attributeSchema subject name _ segments).bind fun schema =>
    adds_property subject name hint schema

theorem ends_attemptAttribute_gathered (subject : Subject) (name : String)
    (hstate : state.Coherent) :
    Ends (attemptAttribute subject name) state
      (fun _ left => Gathered subject.resource "" state left) (fun _ _ => True) := by
  have hadds := adds_attribute subject name (String.ofList (Text.afterLast '.' name.toList))
    (Text.split '.' name)
  rw [← joinPath_empty name] at hadds
  have hends := ends_attempt hadds hstate
  simp only [joinPath_empty] at hends
  exact hends.mono (fun _ _ h => h) fun _ _ _ => trivial

/-- A property that translates is typed under its name, wherever it is typed. -/
theorem Translates.ends_attribute {schema : Json} (h : Translates subject name schema)
    (hname : '.' ∉ name.toList) (hstate : Progress base first subject.resource state) :
    Ends (do
        let schema ← attributeSchema subject name subject.document (Text.split '.' name)
        property subject name (String.ofList (Text.afterLast '.' name.toList)) schema) state
      (fun p left => (property subject name name schema).run.run state = (.ok p, left))
      (fun _ _ => False) := by
  rw [attributeSchema_of_dotless subject hname, h.declared, pure_bind,
    Text.afterLast_of_not_mem hname, String.ofList_toList]
  obtain ⟨error?, hcourse⟩ := course_property subject name name schema
  obtain rfl := (hcourse []).succeeds_iff.1 h.succeeds
  have hends : Ends (property subject name name schema) state (fun _ _ => True)
      (fun _ _ => False) :=
    ((hcourse []).keeps base first state hstate (List.nil_subset _)).mono (fun _ _ _ => trivial)
      fun _ _ hleft => nomatch hleft.2.2
  obtain ⟨p, left, hrun, -⟩ := hends.exists_run_ok
  rw [Ends, hrun]

theorem ends_attemptAttribute_given (subject : Subject) (name : String)
    (hstate : Progress base first subject.resource state) :
    Ends (attemptAttribute subject name) state
      (fun found left => '.' ∉ name.toList → ∀ schema, Translates subject name schema →
        ∃ p, found = some p ∧
          (property subject name name schema).run.run state = (.ok p, left)) (fun _ _ => True) := by
  by_cases hthere : '.' ∉ name.toList ∧ ∃ schema, Translates subject name schema
  · obtain ⟨hname, schema, h⟩ := hthere
    rw [attemptAttribute, ends_tryCatch, ends_map]
    refine (h.ends_attribute hname hstate).mono (fun p left hrun _ schema' h' => ?_)
      fun _ _ h => h.elim
    obtain rfl := Option.some.inj (h.declared.symm.trans h'.declared)
    exact ⟨p, rfl, hrun⟩
  · exact (ends_attemptAttribute_gathered subject name hstate.coherent).mono
      (fun _ _ _ hname schema h => absurd ⟨hname, schema, h⟩ hthere) fun _ _ h => h

/-- An attribute records no failure under the name of another one, nor under its own if it
translates. -/
theorem ends_attemptAttribute_silentOn (subject : Subject) (name : String)
    (hempty : Keyed.get? "" (Schema.properties subject.document) = none) {other : String}
    {schema : Json} (hother : '.' ∉ other.toList) (h : Translates subject other schema)
    (hstate : Progress base first subject.resource state) :
    Ends (attemptAttribute subject name) state (fun _ left => SilentOn other state left)
      (fun _ _ => True) := by
  by_cases hname : name = ""
  · -- there is no property of the empty name, so nothing is typed
    subst hname
    have hne : "" ≠ other := by
      rintro rfl
      cases hempty.symm.trans h.declared
    rw [attemptAttribute, attributeSchema_of_dotless subject List.not_mem_nil, hempty]
    intro failure hfailure hpath
    rcases List.mem_cons.1 hfailure with rfl | hold
    · exact absurd hpath hne
    · exact hold
  · refine ends_attempt_silentOn (adds_attribute subject name _ _) hname hother hstate.coherent ?_
    rintro rfl
    exact (h.ends_attribute hother hstate).mono (fun _ _ _ => trivial) fun _ _ h => h

/-- What has become of one attribute. -/
structure Attempted (base : Database) (first : Supply) (subject : Subject) (name : String)
    (state : TypingState) (found : Option Property) (left : TypingState) : Prop where
  run : (attemptAttribute subject name).run.run state = (.ok found, left)
  progress : Progress base first subject.resource left
  gathered : Gathered subject.resource "" state left
  given : '.' ∉ name.toList → ∀ schema, Translates subject name schema →
    ∃ p, found = some p ∧ (property subject name name schema).run.run state = (.ok p, left)
  silent : Keyed.get? "" (Schema.properties subject.document) = none →
    ∀ other schema, '.' ∉ other.toList → Translates subject other schema → SilentOn other state left

theorem exists_attempted (subject : Subject) (name : String)
    (hstate : Progress base first subject.resource state) :
    ∃ found left, Attempted base first subject name state found left := by
  have hkeeps : Ends (attemptAttribute subject name) state
      (fun _ left => Progress base first subject.resource left) (fun _ _ => False) :=
    ((keeps_attribute [] subject name _ _ _).attempt name state hstate (List.nil_subset _)).mono
      (fun _ _ h => h.1) fun _ _ h => h.2.2
  obtain ⟨found, left, hrun, hleft⟩ := hkeeps.exists_run_ok
  exact ⟨found, left, {
    run := hrun
    progress := hleft
    gathered := (ends_attemptAttribute_gathered subject name hstate.coherent).of_run_ok hrun
    given := (ends_attemptAttribute_given subject name hstate).of_run_ok hrun
    silent := fun hempty other schema hother h =>
      (ends_attemptAttribute_silentOn subject name hempty hother h hstate).of_run_ok hrun }⟩

/-- What has become of some attributes. -/
structure Attributed (base : Database) (first : Supply) (subject : Subject) (names : List String)
    (state : TypingState) (attributes : PropertyMap) (left : TypingState) : Prop where
  progress : Progress base first subject.resource left
  gathered : Gathered subject.resource "" state left
  given : ∀ name ∈ names, '.' ∉ name.toList → ∀ schema, Translates subject name schema →
    ∃ p earlier later, Keyed.get? name attributes = some p ∧ names = earlier ++ name :: later ∧
      GivenAfter base first state subject earlier name schema
        left.database.typeDefinitions.all p.type
  silent : Keyed.get? "" (Schema.properties subject.document) = none →
    ∀ name schema, '.' ∉ name.toList → Translates subject name schema → SilentOn name state left

section Cons

variable {found : Option Property} {left left' : TypingState} {rest : List String}
  {others : PropertyMap} (h : Attempted base first subject name state found left)
  (hothers : Attributed base first subject rest left others left')

include h hothers

theorem Attempted.given_head (hdot : '.' ∉ name.toList) {schema : Json}
    (htranslates : Translates subject name schema) :
    ∃ p, found = some p ∧ GivenAfter base first state subject [] name schema
      left'.database.typeDefinitions.all p.type := by
  obtain ⟨p, hp, hrun⟩ := h.given hdot schema htranslates
  exact ⟨p, hp, left, p, hrun, rfl, h.progress, hothers.gathered.subset⟩

theorem Attempted.given_rest {other : String} (hother : other ∈ rest) (hdot : '.' ∉ other.toList)
    {schema : Json} (htranslates : Translates subject other schema) :
    ∃ p earlier later, Keyed.get? other others = some p ∧ name :: rest = earlier ++ other :: later ∧
      GivenAfter base first state subject earlier other schema
        left'.database.typeDefinitions.all p.type := by
  obtain ⟨p, earlier, later, hp, hnames, after, q, hafter, hrest⟩ :=
    hothers.given other hother hdot schema htranslates
  refine ⟨p, name :: earlier, later, hp, congrArg (name :: ·) hnames, after, q, ?_, hrest⟩
  rw [left_attributesOf_cons h.run]
  exact hafter

theorem Attempted.attributed : Attributed base first subject (name :: rest) state
    (match found with
      | some property => Keyed.insert name property others
      | none => others) left' where
  progress := hothers.progress
  gathered := h.gathered.trans hothers.gathered
  given := by
    intro other hother hdot schema htranslates
    by_cases hsame : other = name
    · subst hsame
      obtain ⟨p, rfl, hgiven⟩ := h.given_head hothers hdot htranslates
      exact ⟨p, [], rest, Keyed.get?_insert_self _ _ _, rfl, hgiven⟩
    · obtain ⟨p, earlier, later, hp, hgiven⟩ :=
        h.given_rest hothers ((List.mem_cons.1 hother).resolve_left hsame) hdot htranslates
      refine ⟨p, earlier, later, ?_, hgiven⟩
      cases found with
      | none => exact hp
      | some property => exact (Keyed.get?_insert_of_ne hsame _ _).trans hp
  silent := fun hempty other schema hdot htranslates =>
    (h.silent hempty other schema hdot htranslates).trans
      (hothers.silent hempty other schema hdot htranslates)

end Cons

theorem ends_attributesOf (names : List String)
    (hstate : Progress base first subject.resource state) :
    Ends (attributesOf subject names) state (Attributed base first subject names state)
      (fun _ _ => False) := by
  induction names generalizing state with
  | nil =>
    exact ⟨hstate, ⟨hstate.coherent, .none, .refl state⟩, fun _ h => absurd h List.not_mem_nil,
      fun _ _ _ _ _ => SilentOn.refl state⟩
  | cons name rest ih =>
    obtain ⟨found, left, h⟩ := exists_attempted subject name hstate
    rw [attributesOf_cons, Ends, run_bind_of_ok h.run]
    change Ends (attributesOf subject rest >>= _) left _ _
    rw [ends_bind]
    refine (ih h.progress).mono (fun others left' hothers => ?_) fun _ _ h => h
    have hdone := h.attributed hothers
    cases found <;> exact hdone

/-! ### Documents -/

theorem size_lt_of_declared {document schema : Json}
    (h : Keyed.get? name (Schema.properties document) = some schema) :
    schema.size < document.size := by
  rw [← member?_properties, Option.bind_eq_some_iff] at h
  obtain ⟨properties, hproperties, hschema⟩ := h
  have hmember : ∀ {value part : Json} {key : String}, value.member? key = some part →
      part.size < value.size := by
    intro value part key hpart
    cases value with
    | obj members => exact Json.size_lt_of_mem (Keyed.mem_of_get? hpart)
    | _ => cases hpart
  exact (hmember hschema).trans (hmember hproperties)

/-- The levels for a document suffice for its properties. -/
theorem levelsFor_le {document schema : Json} (h : schema.size ≤ document.size) :
    levelsFor document schema ≤ levelsFor document document :=
  Nat.pow_le_pow_left (by omega) 8

theorem mem_filter_dotless_iff {names : List String} :
    name ∈ names.filter (fun name => !name.toList.contains '.') ↔
      name ∈ names ∧ '.' ∉ name.toList := by
  rw [List.mem_filter, Bool.not_eq_true', ← Bool.not_eq_true, List.contains_iff_mem]

/-- What is typed before an attribute: the properties, and the attributes that come earlier. -/
def typeBefore (subject : Subject) (names earlier : List String) : Typing PropertyMap := do
  let _ ← properties subject "" subject.document
    (names.filter fun name => !name.toList.contains '.')
  attributesOf subject earlier

/-- The type is the one that typing a document gives to an attribute when its turn comes, and the
definitions that it has made by then are among some definitions. -/
def Given (start : TypingState) (subject : Subject) (names : List String) (name : String)
    (schema : Json) (definitions : List (Record TypeDefinition)) (type : PropertyType) : Prop :=
  ∃ earlier later after p, names = earlier ++ name :: later ∧
    (property subject name name schema).run.run
      ((typeBefore subject names earlier).run.run start).2 = (.ok p, after) ∧ p.type = type ∧
    ∀ d ∈ after.database.typeDefinitions.all, d.id ∈ after.found → d ∈ definitions

/-- What has become of the properties of a document and of some attributes. -/
structure Divided (base : Database) (subject : Subject) (names : List String)
    (start : TypingState) (result : PropertyMap × PropertyMap) (left : TypingState) : Prop where
  properties : ∀ name schema, Translates subject name schema →
    (name ∈ Keyed.keys result.1 ↔ ¬(name ∈ names ∧ '.' ∉ name.toList))
  given : ∀ name ∈ names, '.' ∉ name.toList → ∀ schema, Translates subject name schema →
    ∃ p, Keyed.get? name result.2 = some p ∧
      ∀ definitions, (∀ d ∈ left.database.typeDefinitions.all,
        d.id ∉ base.typeDefinitions.ids → d ∈ definitions) →
          Given start subject names name schema definitions p.type
  silent : Keyed.get? "" (Schema.properties subject.document) = none →
    ∀ name ∈ names, '.' ∉ name.toList → ∀ schema, Translates subject name schema →
      SilentOn name start left

theorem ends_properties (names : List String)
    (hstate : Progress base first subject.resource state) :
    Ends (properties subject "" subject.document
        (names.filter fun name => !name.toList.contains '.')) state
      (fun found left => Progress base first subject.resource left ∧
        (∀ name schema, Translates subject name schema →
          (name ∈ Keyed.keys found ↔ ¬(name ∈ names ∧ '.' ∉ name.toList))) ∧
        (Keyed.get? "" (Schema.properties subject.document) = none →
          ∀ name ∈ names, '.' ∉ name.toList → SilentOn name state left)) (fun _ _ => False) := by
  rw [properties, declaredProperties]
  set members := (Schema.properties subject.document).filter fun entry =>
    !(names.filter fun name => !name.toList.contains '.').contains entry.1 with hmembers
  have hmem : ∀ entry, entry ∈ members ↔ entry ∈ Schema.properties subject.document ∧
      ¬(entry.1 ∈ names ∧ '.' ∉ entry.1.toList) := by
    intro entry
    rw [hmembers, List.mem_filter, Bool.not_eq_true', ← Bool.not_eq_true, List.contains_iff_mem,
      mem_filter_dotless_iff]
  have hinner := innerGoes_typeWithin subject (levelsFor subject.document subject.document)
  have hkeeps := keeps_keys_propertiesOf hinner "" (Schema.requiredNames subject.document) members
    state hstate (List.nil_subset _)
  obtain ⟨found, left, hrun, hleft, -, hkeys, hthere⟩ :=
    (hkeeps.mono (fun _ _ h => h) fun _ _ h => h.2.2).exists_run_ok
  rw [Ends, hrun]
  refine ⟨hleft, fun name schema h => ⟨fun hname => ?_, fun hname => ?_⟩,
    fun hempty name hname hdot => ?_⟩
  · obtain ⟨entry, hentry, rfl⟩ := List.mem_map.1 (hkeys hname)
    exact ((hmem entry).1 hentry).2
  · refine hthere (name, schema) ((hmem _).2 ⟨Keyed.mem_of_get? h.declared, hname⟩) ?_
    rw [joinPath_empty]
    exact succeeds_propertyOf (innerSucceeds_of_le subject (levelsFor_le
      (size_lt_of_declared h.declared).le)) _ _ _ h.succeeds
  · refine (ends_propertiesOf_silentOn hinner.adds _ hdot (fun hkey => ?_) (fun hkey => ?_)
      hstate.coherent).of_run_ok hrun
    · obtain ⟨entry, hentry, hsame⟩ := List.mem_map.1 hkey
      exact Keyed.get?_eq_none_iff.1 hempty (List.mem_map.2 ⟨entry, ((hmem _).1 hentry).1, hsame⟩)
    · obtain ⟨entry, hentry, rfl⟩ := List.mem_map.1 hkey
      exact ((hmem entry).1 hentry).2 ⟨hname, hdot⟩

theorem ends_documentTypes (names : List String)
    (hstate : Progress base first subject.resource state) :
    Ends (documentTypes subject names) state (Divided base subject names state)
      (fun _ _ => False) := by
  obtain ⟨found, left, hrun, hleft, hproperties, hsilent⟩ :=
    (ends_properties names hstate).exists_run_ok
  rw [documentTypes, Ends, run_bind_of_ok hrun]
  change Ends (attributesOf subject names >>= _) left _ _
  rw [ends_bind]
  refine (ends_attributesOf names hleft).mono (fun attributes left' hattributes => ?_)
    fun _ _ h => h
  refine ⟨hproperties, fun name hname hdot schema h => ?_, fun hempty name hname hdot schema h =>
    (hsilent hempty name hname hdot).trans (hattributes.silent hempty name schema hdot h)⟩
  obtain ⟨p, earlier, later, hp, hnames, after, q, hafter, htype, hprogress, hsub⟩ :=
    hattributes.given name hname hdot schema h
  refine ⟨p, hp, fun definitions hmore => ⟨earlier, later, after, q, hnames, ?_, htype,
    fun d hd hfound => hmore d (hsub hd) (hprogress.fresh d.id hfound)⟩⟩
  rw [typeBefore, run_bind_of_ok hrun]
  exact hafter

end Attributes

end Typing

/-! ### An import -/

theorem BuildReport.entries_foldl_add {α : Type} (entry : α → ReportEntry) (items : List α)
    (report : BuildReport) : (items.foldl (fun report item => report.add (entry item)) report).entries =
      report.entries ++ items.map entry := by
  induction items generalizing report with
  | nil => exact (List.append_nil _).symm
  | cons item rest ih =>
    rw [List.foldl_cons, ih, BuildReport.add, List.append_assoc, List.map_cons]
    rfl

namespace Building

theorem interpretable?_eq_some_iff {rules : RuleBook} {typeName : String}
    {document settled : Json} : interpretable? rules typeName document = some settled ↔
      document.isObject = true ∧ ∃ outcome,
        settle (rules.ruleFor typeName) typeName document = .ok outcome ∧
          outcome.document = settled := by
  rw [interpretable?]
  split
  · next hobject =>
    cases settle (rules.ruleFor typeName) typeName document with
    | ok outcome => simp [hobject]
    | error unsettled => simp
  · next hobject => simp [hobject]

section Interpreted

variable {typeName : String} {legacy : Option LegacySpec} {document : Json}
  {started left : Builder} {r : Record Resource} {findings : Findings}
  (h : Interpreted typeName legacy document started r findings left)

include h

theorem Interpreted.divided (hstarted : started.database.Consistent started.supply) :
    Typing.Divided (started.database.withoutUses r.id) ⟨r.id, document⟩
      (attributeNames document started.attributePointer (legacyNames legacy typeName))
      ⟨started.database.withoutUses r.id, started.supply, [], [], []⟩
      (findings.properties, findings.attributes) findings.typed :=
  (Typing.ends_documentTypes _ (Typing.Progress.initial hstarted r.id)).of_run_ok h.typing

/-- Pruning keeps the definitions that typing has made. -/
theorem Interpreted.mem_definitions (hstarted : started.database.Consistent started.supply)
    {d : Record TypeDefinition} (hd : d ∈ findings.typed.database.typeDefinitions.all)
    (hnew : d.id ∉ started.database.typeDefinitions.ids) :
    d ∈ left.database.typeDefinitions.all := by
  rw [h.definitions, List.mem_filter, decide_eq_true_eq]
  refine ⟨hd, fun hused => absurd ?_ hnew⟩
  exact (hstarted.usesType.ends r.id d.id (List.mem_map.1 hused)).2

end Interpreted

theorem keys_properties_resource (typeName : String) (legacy : Option LegacySpec) (document : Json)
    (old : Resource) (findings : Findings) :
    Keyed.keys (findings.resource typeName legacy document old).properties =
      Keyed.keys findings.properties :=
  (keys_marked _ _).trans (keys_remembering _ _ _)

/-- A document that settles is interpreted, and the failures of typing are reported behind what was
put right. -/
theorem exists_run_importResource {builder : Builder}
    (h : builder.database.Consistent builder.supply) {typeName : String} {document : Json}
    (legacy : Option LegacySpec) (hobject : document.isObject = true) {settled : Settled}
    (hsettled : settle (builder.rules.ruleFor typeName) typeName document = .ok settled) :
    ∃ started r findings left,
      (importResource typeName document legacy).run.run builder = (.ok (some r.id), left) ∧
      Opened builder.database typeName r started.database ∧
      Started started.database typeName r ∧ started.database.Consistent started.supply ∧
      started.attributePointer = builder.attributePointer ∧
      Interpreted typeName legacy settled.document started r findings left ∧
      left.report = reportingFailures typeName findings.typed.failures.reverse
        (reporting settled builder).report := by
  have hreported : (reporting settled builder).database.Consistent
      (reporting settled builder).supply := h
  have himport : Ends (importResource typeName document legacy) builder
      (fun id? left => ∃ started r findings, id? = some r.id ∧
        Opened builder.database typeName r started.database ∧
        Started started.database typeName r ∧ started.database.Consistent started.supply ∧
        started.attributePointer = builder.attributePointer ∧
        Interpreted typeName legacy settled.document started r findings left ∧
        left.report = reportingFailures typeName findings.typed.failures.reverse
          (reporting settled builder).report) (fun _ _ => False) := by
    rw [ends_importResource_iff, if_pos hobject, hsettled]
    refine (ends_interpret_reporting (ends_startResource hreported typeName)).mono ?_
      fun _ _ h => h
    rintro _ left ⟨started, r, findings, rfl, ⟨hsame, hopened⟩, hstarted, hconsistent, hleft,
      hreport⟩
    rw [hsame] at hreport
    refine ⟨started, r, findings, rfl, hopened, hstarted, hconsistent, ?_, hleft, hreport⟩
    rw [hsame]
    rfl
  obtain ⟨_, left, hrun, started, r, findings, rfl, hrest⟩ := himport.exists_run_ok
  exact ⟨started, r, findings, left, hrun, hrest⟩

end Building

namespace BuildStep

open Building

theorem attributePointer_runAll {builder : Builder}
    (h : builder.database.Consistent builder.supply) (steps : List BuildStep) :
    (runAll builder steps).attributePointer = builder.attributePointer := by
  induction steps generalizing builder with
  | nil => rfl
  | cons step rest ih =>
    refine (ih (consistent_run h step).1).trans ?_
    cases step with
    | importDocument typeName document legacy =>
      exact (imported_importResource h typeName document legacy).2
    | markStateful names => rfl
    | linkRegion region names => rfl

/-- From the empty database on and after any steps, a document is imported that the rules leave as
it is. Then each property that it declares and that has a type has become an attribute or is still a
property. If it is listed, and its name has no dot, it is an attribute with the type that typing
gives to its schema, whatever other characters the name has. It is no property then, and, unless
there is a property of the empty name, no failure is reported under its name. Otherwise it is a
property. -/
theorem attributes_runAll_empty (supply : Supply) (rules : RuleBook) (attributePointer : String)
    (report : BuildReport) (imported : Nat) (steps : List BuildStep) (typeName : String)
    (legacy : Option LegacySpec) {document : Json}
    (hstable : interpretable? rules typeName document = some document) :
    let built := runAll ⟨Database.empty, supply, rules, attributePointer, report, imported⟩ steps
    let legacy' := legacyNames legacy typeName
    ∃ r left start added,
      (importResource typeName document legacy).run.run built = (.ok (some r.id), left) ∧
      r ∈ left.database.resources.all ∧ r.entity.typeName = typeName ∧
      start.Fresh ∧ start.database.typeDefinitions = built.database.typeDefinitions ∧
      left.report.entries = built.report.entries ++ added ∧
      ∀ name schema, Typing.Translates ⟨r.id, document⟩ name schema →
        (Listed document attributePointer legacy' name → '.' ∉ name.toList →
          (∃ p, Keyed.get? name r.entity.attributes = some p ∧
            Typing.Given start ⟨r.id, document⟩ (attributeNames document attributePointer legacy')
              name schema left.database.typeDefinitions.all p.type) ∧
          name ∉ Keyed.keys r.entity.properties ∧
          (Keyed.get? "" (Schema.properties document) = none →
            ∀ entry ∈ added, ∀ message, entry.finding ≠ .failure (some name) message)) ∧
        (¬Listed document attributePointer legacy' name ∨ '.' ∈ name.toList →
          name ∈ Keyed.keys r.entity.properties) := by
  intro built legacy'
  have hempty := Database.consistent_empty supply
  have h : built.database.Consistent built.supply := consistent_runAll hempty steps
  have hrules : built.rules = rules := rules_runAll hempty steps
  have hpointer : built.attributePointer = attributePointer := attributePointer_runAll hempty steps
  clear_value built
  obtain ⟨hobject, settled, hsettled, hsame⟩ := interpretable?_eq_some_iff.1 hstable
  obtain ⟨started, r, findings, left, hrun, hopened, hstarted, hconsistent, hpointer', hleft,
    hreport⟩ := exists_run_importResource h legacy hobject (hrules ▸ hsettled)
  rw [hsame] at hleft
  have hdivided := hleft.divided hconsistent
  rw [hpointer', hpointer] at hdivided
  have hprogress := Typing.Progress.initial hconsistent r.id
  let failed (failure : TypingFailure) : ReportEntry :=
    ⟨.interpreting, typeName, .failure (some failure.path) failure.error.message⟩
  let corrected (correction : Correction) : ReportEntry :=
    ⟨.patching, correction.subject, .patch correction⟩
  have hentries : left.report.entries = built.report.entries ++
      (settled.mistakes.map corrected ++ findings.typed.failures.reverse.map failed) := by
    rw [hreport, ← List.append_assoc]
    exact (BuildReport.entries_foldl_add failed _ _).trans
      (congrArg (· ++ _) (BuildReport.entries_foldl_add corrected _ _))
  refine ⟨⟨r.id, findings.resource typeName legacy document r.entity⟩, left, _, _, hrun, ?_,
    hstarted.name, ⟨hprogress.coherent, rfl, rfl⟩, ?_, hentries,
    fun name schema htranslates => ⟨fun hlisted hdot => ?_, fun hstays => ?_⟩⟩
  · rw [hleft.resources]
    exact List.mem_map.2 ⟨r, hstarted.resource, if_pos rfl⟩
  · change started.database.typeDefinitions = _
    rw [hopened.kept]
  · have hname := listed_iff.1 hlisted
    obtain ⟨p, hp, hgiven⟩ := hdivided.given name hname hdot schema htranslates
    refine ⟨⟨_, (get?_remembering_eq _ _ _ _).trans (congrArg _ hp), ?_⟩, ?_,
      fun hempty entry hentry message hfinding => ?_⟩
    · rw [(keepsTypes_remember _ _ _ _).1]
      exact hgiven _ fun d hd hnew => hleft.mem_definitions hconsistent hd hnew
    · rw [keys_properties_resource]
      exact fun hkey => (hdivided.properties name schema htranslates).1 hkey ⟨hname, hdot⟩
    · rcases List.mem_append.1 hentry with hentry | hentry
      · obtain ⟨correction, -, rfl⟩ := List.mem_map.1 hentry
        cases hfinding
      · obtain ⟨failure, hfailure, rfl⟩ := List.mem_map.1 hentry
        obtain ⟨hpath, -⟩ := Finding.failure.inj hfinding
        exact absurd (hdivided.silent hempty name hname hdot schema htranslates failure
          (List.mem_reverse.1 hfailure) (Option.some.inj hpath)) List.not_mem_nil
  · rw [keys_properties_resource, hdivided.properties name schema htranslates]
    rintro ⟨hname, hdot⟩
    exact hstays.elim (fun hunlisted => hunlisted (listed_iff.2 hname)) hdot

def textSchema : Json := .obj [("type", .str "string")]

theorem translates_textSchema {document : Json} (resource : Identity) {name : String}
    (h : Keyed.get? name (Schema.properties document) = some textSchema) :
    Typing.Translates ⟨resource, document⟩ name textSchema := by
  refine ⟨h, ?_⟩
  obtain ⟨levels, hlevels⟩ : ∃ levels, Typing.levelsFor document textSchema = levels + 1 :=
    Nat.exists_eq_succ_of_ne_zero (Nat.pow_pos (Nat.succ_pos _)).ne'
  have hresolve : Typing.resolve ⟨resource, document⟩ textSchema =
      pure (.concrete textSchema none) := by
    rw [Typing.resolve, Schema.resolve, Schema.resolveAmong_concrete _ _ _ rfl rfl rfl]
    rfl
  rw [Typing.property, hlevels, Typing.propertyOf, hresolve]
  trivial

/-- A document that lists a property whose name has a slash and one whose name has a dot. -/
def accessDocument : Json :=
  .obj [("properties",
      .obj [("Read.Only", textSchema), ("Read/Write", textSchema), ("Size", textSchema)]),
    ("readOnlyProperties", .arr [.str "/properties/Read~1Write", .str "/properties/Read.Only"])]

theorem attributes_accessDocument :
    interpretable? RuleBook.empty "A::B::C" accessDocument = some accessDocument ∧
    ∃ (r : Record Resource) (left : Builder),
      (importResource "A::B::C" accessDocument none).run.run bareBuilder =
        (.ok (some r.id), left) ∧
      (Keyed.get? "Read/Write" r.entity.attributes).isSome = true ∧
      "Read/Write" ∉ Keyed.keys r.entity.properties ∧ "Size" ∈ Keyed.keys r.entity.properties ∧
      "Read.Only" ∈ Keyed.keys r.entity.properties := by
  have hstable : interpretable? RuleBook.empty "A::B::C" accessDocument = some accessDocument := by
    rfl
  obtain ⟨r, left, _, _, hrun, -, -, -, -, -, h⟩ := attributes_runAll_empty Supply.full RuleBook.empty
    defaultAttributePointer BuildReport.empty 0 [] "A::B::C" none hstable
  obtain ⟨hlisted, -⟩ := h "Read/Write" textSchema (translates_textSchema r.id rfl)
  obtain ⟨-, hstays⟩ := h "Size" textSchema (translates_textSchema r.id rfl)
  obtain ⟨-, hdotted⟩ := h "Read.Only" textSchema (translates_textSchema r.id rfl)
  obtain ⟨⟨p, hp, -⟩, hgone, -⟩ := hlisted (Or.inl (by decide)) (by decide)
  refine ⟨hstable, r, left, hrun, ?_, hgone, hstays (Or.inl ?_), hdotted (Or.inr (by decide))⟩
  · rw [hp]
    rfl
  · rw [listed_iff]
    decide +kernel

end BuildStep

end ResourceCatalog
