import Mathlib
import ResourceCatalog.Catalog.Entities
import ResourceCatalog.Files.Path
import ResourceCatalog.Proofs.Keyed
import ResourceCatalog.Proofs.Pointer.Tokens
import ResourceCatalog.Proofs.Text.Segments
import ResourceCatalog.Report.Basic

/-!
# The audiences of a report

An audience is the organisation and the short name of a service with an underscore between them, and
its report has the audience as its file name. The catalog finds the service of a type name by the
same two segments, so what has one service has one audience. The way back is not always there: an
underscore in a segment is written like the one between them, and a slash in a segment is one in the
path of the file. Here it is said which services share an audience and which reports do not lie
right below the directory of the reports.
-/

namespace ResourceCatalog

theorem Text.not_mem_of_mem_splitOn {sep : Char} {text piece : List Char}
    (h : piece ∈ splitOn sep text) : sep ∉ piece := by
  induction text generalizing piece with
  | nil =>
    rw [splitOn, List.mem_singleton] at h
    rw [h]
    exact List.not_mem_nil
  | cons c rest ih =>
    by_cases hc : c = sep
    · rw [splitOn, if_pos hc] at h
      rcases List.mem_cons.1 h with rfl | h
      · exact List.not_mem_nil
      · exact ih h
    · obtain ⟨first, pieces, hrest⟩ := List.exists_cons_of_ne_nil (splitOn_ne_nil sep rest)
      rw [splitOn, if_neg hc, hrest] at h
      rcases List.mem_cons.1 h with rfl | h
      · rw [List.mem_cons, not_or]
        exact ⟨Ne.symm hc, ih (hrest ▸ List.mem_cons_self)⟩
      · exact ih (hrest ▸ List.mem_cons_of_mem _ h)

/-! ### Services by their segments -/

/-- The organisation and the short name of the service of a type name. -/
def serviceSegments? (typeName : String) : Option (String × String) :=
  match Text.segments typeName with
  | organisation :: short :: _ :: _ =>
    if organisation = "" ∨ short = "" then none else some (organisation, short)
  | _ => none

theorem ofTypeName?_eq (typeName : String) :
    Service.ofTypeName? typeName = (serviceSegments? typeName).map fun segments =>
      ⟨s!"{segments.1}::{segments.2}", segments.2⟩ := by
  rw [Service.ofTypeName?, serviceSegments?]
  rcases Text.segments typeName with _ | ⟨organisation, _ | ⟨short, _ | ⟨third, rest⟩⟩⟩
  case cons.cons.cons =>
    dsimp only
    split <;> rfl
  all_goals rfl

theorem audienceOf_eq (subject : String) :
    audienceOf subject = match serviceSegments? subject with
      | none => everyone
      | some segments => segments.1 ++ "_" ++ segments.2 := by
  rw [audienceOf, serviceSegments?]
  rcases Text.segments subject with _ | ⟨organisation, _ | ⟨short, _ | ⟨third, rest⟩⟩⟩
  case cons.cons.cons =>
    dsimp only
    split <;> rfl
  all_goals rfl

/-- The name of a service is cut into its segments again. -/
theorem segments_serviceName {typeName : String} {segments : String × String}
    (h : serviceSegments? typeName = some segments) :
    Text.segments s!"{segments.1}::{segments.2}" = [segments.1, segments.2] := by
  rw [serviceSegments?] at h
  split at h
  · next organisation short third rest hsegments =>
    split at h
    · cases h
    · cases h
      exact Text.segments_join hsegments
  · cases h

theorem serviceName_inj {s t : String} {first second : String × String}
    (hfirst : serviceSegments? s = some first) (hsecond : serviceSegments? t = some second) :
    s!"{first.1}::{first.2}" = s!"{second.1}::{second.2}" ↔ first = second := by
  refine ⟨fun hname => ?_, fun h => h ▸ rfl⟩
  have hsegments := segments_serviceName hfirst
  rw [hname, segments_serviceName hsecond] at hsegments
  obtain ⟨horganisation, hshort⟩ := List.cons.inj hsegments
  exact Prod.ext horganisation.symm (List.cons.inj hshort).1.symm

/-! ### Segments with an underscore between them -/

section Separated

variable {α : Type} {sep : α} {a b c d : List α}

/-- Two texts put together with a separator can be told apart up to separators of their own: a part
between two of these can belong to the first text or to the second. -/
theorem append_sep_inj : a ++ sep :: b = c ++ sep :: d ↔
    (a = c ∧ b = d) ∨ (∃ middle, a = c ++ sep :: middle ∧ d = middle ++ sep :: b) ∨
      ∃ middle, c = a ++ sep :: middle ∧ b = middle ++ sep :: d := by
  constructor
  · intro h
    rcases List.append_eq_append_iff.1 h with ⟨between, hc, hb⟩ | ⟨between, ha, hd⟩
    · cases between with
      | nil =>
        rw [List.append_nil] at hc
        exact Or.inl ⟨hc.symm, (List.cons.inj hb).2⟩
      | cons x middle =>
        obtain ⟨rfl, hrest⟩ := List.cons.inj hb
        exact Or.inr (Or.inr ⟨middle, hc, hrest⟩)
    · cases between with
      | nil =>
        rw [List.append_nil] at ha
        exact Or.inl ⟨ha, (List.cons.inj hd).2.symm⟩
      | cons x middle =>
        obtain ⟨rfl, hrest⟩ := List.cons.inj hd
        exact Or.inr (Or.inl ⟨middle, ha, hrest⟩)
  · rintro (⟨rfl, rfl⟩ | ⟨middle, rfl, rfl⟩ | ⟨middle, rfl, rfl⟩)
    · rfl
    · rw [List.append_assoc, List.cons_append]
    · rw [List.append_assoc, List.cons_append]

end Separated

/-- A part between underscores stands at the end of the organisation of one service and at the
beginning of the short name of the other one, and nothing else tells the two apart. -/
def SharePart (first second : String × String) : Prop :=
  ∃ middle, first.1 = second.1 ++ "_" ++ middle ∧ second.2 = middle ++ "_" ++ first.2

theorem toList_joined (a b : String) : (a ++ "_" ++ b).toList = a.toList ++ '_' :: b.toList := by
  simp only [String.toList_append, List.append_assoc]
  rfl

theorem sharePart_iff (first second : String × String) :
    SharePart first second ↔ ∃ middle, first.1.toList = second.1.toList ++ '_' :: middle ∧
      second.2.toList = middle ++ '_' :: first.2.toList := by
  constructor
  · rintro ⟨middle, horganisation, hshort⟩
    exact ⟨middle.toList, horganisation ▸ toList_joined _ _, hshort ▸ toList_joined _ _⟩
  · rintro ⟨middle, horganisation, hshort⟩
    refine ⟨String.ofList middle, String.toList_inj.1 ?_, String.toList_inj.1 ?_⟩
    · rw [toList_joined, horganisation, String.toList_ofList]
    · rw [toList_joined, hshort, String.toList_ofList]

theorem audience_eq_iff (first second : String × String) :
    first.1 ++ "_" ++ first.2 = second.1 ++ "_" ++ second.2 ↔
      first = second ∨ SharePart first second ∨ SharePart second first := by
  rw [← String.toList_inj, toList_joined, toList_joined, append_sep_inj, sharePart_iff,
    sharePart_iff, String.toList_inj, String.toList_inj, Prod.ext_iff]

/-- The audience of what has no service is none of a service. -/
theorem audience_ne_everyone (segments : String × String) :
    segments.1 ++ "_" ++ segments.2 ≠ everyone := by
  intro h
  have hmem : '_' ∈ (segments.1 ++ "_" ++ segments.2).toList := by
    rw [toList_joined]
    simp
  rw [h] at hmem
  exact absurd hmem (by decide)

/-- Two subjects have one audience if they have the same service, or none, or services of which an
underscore blurs where the organisation ends. -/
theorem audienceOf_eq_iff (s t : String) :
    audienceOf s = audienceOf t ↔
      (Service.ofTypeName? s).map Service.name = (Service.ofTypeName? t).map Service.name ∨
        ∃ first second, serviceSegments? s = some first ∧ serviceSegments? t = some second ∧
          (SharePart first second ∨ SharePart second first) := by
  rw [audienceOf_eq, audienceOf_eq, ofTypeName?_eq, ofTypeName?_eq]
  cases hs : serviceSegments? s with
  | none =>
    cases ht : serviceSegments? t with
    | none => simp
    | some second => simp [(audience_ne_everyone second).symm]
  | some first =>
    cases ht : serviceSegments? t with
    | none => simp [audience_ne_everyone first]
    | some second =>
      simp only [Option.map_some, Option.some.injEq, serviceName_inj hs ht, audience_eq_iff,
        exists_eq_left', exists_and_left]

example : audienceOf "A_B::C::X" = audienceOf "A::B_C::X" := by decide

/-! ### The files of the reports -/

/-- A slash in an audience is one of the segments of its service. -/
theorem slash_mem_audienceOf_iff (subject : String) :
    '/' ∈ (audienceOf subject).toList ↔
      ∃ service, Service.ofTypeName? subject = some service ∧ '/' ∈ service.name.toList := by
  rw [audienceOf_eq, ofTypeName?_eq]
  cases serviceSegments? subject with
  | none =>
    refine iff_of_false (by decide) ?_
    rintro ⟨service, hservice, -⟩
    cases hservice
  | some segments =>
    have hname : s!"{segments.1}::{segments.2}".toList =
        segments.1.toList ++ ':' :: ':' :: segments.2.toList := by
      change (segments.1 ++ "::" ++ segments.2).toList = _
      simp only [String.toList_append, List.append_assoc]
      rfl
    simp only [Option.map_some, Option.some.injEq, exists_eq_left', hname, toList_joined,
      List.mem_append, List.mem_cons, Char.reduceEq, false_or]

/-- An audience other than that of everything without a service has an underscore. -/
theorem audienceOf_ne {name : String} (hname : name ≠ everyone) (hunderscore : '_' ∉ name.toList)
    (subject : String) : audienceOf subject ≠ name := by
  rw [audienceOf_eq]
  cases serviceSegments? subject with
  | none => exact hname.symm
  | some segments =>
    rintro rfl
    rw [toList_joined] at hunderscore
    exact hunderscore (List.mem_append_right _ List.mem_cons_self)

namespace Path

theorem slash_not_mem_split {path part : String} (h : part ∈ Text.split '/' path) :
    '/' ∉ part.toList := by
  obtain ⟨piece, hpiece, rfl⟩ := List.mem_map.1 h
  rw [String.toList_ofList]
  exact Text.not_mem_of_mem_splitOn hpiece

theorem mem_split_of_mem_parts {path part : String} (h : part ∈ parts path) :
    part ∈ Text.split '/' path := by
  rw [parts] at h
  cases hpath : Text.split '/' path with
  | nil => exact absurd (List.map_eq_nil_iff.1 hpath) (Text.splitOn_ne_nil _ _)
  | cons first rest =>
    rw [hpath] at h
    exact (List.filter_sublist.cons_cons first).subset h

theorem parts_slash (base path : String) :
    parts (base ++ "/" ++ path) = parts base ++ (Text.split '/' path).filter (!isIdle ·) := by
  have hsplit :
      Text.split '/' (base ++ "/" ++ path) = Text.split '/' base ++ Text.split '/' path := by
    have htext : (base ++ "/" ++ path).toList = base.toList ++ '/' :: path.toList := by
      simp only [String.toList_append, List.append_assoc]
      rfl
    rw [Text.split, htext, Text.splitOn_append_sep, List.map_append]
    rfl
  rw [parts, parts, hsplit]
  cases hbase : Text.split '/' base with
  | nil => exact absurd (List.map_eq_nil_iff.1 hbase) (Text.splitOn_ne_nil _ _)
  | cons first rest => exact congrArg (first :: ·) (List.filter_append _ _)

/-- Seen from a directory, a path goes on where the directory ends. -/
theorem parts_join {directory path : String} (hdirectory : directory ≠ "")
    (hrelative : isAbsolute path = false) :
    parts (join directory path) = parts directory ++ (Text.split '/' path).filter (!isIdle ·) := by
  rw [join, if_neg (by simp [hdirectory, hrelative])]
  split
  case isTrue hlast =>
    obtain ⟨base, hbase⟩ := List.getLast?_eq_some_iff.1 hlast
    obtain rfl : directory = String.ofList base ++ "/" ++ "" := by
      rw [← String.toList_inj, hbase]
      simp
    rw [parts_slash, String.append_empty, parts_slash]
    exact congrArg (· ++ _) (List.append_nil _).symm
  case isFalse => exact parts_slash directory path

/-- A file lies right below a directory from which it is seen if its name has no slash. -/
theorem parts_join_eq_iff (directory : String) {name : String} (hidle : isIdle name = false) :
    parts (join directory name) = (if directory = "" then [] else parts directory) ++ [name] ↔
      '/' ∉ name.toList := by
  constructor
  · intro h
    have hmem : name ∈ parts (join directory name) := by
      rw [h]
      exact List.mem_append_right _ List.mem_cons_self
    exact slash_not_mem_split (mem_split_of_mem_parts hmem)
  · intro h
    have hsplit : Text.split '/' name = [name] := by
      rw [Text.split, Text.splitOn_of_not_mem h, List.map_singleton, String.ofList_toList]
    have hrelative : isAbsolute name = false := by
      rw [isAbsolute, beq_eq_false_iff_ne]
      exact fun hhead => h (List.mem_of_head? hhead)
    by_cases hdirectory : directory = ""
    · rw [join, if_pos (Or.inr hdirectory), if_pos hdirectory, parts, hsplit]
      rfl
    · rw [parts_join hdirectory hrelative, if_neg hdirectory, hsplit, List.filter_singleton, hidle]
      rfl

end Path

theorem isIdle_fileName (audience : String) : Path.isIdle (audience ++ ".txt") = false := by
  have hlength : 4 ≤ (audience ++ ".txt").toList.length := by
    rw [String.toList_append, List.length_append]
    exact Nat.le_add_left _ _
  rw [Path.isIdle, Bool.or_eq_false_iff, beq_eq_false_iff_ne, beq_eq_false_iff_ne]
  constructor
  · intro h
    rw [h] at hlength
    exact absurd hlength (by decide)
  · intro h
    rw [h] at hlength
    exact absurd hlength (by decide)

theorem mem_audiences_iff (report : BuildReport) (audience : String) :
    audience ∈ report.audiences ↔
      ∃ entry ∈ report.entries, audienceOf entry.subject = audience := by
  rw [BuildReport.audiences, Keyed.mem_keys_ofList, List.map_map, List.mem_map]
  rfl

/-- The audiences of a report and their files. Services whose segments have no underscores have
different audiences, and a service whose segments have no slashes has its file right below the
directory of the reports; exactly there the names of the files are as clear as the services. -/
theorem audiences_and_files (report : BuildReport) (directory : String) :
    report.audiences.Nodup ∧
    (∀ audience, audience ∈ report.audiences ↔
      ∃ entry ∈ report.entries, audienceOf entry.subject = audience) ∧
    (∀ s t, audienceOf s = audienceOf t ↔
      (Service.ofTypeName? s).map Service.name = (Service.ofTypeName? t).map Service.name ∨
        ∃ first second, serviceSegments? s = some first ∧ serviceSegments? t = some second ∧
          (SharePart first second ∨ SharePart second first)) ∧
    ∀ s, audienceOf s ≠ "" ∧ audienceOf s ≠ "." ∧ audienceOf s ≠ ".." ∧
      ('/' ∈ (audienceOf s).toList ↔
        ∃ service, Service.ofTypeName? s = some service ∧ '/' ∈ service.name.toList) ∧
      (Path.parts (Path.join directory (audienceOf s ++ ".txt")) =
          (if directory = "" then [] else Path.parts directory) ++ [audienceOf s ++ ".txt"] ↔
        ∀ service, Service.ofTypeName? s = some service → '/' ∉ service.name.toList) := by
  refine ⟨(Keyed.ascending_ofList _).nodup_keys, mem_audiences_iff report, audienceOf_eq_iff,
    fun s => ⟨?_, ?_, ?_, slash_mem_audienceOf_iff s, ?_⟩⟩
  · exact audienceOf_ne (by decide) (by decide) s
  · exact audienceOf_ne (by decide) (by decide) s
  · exact audienceOf_ne (by decide) (by decide) s
  · have hslash : '/' ∈ (audienceOf s ++ ".txt").toList ↔ '/' ∈ (audienceOf s).toList := by
      rw [String.toList_append, List.mem_append]
      exact or_iff_left (by decide)
    rw [Path.parts_join_eq_iff directory (isIdle_fileName _), hslash, slash_mem_audienceOf_iff]
    simp only [not_exists, not_and]

end ResourceCatalog
