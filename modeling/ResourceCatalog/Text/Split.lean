/-!
# Cutting text apart

Text is cut at a separating character, or at the pair of colons that separates the segments of a
type name. A cut always leaves at least one piece, and joining the pieces with the separator gives
the text back (`joinWith_splitOn`).
-/

namespace ResourceCatalog.Text

/-- The pieces between the occurrences of one character, in order. -/
def splitOn (sep : Char) : List Char → List (List Char)
  | [] => [[]]
  | c :: rest =>
    if c = sep then [] :: splitOn sep rest
    else
      match splitOn sep rest with
      | [] => [[c]]
      | piece :: pieces => (c :: piece) :: pieces

theorem splitOn_ne_nil (sep : Char) (text : List Char) : splitOn sep text ≠ [] := by
  cases text with
  | nil => simp [splitOn]
  | cons c rest =>
    by_cases h : c = sep
    · simp [splitOn, h]
    · simp only [splitOn, h, if_false]
      cases splitOn sep rest <;> simp

/-- The pieces with the separator between each two neighbours. -/
def joinWith (sep : Char) : List (List Char) → List Char
  | [] => []
  | [piece] => piece
  | piece :: next :: pieces => piece ++ sep :: joinWith sep (next :: pieces)

theorem joinWith_splitOn (sep : Char) (text : List Char) :
    joinWith sep (splitOn sep text) = text := by
  induction text with
  | nil => rfl
  | cons c rest ih =>
    have hne := splitOn_ne_nil sep rest
    by_cases h : c = sep
    · subst h
      simp only [splitOn, if_true]
      cases hs : splitOn c rest with
      | nil => exact absurd hs hne
      | cons piece pieces =>
        rw [hs] at ih
        simp [joinWith, ih]
    · simp only [splitOn, h, if_false]
      cases hs : splitOn sep rest with
      | nil => exact absurd hs hne
      | cons piece pieces =>
        rw [hs] at ih
        cases pieces with
        | nil => simpa [joinWith] using ih
        | cons next others => simpa [joinWith] using ih

/-- The pieces of a text between the occurrences of one character. -/
def split (sep : Char) (text : String) : List String :=
  (splitOn sep text.toList).map String.ofList

/-- The segments between pairs of colons. Pairs are taken from the left, so of three colons the
last one belongs to the segment that follows. -/
def segmentsOf : List Char → List (List Char)
  | ':' :: ':' :: rest => [] :: segmentsOf rest
  | c :: rest =>
    match segmentsOf rest with
    | [] => [[c]]
    | piece :: pieces => (c :: piece) :: pieces
  | [] => [[]]

/-- The segments of a type name such as `Org::Service::Thing`. -/
def segments (name : String) : List String :=
  (segmentsOf name.toList).map String.ofList

/-- What follows the last pair of colons, if there is one. -/
def afterLastPair : List Char → Option (List Char)
  | [] => none
  | ':' :: ':' :: rest => (afterLastPair (':' :: rest)).or (some rest)
  | _ :: rest => afterLastPair rest

/-- The last segment of a type name: the text after the last pair of colons. -/
def lastSegment (name : String) : String :=
  match afterLastPair name.toList with
  | some rest => String.ofList rest
  | none => name

/-- The text before the last occurrence of a character and the text after it. -/
def cutLast (sep : Char) : List Char → Option (List Char × List Char)
  | [] => none
  | c :: rest =>
    match cutLast sep rest with
    | some (before, after) => some (c :: before, after)
    | none => if c = sep then some ([], rest) else none

/-- The text after the last occurrence of a character, or the whole text without one. -/
def afterLast (sep : Char) (text : List Char) : List Char :=
  match cutLast sep text with
  | some (_, after) => after
  | none => text

/-- The blanks inside a line. -/
def isLineBlank (c : Char) : Bool := c == ' ' || c == '\t'

/-- Whether a text begins with another one. -/
def startsWith (start : List Char) (text : List Char) : Bool :=
  start.isPrefixOf text

/-- The texts with a separating text between each two neighbours. -/
def join (sep : String) (texts : List String) : String :=
  sep.intercalate texts

end ResourceCatalog.Text
