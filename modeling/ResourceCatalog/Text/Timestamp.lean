/-!
# Points in time

A point in time is written as a date, a `T` or a blank, a time and an offset: `Z`, `UTC`, or hours
and minutes. Blanks are allowed around the marks of the date and the time. Of a text it only matters
whether it is a point in time. A point in time is written from the seconds since the beginning of
1970.
-/

namespace ResourceCatalog.Timestamp

def isDigit (c : Char) : Bool := '0' ≤ c && c ≤ '9'

/-- The white space of Unicode. -/
def isBlank (c : Char) : Bool :=
  let n := c.toNat
  (9 ≤ n && n ≤ 13) || n == 0x20 || n == 0x85 || n == 0xA0 || n == 0x1680 ||
    (0x2000 ≤ n && n ≤ 0x200A) || n == 0x2028 || n == 0x2029 || n == 0x202F || n == 0x205F ||
    n == 0x3000

def skipBlanks (text : List Char) : List Char := text.dropWhile isBlank

/-- A number of one to `width` digits at the front, and what follows it. -/
def number? (width : Nat) (text : List Char) : Option (Nat × List Char) :=
  let digits := (text.take width).takeWhile isDigit
  if digits.isEmpty then none
  else some (digits.foldl (fun n c => n * 10 + (c.toNat - 48)) 0, text.drop digits.length)

/-- A number behind blanks. -/
def field? (text : List Char) : Option (Nat × List Char) := number? 2 (skipBlanks text)

/-- A year: up to four digits, or a sign and any number of digits. -/
def year? (text : List Char) : Option (Int × List Char) :=
  match skipBlanks text with
  | '-' :: rest => (number? rest.length rest).map fun (n, rest) => (-(n : Int), rest)
  | '+' :: rest => (number? rest.length rest).map fun (n, rest) => ((n : Int), rest)
  | rest => (number? 4 rest).map fun (n, rest) => ((n : Int), rest)

/-- What follows a mark that may have blanks in front. -/
def mark? (mark : Char) (text : List Char) : Option (List Char) :=
  match skipBlanks text with
  | c :: rest => if c = mark then some rest else none
  | [] => none

def isLeapYear (year : Int) : Bool :=
  (year % 4 == 0 && year % 100 != 0) || year % 400 == 0

def daysInMonth (year : Int) (month : Nat) : Nat :=
  match month with
  | 2 => if isLeapYear year then 29 else 28
  | 4 | 6 | 9 | 11 => 30
  | _ => 31

/-- A date. -/
structure Date where
  year : Int
  month : Nat
  day : Nat
  deriving DecidableEq, Repr

/-- The first date there is. -/
def Date.earliest : Date := ⟨-262143, 1, 1⟩

/-- The last date there is. -/
def Date.latest : Date := ⟨262142, 12, 31⟩

/-- A date at the front, and what follows it. -/
def date? (text : List Char) : Option (Date × List Char) := do
  let (year, text) ← year? text
  let text ← mark? '-' text
  let (month, text) ← field? text
  let text ← mark? '-' text
  let (day, text) ← field? text
  if Date.earliest.year ≤ year ∧ year ≤ Date.latest.year ∧ 1 ≤ month ∧ month ≤ 12 ∧ 1 ≤ day ∧
      day ≤ daysInMonth year month then
    return (⟨year, month, day⟩, text)
  else none

/-- What follows the fraction of a second, if there is one. -/
def fraction? (text : List Char) : Option (List Char) :=
  match text with
  | '.' :: rest =>
    if (rest.takeWhile isDigit).isEmpty then none else some (rest.dropWhile isDigit)
  | _ => some text

/-- The seconds of a day that a time at the front names, and what follows it. The sixtieth second is
a leap second and belongs to the one before. -/
def time? (text : List Char) : Option (Nat × List Char) := do
  let (hour, text) ← field? text
  let text ← mark? ':' text
  let (minute, text) ← field? text
  let text ← mark? ':' text
  let (second, text) ← field? text
  if 24 ≤ hour ∨ 60 ≤ minute ∨ 60 < second then none
  else
    let rest ← fraction? text
    return (hour * 3600 + minute * 60 + min second 59, rest)

/-- The number of exactly two digits, and what follows them. -/
def twoDigits? : List Char → Option (Nat × List Char)
  | a :: b :: rest =>
    if isDigit a && isDigit b then some ((a.toNat - 48) * 10 + (b.toNat - 48), rest) else none
  | _ => none

/-- The seconds of an offset of hours and minutes, which is less than a day, and what follows it. -/
def offset? (text : List Char) : Option (Int × List Char) :=
  match text with
  | 'Z' :: rest | 'z' :: rest => some (0, rest)
  | a :: b :: c :: rest =>
    if [a.toUpper, b.toUpper, c.toUpper] = ['U', 'T', 'C'] then some (0, rest)
    else if a = '+' ∨ a = '-' ∨ a.toNat = 0x2212 then do
      let (hours, rest) ← twoDigits? (b :: c :: rest)
      let (minutes, rest) ← twoDigits? (rest.dropWhile fun c => c == ':' || isBlank c)
      let seconds : Int := hours * 3600 + minutes * 60
      if hours < 24 ∧ minutes < 60 then some (if a = '+' then seconds else -seconds, rest) else none
    else none
  | _ => none

/-- Whether a second of a date, counted from its midnight and perhaps before it or after its end,
lies within the dates that there are. -/
def isWithinDates (date : Date) (second : Int) : Bool :=
  !(date == Date.earliest && second < 0) && !(date == Date.latest && 86400 ≤ second)

/-- Whether a text is a point in time. Without its offset it still lies within the dates. -/
def isTimestamp (text : String) : Bool :=
  let rest? := do
    let (date, rest) ← date? text.toList
    match rest with
    | c :: rest =>
      if c = 'T' ∨ c = 't' ∨ c = ' ' then
        let (second, rest) ← time? rest
        let (offset, rest) ← offset? (skipBlanks rest)
        if isWithinDates date (second - offset) then some rest else none
      else none
    | [] => none
  match rest? with
  | some rest => (skipBlanks rest).isEmpty
  | none => false

/-! ### Writing -/

/-- The date of a day counted from the beginning of 1970. Years are taken to begin in March, so that
the day of a leap year comes last; 146097 days make four centuries. -/
def Date.ofDay (day : Int) : Date :=
  let day := day + 719468
  let era := day / 146097
  let dayOfEra := day % 146097
  let yearOfEra := (dayOfEra - dayOfEra / 1460 + dayOfEra / 36524 - dayOfEra / 146096) / 365
  let dayOfYear := dayOfEra - (365 * yearOfEra + yearOfEra / 4 - yearOfEra / 100)
  let month := (5 * dayOfYear + 2) / 153
  let year := yearOfEra + era * 400
  { year := if month < 10 then year else year + 1
    month := (if month < 10 then month + 3 else month - 9).toNat
    day := (dayOfYear - (153 * month + 2) / 5 + 1).toNat }

/-- A number with zeros in front. -/
def padded (width n : Nat) : String :=
  let digits := toString n
  String.ofList (List.replicate (width - digits.length) '0') ++ digits

/-- A fraction of a second in as many groups of three digits as it needs. -/
def fractionText (nanoseconds : Nat) : String :=
  if nanoseconds = 0 then ""
  else if nanoseconds % 1000000 = 0 then "." ++ padded 3 (nanoseconds / 1000000)
  else if nanoseconds % 1000 = 0 then "." ++ padded 6 (nanoseconds / 1000)
  else "." ++ padded 9 nanoseconds

/-- The point in time some seconds after the beginning of 1970. -/
def ofSeconds (seconds : Int) (nanoseconds : Nat) : String :=
  let date := Date.ofDay (seconds / 86400)
  let second := (seconds % 86400).toNat
  padded 4 date.year.toNat ++ "-" ++ padded 2 date.month ++ "-" ++ padded 2 date.day ++ "T" ++
    padded 2 (second / 3600) ++ ":" ++ padded 2 (second / 60 % 60) ++ ":" ++
    padded 2 (second % 60) ++ fractionText nanoseconds ++ "Z"

end ResourceCatalog.Timestamp
