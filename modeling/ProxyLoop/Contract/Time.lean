import ProxyLoop.Contract.Text
import ProxyLoop.Guard.Terms

/-!
# Instants and integers, as Python reads them

`datetime.fromisoformat` and `astimezone(UTC)`, with instants in microseconds since the first of
January of the year 1, and `int` of a text.
-/

namespace ProxyLoop.Time

/-! ## Days -/

/-- A day of the proleptic Gregorian calendar. -/
structure Date where
  year : Nat
  month : Nat
  day : Nat
  deriving DecidableEq, Repr

def isLeap (year : Nat) : Bool := year % 4 = 0 && (year % 100 ≠ 0 || year % 400 = 0)

def daysInMonth (year month : Nat) : Nat :=
  match month with
  | 2 => if isLeap year then 29 else 28
  | 4 | 6 | 9 | 11 => 30
  | _ => 31

/-- The years are 1 to 9999. -/
def Date.valid (d : Date) : Bool :=
  1 ≤ d.year && d.year ≤ 9999 && 1 ≤ d.month && d.month ≤ 12 && 1 ≤ d.day &&
    d.day ≤ daysInMonth d.year d.month

def daysBeforeYear (year : Nat) : Nat :=
  let y := year - 1
  365 * y + y / 4 - y / 100 + y / 400

def daysBeforeMonth (year month : Nat) : Nat :=
  ((List.range' 1 (month - 1)).map (daysInMonth year)).sum

/-- `toordinal`: the number of a day, from 1. -/
def Date.ordinal (d : Date) : Nat := daysBeforeYear d.year + daysBeforeMonth d.year d.month + d.day

/-- The last day of the year 9999. -/
def maxOrdinal : Nat := 3652059

/-- `fromordinal` -/
def ofOrdinal (n : Nat) : Date :=
  -- the year is at most one off an estimate by the mean length of a year
  let guess := (n * 400) / 146097 + 1
  let year := if n ≤ daysBeforeYear guess then guess - 1 else
    if daysBeforeYear (guess + 1) < n then guess + 1 else guess
  let left := n - daysBeforeYear year
  let month := ((List.range' 1 12).filter fun m => daysBeforeMonth year m < left).length
  ⟨year, month, left - daysBeforeMonth year month⟩

/-! ## `datetime.fromisoformat` -/

def microsPerSecond : Nat := 1000000

def microsPerDay : Nat := 86400 * microsPerSecond

/-- A time of day, or the size of an offset, in microseconds. -/
structure Clock where
  hour : Nat
  minute : Nat
  second : Nat := 0
  micro : Nat := 0
  deriving DecidableEq, Repr

def Clock.micros (c : Clock) : Nat :=
  (c.hour * 3600 + c.minute * 60 + c.second) * microsPerSecond + c.micro

def Clock.valid (c : Clock) : Bool := c.hour < 24 && c.minute < 60 && c.second < 60

/-- Two digits, and the rest. -/
def pair? : List Char → Option (Nat × List Char)
  | a :: b :: rest => if isDigit a && isDigit b then some (Text.natOf [a, b], rest) else none
  | _ => none

/-- A fraction of a second: six digits count. -/
def fraction? (digits : List Char) : Option Nat :=
  if digits ≠ [] && digits.all isDigit then
    some (Text.natOf ((digits ++ List.replicate 6 '0').take 6))
  else none

/-- What follows the minutes. -/
def seconds? (hour minute : Nat) (text : List Char) : Option Clock := do
  let (second, rest) ← pair? text
  match rest with
  | [] => some { hour, minute, second }
  | c :: digits =>
    if c = '.' || c = ',' then
      let micro ← fraction? digits
      some { hour, minute, second, micro }
    else none

/-- `HH[:MM[:SS[.f]]]`, or the same without colons. -/
def clock? (text : List Char) : Option Clock := do
  let (hour, rest) ← pair? text
  match rest with
  | [] => some { hour, minute := 0 }
  | ':' :: rest =>
    let (minute, rest) ← pair? rest
    match rest with
    | [] => some { hour, minute }
    | ':' :: rest => seconds? hour minute rest
    | _ => none
  | rest =>
    let (minute, rest) ← pair? rest
    if rest = [] then some { hour, minute } else seconds? hour minute rest

/-- A zone's offset from UTC, in microseconds: less than a day. -/
def offset? (zone : List Char) : Option Int :=
  match zone with
  | ['Z'] => some 0
  | sign :: text =>
    if sign = '+' || sign = '-' then
      match clock? text with
      | some c =>
        if c.micros < microsPerDay then some (if sign = '-' then -(c.micros : Int) else c.micros)
        else none
      | none => none
    else none
  | [] => none

/-- A local time, with its offset if it has a zone. -/
structure Stamp where
  local_ : Nat
  offset : Option Int
  deriving DecidableEq, Repr

def Stamp.utc? (s : Stamp) : Option Int := s.offset.map fun o => s.local_ - o

/-- `YYYY-MM-DD` -/
def date? (text : List Char) : Option Date :=
  match text with
  | [a, b, c, d, '-', e, f, '-', g, h] =>
    let date : Date := ⟨Text.natOf [a, b, c, d], Text.natOf [e, f], Text.natOf [g, h]⟩
    if [a, b, c, d, e, f, g, h].all isDigit && date.valid then some date else none
  | _ => none

/-- `fromisoformat`, of a text that begins with an extended date: the only form `_zoned` lets
through.  CPython also scans texts that its documentation excludes, and they are left out: a fraction
of an hour or of a minute, one without digits, other characters between the time and the zone. -/
def fromIsoformat (text : List Char) : Option Stamp := do
  let date ← date? (text.take 10)
  let midnight := (date.ordinal - 1) * microsPerDay
  match text.drop 10 with
  -- a date, perhaps with a separator
  | [] | [_] => some ⟨midnight, none⟩
  | _ :: time =>
    let zone := time.dropWhile fun c => c ≠ '+' && c ≠ '-' && c ≠ 'Z'
    let clock ← clock? (time.take (time.length - zone.length))
    if !clock.valid then none
    else if zone = [] then some ⟨midnight + clock.micros, none⟩
    else do
      let offset ← offset? zone
      some ⟨midnight + clock.micros, some offset⟩

/-! ## UTC -/

/-- A decimal of at least `width` digits. -/
def padded (width n : Nat) : String :=
  let digits := toString n
  String.ofList (List.replicate (width - digits.length) '0') ++ digits

/-- `isoformat` of an instant in whole seconds, with `Z`. -/
def isoText (micros : Nat) : String :=
  let date := ofOrdinal (micros / microsPerDay + 1)
  let seconds := micros % microsPerDay / microsPerSecond
  padded 4 date.year ++ "-" ++ padded 2 date.month ++ "-" ++ padded 2 date.day ++ "T" ++
    padded 2 (seconds / 3600) ++ ":" ++ padded 2 (seconds / 60 % 60) ++ ":" ++
    padded 2 (seconds % 60) ++ "Z"

/-- The instant is in the years 1 to 9999. -/
def representable (micros : Int) : Bool := 0 ≤ micros && micros < maxOrdinal * microsPerDay

/-- `_utc_text` of a text: a naive time is a `ValueError`, and an instant outside the calendar an
`OverflowError`. -/
def utcText (text : String) : Except PyError String :=
  match (fromIsoformat text.toList).bind Stamp.utc? with
  | none => .error .value
  | some micros => if representable micros then .ok (isoText micros.toNat) else .error .overflow

/-! ## `int` -/

/-- Digits, with single underscores between them. -/
def numeral (digits : List Char) : Bool :=
  digits ≠ [] && digits.all (fun c => Text.isDecimal c || c = '_') && digits.head? ≠ some '_' &&
    digits.getLast? ≠ some '_' && (digits.zip digits.tail).all (· ≠ ('_', '_'))

def unsigned (text : List Char) : List Char :=
  match text with
  | '+' :: rest => rest
  | '-' :: rest => rest
  | rest => rest

/-- `int(text)`: a numeral, with a sign before and blanks around. -/
def int (text : String) : Except PyError Int :=
  let trimmed := Text.strip text.toList
  let value := Text.natOf ((unsigned trimmed).filter (· ≠ '_'))
  if numeral (unsigned trimmed) then
    .ok (if trimmed.head? = some '-' then -(value : Int) else value)
  else .error .value

theorem isDigit_iff {c : Char} : isDigit c = true ↔ 48 ≤ c.toNat ∧ c.toNat ≤ 57 := by
  unfold isDigit
  rw [Bool.and_eq_true, decide_eq_true_eq, decide_eq_true_eq]
  exact Iff.rfl

end ProxyLoop.Time
