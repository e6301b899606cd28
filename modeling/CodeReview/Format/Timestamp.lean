import CodeReview.Calendar
import CodeReview.Text.Characters

/-!
# Timestamps

Moments in universal time, to the nanosecond, and how they are read and written.  A moment is read
from a date, a time and an offset with some freedom: numbers may be short and may have blanks in
front, also in front of the marks between them.  It is written with as few fraction digits out of
none, three, six and nine as lose nothing.

A minute may have a leap second.  It is kept as the second before it with a billion nanoseconds more.
-/

namespace CodeReview

/-- A moment: the day counted from the first of January 1970, the second of that day, and nanoseconds,
a billion or more of them in a leap second. -/
structure Timestamp where
  day : Int
  second : Nat
  nanos : Nat
deriving DecidableEq, Repr

namespace Timestamp

/-- The first and the last year of moments. -/
def yearRange : Int × Int := (-262143, 262142)

/-- Whether a day lies in the range of years. -/
def inRange (day : Int) : Bool :=
  (Date.mk yearRange.1 1 1).dayNumber ≤ day && day ≤ (Date.mk yearRange.2 12 31).dayNumber

def nanosPerSecond : Nat := 1000000000

def secondsPerDay : Nat := 86400

/-! ### Reading -/

/-- The digits at the start of a text, at least one and at most `width` of them. -/
def readDigits (width : Nat) (cs : List Char) : Option (List Char × List Char) :=
  let ds := (cs.take width).takeWhile isDigit
  if ds = [] then none else some (ds, cs.drop ds.length)

/-- A number with blanks in front. -/
def readNumber (width : Nat) (cs : List Char) : Option (Nat × List Char) :=
  (readDigits width (trimLeft cs)).map fun r => (decimalValue r.1, r.2)

/-- A year with blanks in front: four digits at most, or any number of digits after a sign. -/
def readYear (cs : List Char) : Option (Int × List Char) :=
  match trimLeft cs with
  | '-' :: rest =>
    (readDigits rest.length rest).map fun r => (-(decimalValue r.1 : Int), r.2)
  | '+' :: rest => (readDigits rest.length rest).map fun r => ((decimalValue r.1 : Int), r.2)
  | rest => (readDigits 4 rest).map fun r => ((decimalValue r.1 : Int), r.2)

/-- The rest after a mark with blanks in front. -/
def readMark (mark : Char) (cs : List Char) : Option (List Char) :=
  match trimLeft cs with
  | c :: rest => if c = mark then some rest else none
  | [] => none

/-- The nanoseconds of a fraction, if there is one; digits beyond the ninth are read over. -/
def readFraction : List Char → Option (Nat × List Char)
  | '.' :: rest =>
    (readDigits 9 rest).map fun r =>
      (decimalValue r.1 * Nat.pow 10 (9 - r.1.length), r.2.dropWhile isDigit)
  | cs => some (0, cs)

def readDate (cs : List Char) : Option (Date × List Char) := do
  let (year, cs) ← readYear cs
  let (month, cs) ← readNumber 2 (← readMark '-' cs)
  let (day, cs) ← readNumber 2 (← readMark '-' cs)
  let date : Date := ⟨year, month, day⟩
  if date.isValid && yearRange.1 ≤ year && year ≤ yearRange.2 then some (date, cs) else none

/-- A time of day: its second and its nanoseconds. -/
def readTime (cs : List Char) : Option ((Nat × Nat) × List Char) := do
  let (hour, cs) ← readNumber 2 cs
  let (minute, cs) ← readNumber 2 (← readMark ':' cs)
  let (second, cs) ← readNumber 2 (← readMark ':' cs)
  let (nanos, cs) ← readFraction cs
  if 23 < hour || 59 < minute || 60 < second then none
  let leap := if second = 60 then nanosPerSecond else 0
  some ((hour * 3600 + minute * 60 + min second 59, nanos + leap), cs)

/-- Two digits. -/
def readPair : List Char → Option (Nat × List Char)
  | a :: b :: rest =>
    if isDigit a && isDigit b then some (decimalValue [a, b], rest) else none
  | _ => none

/-- An offset after its sign, in seconds: hours and minutes with colons and blanks between them. -/
def readOffset (cs : List Char) : Option (Nat × List Char) := do
  let (hours, cs) ← readPair cs
  let (minutes, cs) ← readPair (cs.dropWhile fun c => c = ':' || isBlank c)
  if minutes < 60 && hours < 24 then some (hours * 3600 + minutes * 60, cs) else none

/-- The offset from universal time, in seconds. -/
def readZone (cs : List Char) : Option (Int × List Char) :=
  if (cs.take 3).map lowerAscii = ['u', 't', 'c'] then some (0, cs.drop 3)
  else match cs with
    | [] => none
    | c :: rest =>
      if c = 'Z' ∨ c = 'z' then some (0, rest)
      else if c = '+' then (readOffset rest).map fun r => ((r.1 : Int), r.2)
      else if c = '-' ∨ c = '−' then (readOffset rest).map fun r => (-(r.1 : Int), r.2)
      else none

/-- Whether a character may stand between date and time. -/
def isSeparator (c : Char) : Bool :=
  c = 'T' || c = 't' || c = ' '

/-- Read a moment. -/
def parse? (text : String) : Option Timestamp := do
  let (date, cs) ← readDate text.toList
  if !cs.head?.any isSeparator then none
  let ((second, nanos), cs) ← readTime cs.tail
  let (offset, cs) ← readZone (trimLeft cs)
  if !(trimLeft cs).isEmpty then none
  let shifted : Int := second - offset
  let day := date.dayNumber + shifted / secondsPerDay
  if inRange day then some ⟨day, (shifted % secondsPerDay).toNat, nanos⟩ else none

/-! ### Writing -/

/-- A year with four digits at least, and with a sign unless it has exactly four. -/
def yearText (year : Int) : String :=
  if 0 ≤ year ∧ year ≤ 9999 then paddedDecimal 4 year.natAbs
  else (if year < 0 then "-" else "+") ++ paddedDecimal 4 year.natAbs

/-- A fraction with as few digits as lose nothing. -/
def fractionText (nanos : Nat) : String :=
  if nanos = 0 then ""
  else if nanos % 1000000 = 0 then "." ++ paddedDecimal 3 (nanos / 1000000)
  else if nanos % 1000 = 0 then "." ++ paddedDecimal 6 (nanos / 1000)
  else "." ++ paddedDecimal 9 nanos

/-- The text of a moment. -/
def render (t : Timestamp) : String :=
  let date := Date.ofDayNumber t.day
  let second := t.second % 60 + t.nanos / nanosPerSecond
  yearText date.year ++ "-" ++ paddedDecimal 2 date.month ++ "-" ++ paddedDecimal 2 date.day ++
    "T" ++ paddedDecimal 2 (t.second / 3600) ++ ":" ++ paddedDecimal 2 (t.second / 60 % 60) ++ ":" ++
    paddedDecimal 2 second ++ fractionText (t.nanos % nanosPerSecond) ++ "Z"

/-! ### Durations -/

/-- The leap seconds between two times of day: one that the earlier time stands in counts. -/
def leapBetween (source target : Timestamp) : Int :=
  if source.second < target.second then (if nanosPerSecond ≤ source.nanos then 1 else 0)
  else if target.second < source.second then (if nanosPerSecond ≤ target.nanos then -1 else 0)
  else 0

/-- The nanoseconds from one moment to another. -/
def nanosTo (source target : Timestamp) : Int :=
  let seconds := (target.day - source.day) * secondsPerDay +
    ((target.second : Int) - source.second + leapBetween source target)
  seconds * nanosPerSecond + ((target.nanos : Int) - source.nanos)

/-- The whole milliseconds from one moment to another. -/
def millisecondsTo (source target : Timestamp) : Int :=
  (source.nanosTo target).tdiv 1000000

end Timestamp

end CodeReview
