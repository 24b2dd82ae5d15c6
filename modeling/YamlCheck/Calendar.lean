/-!
# Dates and times

Days of the Gregorian calendar from the year 1 to 9999, times of day to the microsecond, and
offsets from universal time to the minute.  Two times with an offset are equal when they are the
same instant.
-/

namespace YamlCheck

inductive CalendarProblem
  | year (n : Nat)
  | month
  | day
  | hour
  | minute
  | second
  /-- An offset of a day or more, in minutes. -/
  | offset (minutes : Int)
  deriving Repr, DecidableEq

structure Date where
  year : Nat
  month : Nat
  day : Nat
  deriving Repr, DecidableEq

structure DateTime where
  date : Date
  hour : Nat
  minute : Nat
  second : Nat
  microsecond : Nat
  /-- Minutes ahead of universal time, if known. -/
  offset : Option Int
  deriving Repr, DecidableEq

namespace Calendar

/-- A span of minutes as whole days, rounded down, and the seconds left. -/
def spanParts (minutes : Int) : Int × Int :=
  (minutes.fdiv 1440, minutes.fmod 1440 * 60)

def spanText (minutes : Int) : String :=
  let (days, seconds) := spanParts minutes
  let parts :=
    (if days != 0 then ["days=" ++ toString days] else [])
      ++ (if seconds != 0 then ["seconds=" ++ toString seconds] else [])
  "datetime.timedelta(" ++ (if parts.isEmpty then "0" else ", ".intercalate parts) ++ ")"

def isLeap (year : Nat) : Bool := year % 4 == 0 && (year % 100 != 0 || year % 400 == 0)

def daysInMonth (year month : Nat) : Nat :=
  if month == 2 then (if isLeap year then 29 else 28)
  else if month == 4 || month == 6 || month == 9 || month == 11 then 30
  else 31

def daysBeforeYear (year : Nat) : Nat :=
  let y := year - 1
  y * 365 + y / 4 - y / 100 + y / 400

def daysBeforeMonth (year : Nat) : Nat → Nat
  | 0 | 1 => 0
  | month + 2 => daysBeforeMonth year (month + 1) + daysInMonth year (month + 1)

end Calendar

open Calendar

def CalendarProblem.message : CalendarProblem → String
  | .year n => "year " ++ toString n ++ " is out of range"
  | .month => "month must be in 1..12"
  | .day => "day is out of range for month"
  | .hour => "hour must be in 0..23"
  | .minute => "minute must be in 0..59"
  | .second => "second must be in 0..59"
  | .offset minutes =>
    "offset must be a timedelta strictly between -timedelta(hours=24) and timedelta(hours=24), not "
      ++ spanText minutes ++ "."

def padNumber (width n : Nat) : String :=
  let ds := Nat.toDigits 10 n
  String.ofList (List.replicate (width - ds.length) '0' ++ ds)

namespace Date

def make (year month day : Nat) : Except CalendarProblem Date :=
  if year < 1 || 9999 < year then .error (.year year)
  else if month < 1 || 12 < month then .error .month
  else if day < 1 || daysInMonth year month < day then .error .day
  else .ok ⟨year, month, day⟩

def ordinal (d : Date) : Nat :=
  daysBeforeYear d.year + daysBeforeMonth d.year d.month + d.day

def next? (d : Date) : Option Date :=
  if d.day < daysInMonth d.year d.month then some { d with day := d.day + 1 }
  else if d.month < 12 then some ⟨d.year, d.month + 1, 1⟩
  else if d.year < 9999 then some ⟨d.year + 1, 1, 1⟩
  else none

def text (d : Date) : String :=
  padNumber 4 d.year ++ "-" ++ padNumber 2 d.month ++ "-" ++ padNumber 2 d.day

end Date

namespace DateTime

def make (year month day hour minute second microsecond : Nat) (offset : Option Int) :
    Except CalendarProblem DateTime := do
  let date ← Date.make year month day
  if 23 < hour then throw .hour
  else if 59 < minute then throw .minute
  else if 59 < second then throw .second
  else return ⟨date, hour, minute, second, microsecond, offset⟩

def checkOffset (minutes : Int) : Except CalendarProblem Int :=
  if 1440 ≤ minutes.natAbs then .error (.offset minutes) else .ok minutes

def nextSecond? (t : DateTime) : Option DateTime :=
  if t.second < 59 then some { t with second := t.second + 1 }
  else if t.minute < 59 then some { t with minute := t.minute + 1, second := 0 }
  else if t.hour < 23 then some { t with hour := t.hour + 1, minute := 0, second := 0 }
  else t.date.next?.map fun d => { t with date := d, hour := 0, minute := 0, second := 0 }

/-- Microseconds since the first day, by the clock of the time itself. -/
def localMicroseconds (t : DateTime) : Int :=
  (((t.date.ordinal * 24 + t.hour) * 60 + t.minute) * 60 + t.second : Nat) * 1000000
    + (t.microsecond : Int)

/-- Equality of times: the same instant if both have an offset, the same numbers if neither has,
and never otherwise. -/
def same (a b : DateTime) : Bool :=
  match a.offset, b.offset with
  | none, none => a == b
  | some x, some y =>
    a.localMicroseconds - x * 60000000 == b.localMicroseconds - y * 60000000
  | _, _ => false

def offsetText (minutes : Int) : String :=
  (if minutes < 0 then "-" else "+") ++ padNumber 2 (minutes.natAbs / 60) ++ ":"
    ++ padNumber 2 (minutes.natAbs % 60)

/-- The text of a time, with `sep` between the day and the time of day; the fraction is left out
if it is zero. -/
def text (sep : String) (t : DateTime) : String :=
  t.date.text ++ sep ++ padNumber 2 t.hour ++ ":" ++ padNumber 2 t.minute ++ ":"
    ++ padNumber 2 t.second
    ++ (if t.microsecond == 0 then "" else "." ++ padNumber 6 t.microsecond)
    ++ (match t.offset with
      | none => ""
      | some m => offsetText m)

end DateTime

end YamlCheck
