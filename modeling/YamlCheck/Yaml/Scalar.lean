import YamlCheck.Number.Shortest
import YamlCheck.Text.Lowercase
import YamlCheck.Yaml.LoadError
import YamlCheck.Yaml.Tag

/-!
# Scalar values

What the text of a scalar denotes once its type is known, when two such values are the same key,
and how they are shown.
-/

namespace YamlCheck.Yaml

open YamlCheck.Text YamlCheck.Number

/-- A value without parts.  No number equals itself unless it is the very same value, so a value
that is no number carries the node it was made from; the one that its own word denotes is shared
by all nodes. -/
inductive Scalar
  | null
  | bool (b : Bool)
  | int (i : Int)
  | float (x : Binary64) (origin : Option Nat)
  | text (s : Letters)
  | bytes (bs : List UInt8)
  | date (d : Date)
  | dateTime (t : DateTime)
  deriving Repr, DecidableEq

/-- The types of scalars. -/
inductive ScalarType
  | null
  | bool
  | int
  | float
  | text
  | bytes
  | date
  | dateTime
  deriving Repr, DecidableEq

namespace Scalar

def type : Scalar → ScalarType
  | .null => .null
  | .bool _ => .bool
  | .int _ => .int
  | .float .. => .float
  | .text _ => .text
  | .bytes _ => .bytes
  | .date _ => .date
  | .dateTime _ => .dateTime

/-- The integer that a truth value counts as. -/
def intOfBool (b : Bool) : Int := if b then 1 else 0

/-- Whether two values are one key: truth values and whole numbers of either kind are compared as
numbers, times as instants. -/
def same : Scalar → Scalar → Bool
  | .null, .null => true
  | .bool a, .bool b => a == b
  | .bool a, .int b => intOfBool a == b
  | .int a, .bool b => a == intOfBool b
  | .int a, .int b => a == b
  | .bool a, .float x _ => x.eqInt (intOfBool a)
  | .float x _, .bool b => x.eqInt (intOfBool b)
  | .int a, .float x _ => x.eqInt a
  | .float x _, .int b => x.eqInt b
  | .float x o, .float y o' => x.numEq y || (x.isNan && y.isNan && o == o')
  | .text a, .text b => a == b
  | .bytes a, .bytes b => a == b
  | .date a, .date b => a == b
  | .dateTime a, .dateTime b => a.same b
  | _, _ => false

def offsetDisplay (minutes : Int) : String :=
  if minutes == 0 then "datetime.timezone.utc"
  else "datetime.timezone(" ++ Calendar.spanText minutes ++ ")"

def dateDisplay (d : Date) : String :=
  "datetime.date(" ++ ", ".intercalate [toString d.year, toString d.month, toString d.day] ++ ")"

/-- A time with its parts in parentheses; seconds and microseconds are left out if they and all
after them are zero. -/
def dateTimeDisplay (t : DateTime) : String :=
  let tail :=
    if t.microsecond != 0 then [t.second, t.microsecond]
    else if t.second != 0 then [t.second]
    else []
  let parts := ([t.date.year, t.date.month, t.date.day, t.hour, t.minute] ++ tail).map toString
  let zone := match t.offset with
    | none => []
    | some m => ["tzinfo=" ++ offsetDisplay m]
  "datetime.datetime(" ++ ", ".intercalate (parts ++ zone) ++ ")"

/-- Whether an integer has more decimal digits than can be shown. -/
def isLong (i : Int) : Bool := tenTo digitLimit ≤ i.natAbs

def intDisplay (i : Int) : Except LoadError String :=
  if isLong i then .error (.badValue .longInteger) else .ok (toString i)

def display : Scalar → Except LoadError String
  | .null => .ok "None"
  | .bool b => .ok (if b then "True" else "False")
  | .int i => intDisplay i
  | .float x _ => .ok x.text
  | .text s => .ok (quoted s)
  | .bytes bs => .ok (quotedBytes bs)
  | .date d => .ok (dateDisplay d)
  | .dateTime t => .ok (dateTimeDisplay t)

def kindName : Scalar → String
  | .null => "NoneType"
  | .bool _ => "bool"
  | .int _ => "int"
  | .float .. => "float"
  | .text _ => "str"
  | .bytes _ => "bytes"
  | .date _ => "date"
  | .dateTime _ => "datetime"

/-- The text of a value: a text and a time as they are, all else as displayed. -/
def plainText : Scalar → Except LoadError Letters
  | .text s => .ok s
  | .date d => .ok d.text
  | .dateTime t => .ok (t.text " ")
  | s => s.display.map Letters.ofText

end Scalar

def dropBars (s : Letters) : List Letter := s.list.filter (· != .char '_')

/-- A sign and the rest of a numeral, which must not be empty. -/
def splitSign (s : List Letter) : Except LoadError (Bool × List Letter) :=
  match s with
  | [] => .error (.breakdown .emptyNumeral)
  | .char '-' :: rest => .ok (true, rest)
  | .char '+' :: rest => .ok (false, rest)
  | _ => .ok (false, s)

/-- The parts of a numeral between colons. -/
def groups (s : List Letter) : List (List Letter) := s.splitOn (.char ':')

def readInt (base : Nat) (s : List Letter) : Except LoadError Int :=
  match readInteger base ⟨s⟩ with
  | .ok i => .ok i
  | .error p => .error (.badValue (.numeral p))

def readNumber (s : List Letter) : Except LoadError Binary64 :=
  match readFloat ⟨s⟩ with
  | .ok x => .ok x
  | .error p => .error (.badValue (.numeral p))

/-- The value of groups of digits to the base of sixty. -/
def sixties (ds : List Int) : Int := ds.foldl (fun n d => n * 60 + d) 0

/-- The integer that a text denotes.  A leading zero means base eight in the classic patterns and
in the modern ones of version 1.1. -/
def intOf (k : Schema) (text : Letters) : Except LoadError Int := do
  let (negative, s) ← splitSign (dropBars text)
  let i ← match s with
    | [.char '0'] => pure 0
    | .char '0' :: .char 'b' :: ds => readInt 2 ds
    | .char '0' :: .char 'x' :: ds => readInt 16 ds
    | .char '0' :: .char 'o' :: ds => readInt 8 (if k == .classic then s else ds)
    | _ =>
      if k == .modern12 then readInt 10 s
      else match s with
        | [] => throw (.breakdown .emptyNumeral)
        | .char '0' :: _ => readInt 8 s
        | _ =>
          if s.contains (.char ':') then do
            let ds ← (groups s).mapM (readInt 10)
            pure (sixties ds)
          else readInt 10 s
  return if negative then -i else i

/-- Adds up groups to the base of sixty, the last of them first. -/
def addSixties : List Binary64 → Nat → Binary64 → Except LoadError Binary64
  | [], _, sum => .ok sum
  | x :: rest, base, sum =>
    match Binary64.ofNat? base with
    | none => .error (.breakdown .hugeInteger)
    | some b => addSixties rest (base * 60) (sum.add (x.mul b))

/-- The number that a text denotes, made from the node `origin`. -/
def floatOf (k : Schema) (origin : Nat) (text : Letters) : Except LoadError Scalar := do
  let (negative, s) ← splitSign (Letters.lowercase ⟨dropBars text⟩).list
  let signed (x : Binary64) : Scalar := .float (if negative then x.neg else x) (some origin)
  if s == (Letters.ofText ".inf").list then return signed (.infinite false)
  else if s == (Letters.ofText ".nan").list then return .float .nan none
  else if k != .modern12 && s.contains (.char ':') then
    let xs ← (groups s).mapM readNumber
    return signed (← addSixties xs.reverse 1 (.zero false))
  else if k == .modern11 && 2 ≤ s.count (.char 'e') then throw (.badValue .manyExponents)
  else return signed (← readNumber s)

def boolOf (d : Dialect) (text : Letters) : Except LoadError Bool :=
  let word := text.lowercase
  let isOne (words : List String) : Bool := words.any (↑· == word)
  if isOne ["yes", "true", "on"] || (d == .modern && isOne ["y"]) then .ok true
  else if isOne ["no", "false", "off"] || (d == .modern && isOne ["n"]) then .ok false
  else .error (.breakdown (.unknownWord word))

/-- The bytes that a text in base 64 denotes; `mark` is the place of its node. -/
def bytesOf (mark : Mark) (text : Letters) : Except LoadError (List UInt8) :=
  let complain (p : Problem) : Except LoadError (List UInt8) :=
    .error (.complaint .constructing { problem := some p, problemMark := some mark })
  match text.list.findIdx? (128 ≤ ·.code) with
  | some i =>
    let run := (text.list.drop i).takeWhile (128 ≤ ·.code)
    complain (.notAscii i (i + run.length - 1) (run.headD (.char endChar)))
  | none =>
    match Base64.decode text.faces with
    | .ok bs => .ok bs
    | .error p => complain (.notBase64 p)

def natOf (ds : List Char) : Nat := digitsValue 10 ds

/-- The first six digits of a fraction as microseconds. -/
def microseconds (ds : List Char) : Nat :=
  let six := ds.take 6
  natOf (six ++ List.replicate (6 - six.length) '0')

/-- Whether the modern dialect rounds a fraction up. -/
def roundsUp (d : Dialect) (ds : List Char) : Bool :=
  d == .modern && 4 < natOf ((ds.drop 6).take 1)

def calendar {α : Type} (r : Except CalendarProblem α) : Except LoadError α :=
  r.mapError fun p => .badValue (.calendar p)

/-- The offset of a written time, in minutes. -/
def offsetOf (t : WrittenTime) : Except LoadError (Option Int) :=
  match t.offset with
  | some (negative, hours, minutes) => do
    let m : Int := natOf hours * 60 + natOf minutes
    return some (← calendar (DateTime.checkOffset (if negative then -m else m)))
  | none => .ok (if t.universal then some 0 else none)

/-- The date or time that is written.  The classic dialect cuts a fraction to microseconds, the
modern one rounds it. -/
def timestampOf (d : Dialect) (w : WrittenTimestamp) : Except LoadError Scalar := do
  let year := natOf w.year
  let month := natOf w.month
  let day := natOf w.day
  match w.time with
  | none => return .date (← calendar (Date.make year month day))
  | some t =>
    let offset ← offsetOf t
    let micro := microseconds t.fraction + (if roundsUp d t.fraction then 1 else 0)
    let carry := micro == 1000000
    let time ← calendar (DateTime.make year month day (natOf t.hour) (natOf t.minute)
      (natOf t.second) (if carry then 0 else micro) offset)
    if carry then
      match time.nextSecond? with
      | some time => return .dateTime time
      | none => throw (.breakdown .calendarEnd)
    else return .dateTime time

end YamlCheck.Yaml
