import YamlCheck.Text.Letters
import YamlCheck.Yaml.Dialect

/-!
# Tags

A tag names the type of a node.  A plain scalar without a tag gets the first type whose pattern
its text fits; the patterns depend on the dialect and on the version of the language.  A line feed
at the end of the text does not count.
-/

namespace YamlCheck.Yaml

open YamlCheck.Text

namespace Tag

def null : String := "tag:yaml.org,2002:null"
def bool : String := "tag:yaml.org,2002:bool"
def int : String := "tag:yaml.org,2002:int"
def float : String := "tag:yaml.org,2002:float"
def binary : String := "tag:yaml.org,2002:binary"
def timestamp : String := "tag:yaml.org,2002:timestamp"
def omap : String := "tag:yaml.org,2002:omap"
def pairs : String := "tag:yaml.org,2002:pairs"
def set : String := "tag:yaml.org,2002:set"
def str : String := "tag:yaml.org,2002:str"
def seq : String := "tag:yaml.org,2002:seq"
def map : String := "tag:yaml.org,2002:map"
def merge : String := "tag:yaml.org,2002:merge"
def value : String := "tag:yaml.org,2002:value"
def yaml : String := "tag:yaml.org,2002:yaml"

end Tag

/-- The patterns of the types: those of the classic dialect, and those of the modern one under
either version. -/
inductive Schema
  | classic
  | modern11
  | modern12
  deriving Repr, DecidableEq

namespace Schema

/-- At least one character, and all of them satisfy `p`. -/
def some1 (p : Char → Bool) (s : List Char) : Bool := !s.isEmpty && s.all p

def digitOrBar (c : Char) : Bool := isDigit c || c == '_'

def octalOrBar (c : Char) : Bool := ('0' ≤ c && c ≤ '7') || c == '_'

def binaryOrBar (c : Char) : Bool := c == '0' || c == '1' || c == '_'

def hexOrBar (c : Char) : Bool := isHexDigit c || c == '_'

def unsigned : List Char → List Char
  | '-' :: rest => rest
  | '+' :: rest => rest
  | s => s

/-- Digits, the first of them no bar. -/
def isNumeral (s : List Char) : Bool := isDigit (s.headD ' ') && s.all digitOrBar

/-- One digit, or two below sixty. -/
def isSixtieth : List Char → Bool
  | [b] => isDigit b
  | [a, b] => '0' ≤ a && a ≤ '5' && isDigit b
  | _ => false

def colonParts (s : List Char) : List (List Char) := s.splitOn ':'

/-- A numeral with at least one group to the base of sixty after it. -/
def isSexagesimal (first : List Char → Bool) (s : List Char) : Bool :=
  match colonParts s with
  | a :: b :: rest => first a && (b :: rest).all isSixtieth
  | _ => false

/-- Nothing, or the mark of an exponent with its digits. -/
def isExponent (signed : Bool) : List Char → Bool
  | [] => true
  | e :: rest =>
    (e == 'e' || e == 'E')
      && (match rest with
        | '-' :: ds => some1 isDigit ds
        | '+' :: ds => some1 isDigit ds
        | ds => !signed && some1 isDigit ds)

/-- A numeral that does not start with zero, or zero. -/
def isDecimal (s : List Char) : Bool :=
  s == ['0'] || (isNumeral s && s.headD '0' != '0')

def isBool (k : Schema) (s : String) : Bool :=
  let old := ["yes", "Yes", "YES", "no", "No", "NO", "on", "On", "ON", "off", "Off", "OFF"]
  ["true", "True", "TRUE", "false", "False", "FALSE"].contains s
    || (k != .modern12 && old.contains s)
    || (k == .modern11 && ["y", "Y", "n", "N"].contains s)

def startsInt (s : List Char) : Bool :=
  let c := s.headD ' '
  c == '-' || c == '+' || isDigit c

def isInt (k : Schema) (s : List Char) : Bool :=
  let body := unsigned s
  startsInt s
    && ((match body with
      | '0' :: 'b' :: ds => some1 binaryOrBar ds
      | '0' :: 'x' :: ds => some1 hexOrBar ds
      | '0' :: 'o' :: ds => k == .modern12 && some1 octalOrBar ds
      | _ => false)
    || (match k with
      | .classic =>
        isDecimal body || (body.headD ' ' == '0' && some1 octalOrBar body.tail)
          || isSexagesimal (fun a => isNumeral a && a.headD '0' != '0') body
      | .modern11 =>
        isDecimal body || some1 octalOrBar body
          || isSexagesimal (fun a => isNumeral a && a.headD '0' != '0') body
      | .modern12 => some1 digitOrBar body))

/-- The part of a number after its whole digits. -/
def isFraction (signedExponent : Bool) : List Char → Bool
  | '.' :: rest => isExponent signedExponent (rest.dropWhile digitOrBar)
  | _ => false

def isPointFirst (k : Schema) (s : List Char) : Bool :=
  match s with
  | '.' :: rest =>
    let ds := rest.takeWhile digitOrBar
    (if k == .classic then isNumeral ds else !ds.isEmpty)
      && isExponent true (rest.dropWhile digitOrBar)
  | _ => false

def isFloat (k : Schema) (s : List Char) : Bool :=
  let body := unsigned s
  let whole := body.takeWhile digitOrBar
  let rest := body.dropWhile digitOrBar
  (isNumeral whole && isFraction (k == .classic) rest)
    || (k != .classic && isNumeral whole && !rest.isEmpty && isExponent false rest)
    || isPointFirst k (if k == .modern12 then body else s)
    || (k != .modern12 && isSexagesimalFloat body)
    || [".inf", ".Inf", ".INF"].contains (String.ofList body)
    || [".nan", ".NaN", ".NAN"].contains (String.ofList s)
where
  isSexagesimalFloat (body : List Char) : Bool :=
    match body.dropWhile (· != '.') with
    | '.' :: fraction =>
      isSexagesimal isNumeral (body.takeWhile (· != '.')) && fraction.all digitOrBar
    | _ => false

/-- One or two digits at the front, and the rest. -/
def shortNumber? : List Char → Option (List Char × List Char)
  | a :: b :: rest =>
    if !isDigit a then none else if isDigit b then some ([a, b], rest) else some ([a], b :: rest)
  | [a] => if isDigit a then some ([a], []) else none
  | [] => none

/-- Exactly `n` digits at the front, and the rest. -/
def digits? (n : Nat) (s : List Char) : Option (List Char × List Char) :=
  if (s.take n).length == n && (s.take n).all isDigit then some (s.take n, s.drop n) else none

end Schema

structure WrittenTime where
  hour : List Char
  minute : List Char
  second : List Char
  fraction : List Char
  /-- The offset from universal time: its sign, hours and minutes. -/
  offset : Option (Bool × List Char × List Char)
  /-- Whether the offset is written as the letter of universal time. -/
  universal : Bool
  deriving Repr, DecidableEq

/-- A date as it is written, perhaps with a time. -/
structure WrittenTimestamp where
  year : List Char
  month : List Char
  day : List Char
  time : Option WrittenTime
  deriving Repr, DecidableEq

namespace WrittenTimestamp

open Schema

def readOffset? : List Char → Option (Option (Bool × List Char × List Char) × Bool)
  | [] => some (none, false)
  | s =>
    match s.dropWhile fun c => c == ' ' || c == '\t' with
    | ['Z'] => some (none, true)
    | c :: rest => do
      if c != '-' && c != '+' then none
      let (hours, rest) ← shortNumber? rest
      match rest with
      | [] => some (some (c == '-', hours, []), false)
      | ':' :: rest => do
        let (minutes, rest) ← digits? 2 rest
        if rest.isEmpty then some (some (c == '-', hours, minutes), false) else none
      | _ => none
    | [] => none

def readTime? (s : List Char) : Option WrittenTime := do
  let s ← match s with
    | 'T' :: rest => some rest
    | 't' :: rest => some rest
    | c :: rest =>
      if c == ' ' || c == '\t' then some (rest.dropWhile fun c => c == ' ' || c == '\t') else none
    | [] => none
  let (hour, s) ← shortNumber? s
  let (minute, s) ← match s with
    | ':' :: rest => digits? 2 rest
    | _ => none
  let (second, s) ← match s with
    | ':' :: rest => digits? 2 rest
    | _ => none
  let (fraction, s) := match s with
    | '.' :: rest => (rest.takeWhile isDigit, rest.dropWhile isDigit)
    | _ => ([], s)
  let (offset, universal) ← readOffset? s
  return ⟨hour, minute, second, fraction, offset, universal⟩

/-- Reads a date or a date with a time.  Month and day may have one digit. -/
def read? (s : List Char) : Option WrittenTimestamp := do
  let (year, s) ← digits? 4 s
  let (month, s) ← match s with
    | '-' :: rest => shortNumber? rest
    | _ => none
  let (day, s) ← match s with
    | '-' :: rest => shortNumber? rest
    | _ => none
  if s.isEmpty then return ⟨year, month, day, none⟩
  else return ⟨year, month, day, some (← readTime? s)⟩

/-- Whether a plain scalar is a timestamp: a date without a time has two digits for month and
day. -/
def isPlain (s : List Char) : Bool :=
  match read? s with
  | none => false
  | some t => t.time.isSome || (t.month.length == 2 && t.day.length == 2)

end WrittenTimestamp

/-- Drops one line feed at the end. -/
def dropLastBreak (s : List Char) : List Char :=
  if s.getLast? == some '\n' then s.dropLast else s

namespace Schema

def resolve (k : Schema) (text : Letters) : String :=
  if text.isEmpty then Tag.null
  else
    let s := dropLastBreak text.faces
    let t := String.ofList s
    if k.isBool t then Tag.bool
    else if k.isFloat s then Tag.float
    else if k.isInt s then Tag.int
    else if t == "<<" then Tag.merge
    else if ["~", "null", "Null", "NULL"].contains t then Tag.null
    else if WrittenTimestamp.isPlain s then Tag.timestamp
    else if t == "=" then Tag.value
    else if ["!", "&", "*"].contains t then Tag.yaml
    else Tag.str

end Schema

end YamlCheck.Yaml
