import YamlCheck.Number.Binary64
import YamlCheck.Text.Numeral
import YamlCheck.Text.Quoted

/-!
# Reading numerals

A numeral may be surrounded by white space, may carry a sign and may use the decimal digits of any
script.  An integer in base 2, 8 or 16 may repeat the mark of its base (`0b`, `0o`, `0x`); in any
other base its digits are limited in number.
-/

namespace YamlCheck.Number

open YamlCheck.Text

inductive NumeralProblem
  | notInteger (base : Nat) (text : Letters)
  | tooManyDigits (count : Nat)
  | notFloat (text : Letters)
  deriving Repr, DecidableEq

/-- The most digits of an integer whose base is not a power of two. -/
def digitLimit : Nat := 4300

def NumeralProblem.message : NumeralProblem → String
  | .notInteger base text =>
    "invalid literal for int() with base " ++ toString base ++ ": "
      ++ String.ofList ((quoted text).toList.take 200)
  | .tooManyDigits count =>
    "Exceeds the limit (" ++ toString digitLimit
      ++ " digits) for integer string conversion: value has " ++ toString count
      ++ " digits; use sys.set_int_max_str_digits() to increase the limit"
  | .notFloat text => "could not convert string to float: " ++ quoted text

def trimBlanks (s : List Char) : List Char :=
  ((s.dropWhile isAsciiBlank).reverse.dropWhile isAsciiBlank).reverse

def digitIn? (base : Nat) (c : Char) : Option Nat :=
  let n := c.toNat
  let v :=
    if 0x30 ≤ n && n ≤ 0x39 then n - 0x30
    else if 0x41 ≤ n && n ≤ 0x5a then n - 0x41 + 10
    else if 0x61 ≤ n && n ≤ 0x7a then n - 0x61 + 10
    else 36
  if v < base then some v else none

def digitsValue (base : Nat) (ds : List Char) : Nat :=
  ds.foldl (fun n c => n * base + (digitIn? base c).getD 0) 0

def takeSign : List Char → Bool × List Char
  | '-' :: rest => (true, rest)
  | '+' :: rest => (false, rest)
  | s => (false, s)

/-- Drops the mark of the base, which may precede its digits. -/
def dropBaseMark (base : Nat) : List Char → List Char
  | '0' :: c :: rest =>
    if (base == 16 && (c == 'x' || c == 'X')) || (base == 8 && (c == 'o' || c == 'O'))
        || (base == 2 && (c == 'b' || c == 'B')) then rest
    else '0' :: c :: rest
  | s => s

def readInteger (base : Nat) (text : Letters) : Except NumeralProblem Int :=
  let (negative, body) := takeSign (trimBlanks (plainNumeral text.faces))
  let body := dropBaseMark base body
  let ds := body.takeWhile fun c => (digitIn? base c).isSome
  let limited := base != 2 && base != 8 && base != 16
  if limited && digitLimit < ds.length then .error (.tooManyDigits ds.length)
  else if ds.isEmpty || ds.length != body.length then .error (.notInteger base text)
  else
    let n : Int := digitsValue base ds
    .ok (if negative then -n else n)

private def isDigit (c : Char) : Bool := '0' ≤ c && c ≤ '9'

/-- Reads the exponent of a decimal, the mark included; nothing at all is exponent zero. -/
def readExponent? : List Char → Option Int
  | [] => some 0
  | c :: rest =>
    if c == 'e' || c == 'E' then
      let (negative, ds) := takeSign rest
      if ds.isEmpty || !ds.all isDigit then none
      else
        let n : Int := digitsValue 10 ds
        some (if negative then -n else n)
    else none

/-- Reads a decimal without sign: digits with an optional point among them and an optional
exponent. -/
def readDecimal? (negative : Bool) (s : List Char) : Option Binary64 :=
  let whole := s.takeWhile isDigit
  let rest := s.dropWhile isDigit
  let (fraction, rest) := match rest with
    | '.' :: more => (more.takeWhile isDigit, more.dropWhile isDigit)
    | _ => ([], rest)
  if whole.isEmpty && fraction.isEmpty then none
  else (readExponent? rest).map fun x =>
    Binary64.ofDecimal negative (digitsValue 10 (whole ++ fraction)) (x - fraction.length)

def readFloat (text : Letters) : Except NumeralProblem Binary64 :=
  let (negative, body) := takeSign (trimBlanks (plainNumeral text.faces))
  let word := (String.ofList body).toLower
  if word == "inf" || word == "infinity" then .ok (.infinite negative)
  else if word == "nan" then .ok .nan
  else match readDecimal? negative body with
    | some x => .ok x
    | none => .error (.notFloat text)

end YamlCheck.Number
