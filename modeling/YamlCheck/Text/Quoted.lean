import YamlCheck.Text.Letters
import YamlCheck.Text.Printable

/-!
# Quoted display

Texts and byte strings are shown to the user between quotes: an apostrophe on either side, or a
double quote if the content holds an apostrophe and no double quote.  Inside, the backslash and
the chosen quote are preceded by a backslash, the three usual blanks have letters of their own and
whatever is not printable is written by its code in hexadecimal.
-/

namespace YamlCheck.Text

/-- `n` in lower-case hexadecimal, with leading zeros up to `width` digits. -/
def hexDigits (width n : Nat) : List Char :=
  let ds := Nat.toDigits 16 n
  List.replicate (width - ds.length) '0' ++ ds

def quoteFor (content : List Char) : Char :=
  if content.contains '\'' && !content.contains '"' then '"' else '\''

/-- A code that is not shown as a character. -/
def escapeCode (n : Nat) : List Char :=
  if n < 0x100 then '\\' :: 'x' :: hexDigits 2 n
  else if n < 0x10000 then '\\' :: 'u' :: hexDigits 4 n
  else '\\' :: 'U' :: hexDigits 8 n

def quoteChar (quote c : Char) : List Char :=
  if c == quote || c == '\\' then ['\\', c]
  else if c == '\t' then ['\\', 't']
  else if c == '\n' then ['\\', 'n']
  else if c == '\r' then ['\\', 'r']
  else if isPrintable c then [c]
  else escapeCode c.toNat

def quoteLetter (quote : Char) : Letter → List Char
  | .char c => quoteChar quote c
  | .half index => escapeCode (Letter.half index).code

def quoted (s : Letters) : String :=
  let q := quoteFor s.faces
  String.ofList (q :: (s.list.flatMap (quoteLetter q) ++ [q]))

def quotedChar (c : Char) : String := quoted c.toString

/-- The place of letters that an encoding has no bytes for: one position or a range. -/
def positionsText (start stop : Nat) (first : Letter) : String :=
  if start == stop then
    "character '" ++ String.ofList (escapeCode first.code) ++ "' in position " ++ toString start
  else "characters in position " ++ toString start ++ "-" ++ toString stop

/-- A text as it is printed: halves are written by their codes. -/
def Letters.printed (s : Letters) : String :=
  String.ofList <| s.list.flatMap fun
    | .char c => [c]
    | .half index => escapeCode (Letter.half index).code

def quoteByte (quote : Char) (b : UInt8) : List Char :=
  if b < 0x7f then quoteChar quote (Char.ofNat b.toNat) else '\\' :: 'x' :: hexDigits 2 b.toNat

/-- The quoted display of a byte string, marked by a leading `b`. -/
def quotedBytes (bs : List UInt8) : String :=
  let q := quoteFor (bs.map fun b => Char.ofNat b.toNat)
  String.ofList ('b' :: q :: (bs.flatMap (quoteByte q) ++ [q]))

def hexOfBytes (bs : List UInt8) : String :=
  String.ofList (bs.flatMap fun b => hexDigits 2 b.toNat)

end YamlCheck.Text
