/-!
# Reading UTF-8

`Utf8.decode` turns bytes into characters up to the first bad sequence.  A fault says where the
sequence starts, how many bytes of it are to blame and how many bytes had to be known before the
fault showed; a reader that works block by block needs the last of these.
-/

namespace YamlCheck.Text

inductive EncodingProblem
  | invalidStart
  | invalidContinuation
  | unexpectedEnd
  | truncatedUnit
  | illegalSurrogate
  | illegalEncoding
  deriving Repr, DecidableEq

def EncodingProblem.text : EncodingProblem → String
  | .invalidStart => "invalid start byte"
  | .invalidContinuation => "invalid continuation byte"
  | .unexpectedEnd => "unexpected end of data"
  | .truncatedUnit => "truncated data"
  | .illegalSurrogate => "illegal UTF-16 surrogate"
  | .illegalEncoding => "illegal encoding"

/-- The first bad sequence of a byte stream. -/
structure EncodingFault where
  /-- Offset of the first byte of the sequence. -/
  start : Nat
  length : Nat
  byte : UInt8
  /-- Number of bytes of the stream after which the fault shows; `none` if only the end of the
  stream shows it. -/
  seen : Option Nat
  problem : EncodingProblem
  deriving Repr, DecidableEq

/-- Characters, each with the offset just after its last byte, and the fault that ended them. -/
structure Decoded where
  chars : Array (Char × Nat)
  fault : Option EncodingFault

namespace Utf8

def isContinuation (b : UInt8) : Bool := 0x80 ≤ b && b < 0xc0

/-- Whether `b` may follow the start byte `start` of a sequence of three or four bytes: overlong
forms, surrogates and code points beyond the last one are refused here. -/
def isSecond (start b : UInt8) : Bool :=
  isContinuation b
    && (start != 0xe0 || 0xa0 ≤ b) && (start != 0xed || b < 0xa0)
    && (start != 0xf0 || 0x90 ≤ b) && (start != 0xf4 || b < 0x90)

/-- The code point spelt by a start byte with its payload mask and its continuation bytes. -/
def codePoint (mask : Nat) (start : UInt8) (more : List UInt8) : Char :=
  Char.ofNat (more.foldl (fun n b => n * 64 + b.toNat % 64) (start.toNat % mask))

/-- Decodes from offset `i` on, after the characters `acc`. -/
def decodeFrom (i : Nat) (acc : Array (Char × Nat)) : List UInt8 → Decoded
  | [] => ⟨acc, none⟩
  | a :: rest =>
    let bad (length : Nat) (seen : Option Nat) (p : EncodingProblem) : Decoded :=
      ⟨acc, some ⟨i, length, a, seen, p⟩⟩
    if a < 0x80 then decodeFrom (i + 1) (acc.push (Char.ofNat a.toNat, i + 1)) rest
    else if a < 0xc2 || 0xf5 ≤ a then bad 1 (some (i + 1)) .invalidStart
    else match rest with
      | [] => bad 1 none .unexpectedEnd
      | b :: rest =>
        if a < 0xe0 then
          if isContinuation b then
            decodeFrom (i + 2) (acc.push (codePoint 32 a [b], i + 2)) rest
          else bad 1 (some (i + 2)) .invalidContinuation
        else if !isSecond a b then
          -- The first half of an encoded surrogate is only refused once a third byte is there.
          let half := a == 0xed && isContinuation b
          bad 1 (if half then (if rest.isEmpty then none else some (i + 3)) else some (i + 2))
            .invalidContinuation
        else match rest with
          | [] => bad 2 none .unexpectedEnd
          | c :: rest =>
            if !isContinuation c then bad 2 (some (i + 3)) .invalidContinuation
            else if a < 0xf0 then
              decodeFrom (i + 3) (acc.push (codePoint 16 a [b, c], i + 3)) rest
            else match rest with
              | [] => bad 3 none .unexpectedEnd
              | d :: rest =>
                if isContinuation d then
                  decodeFrom (i + 4) (acc.push (codePoint 8 a [b, c, d], i + 4)) rest
                else bad 3 (some (i + 4)) .invalidContinuation

def decode (bytes : List UInt8) : Decoded := decodeFrom 0 #[] bytes

/-- The text that bytes are, if they are one. -/
def text? (bytes : List UInt8) : Option String :=
  let d := decode bytes
  if d.fault.isNone then some (String.ofList (d.chars.toList.map (·.1))) else none

def width (c : Char) : Nat :=
  if c.toNat < 0x80 then 1 else if c.toNat < 0x800 then 2 else if c.toNat < 0x10000 then 3 else 4

def size : List Char → Nat
  | [] => 0
  | c :: rest => width c + size rest

/-- The bytes of a character. -/
def encodeChar (c : Char) : List UInt8 :=
  let n := c.toNat
  let tail (k : Nat) : UInt8 := UInt8.ofNat (0x80 + n / Nat.pow 64 k % 64)
  if n < 0x80 then [UInt8.ofNat n]
  else if n < 0x800 then [UInt8.ofNat (0xc0 + n / 64), tail 0]
  else if n < 0x10000 then [UInt8.ofNat (0xe0 + n / 4096), tail 1, tail 0]
  else [UInt8.ofNat (0xf0 + n / 262144), tail 2, tail 1, tail 0]

/-- The bytes of a text. -/
def encode (s : String) : List UInt8 := s.toUTF8.toList

end Utf8

/-- The complaint about bytes that are not UTF-8, as shown to the user. -/
def EncodingFault.utf8Message (f : EncodingFault) : String :=
  let hexDigit (n : Nat) : Char := (Nat.toDigits 16 n).headD '0'
  if f.length == 1 then
    "'utf-8' codec can't decode byte 0x" ++ (hexDigit (f.byte.toNat / 16)).toString
      ++ (hexDigit (f.byte.toNat % 16)).toString ++ " in position " ++ toString f.start ++ ": "
      ++ f.problem.text
  else
    "'utf-8' codec can't decode bytes in position " ++ toString f.start ++ "-"
      ++ toString (f.start + f.length - 1) ++ ": " ++ f.problem.text

end YamlCheck.Text
