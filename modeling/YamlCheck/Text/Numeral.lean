/-!
# Blanks and decimal digits

A numeral in a document may be written with the decimal digits of any script and may be
surrounded by any white space.  `plainNumeral` brings such a text to ASCII; a character that is
neither white space nor a digit ends the usable part.
-/

namespace YamlCheck.Text

/-- White space of the Unicode character database, together with the four ASCII separators. -/
def isBlank (c : Char) : Bool :=
  let n := c.toNat
  (9 ≤ n && n ≤ 13) || (28 ≤ n && n ≤ 32) || n == 0x85 || n == 0xa0 || n == 0x1680
    || (0x2000 ≤ n && n ≤ 0x200a) || n == 0x2028 || n == 0x2029 || n == 0x202f
    || n == 0x205f || n == 0x3000

/-- White space of ASCII, the only kind that is trimmed around a numeral. -/
def isAsciiBlank (c : Char) : Bool :=
  let n := c.toNat
  (9 ≤ n && n ≤ 13) || n == 32

/-- The code points of the digit zero in the scripts beyond ASCII (Unicode 14); the other nine
digits of a script follow its zero. -/
def foreignZeros : List Nat := [
  0x660, 0x6f0, 0x7c0, 0x966, 0x9e6, 0xa66, 0xae6, 0xb66, 0xbe6, 0xc66, 0xce6, 0xd66, 0xde6,
  0xe50, 0xed0, 0xf20, 0x1040, 0x1090, 0x17e0, 0x1810, 0x1946, 0x19d0, 0x1a80, 0x1a90, 0x1b50,
  0x1bb0, 0x1c40, 0x1c50, 0xa620, 0xa8d0, 0xa900, 0xa9d0, 0xa9f0, 0xaa50, 0xabf0, 0xff10,
  0x104a0, 0x10d30, 0x11066, 0x110f0, 0x11136, 0x111d0, 0x112f0, 0x11450, 0x114d0, 0x11650,
  0x116c0, 0x11730, 0x118e0, 0x11950, 0x11c50, 0x11d50, 0x11da0, 0x16a60, 0x16ac0, 0x16b50,
  0x1d7ce, 0x1d7d8, 0x1d7e2, 0x1d7ec, 0x1d7f6, 0x1e140, 0x1e2f0, 0x1e950, 0x1fbf0]

def foreignDigit? (c : Char) : Option Nat :=
  (foreignZeros.find? fun z => z ≤ c.toNat && c.toNat < z + 10).map (c.toNat - ·)

/-- The ASCII form of a numeral: foreign white space becomes a space and foreign digits become
ASCII digits.  Any other character beyond ASCII becomes a question mark and ends the text, so
that no reader of numerals accepts it. -/
def plainNumeral (s : List Char) : List Char :=
  if s.all (·.toNat < 0x80) then s else go s
where
  go : List Char → List Char
    | [] => []
    | c :: rest =>
      if c.toNat < 0x7f then c :: go rest
      else if isBlank c then ' ' :: go rest
      else match foreignDigit? c with
        | some d => Char.ofNat (0x30 + d) :: go rest
        | none => ['?']

end YamlCheck.Text
