/-!
# Base 64

The tolerant reading of base 64: characters outside the alphabet are skipped, and a padding that
completes a group ends the text, whatever follows.
-/

namespace YamlCheck.Text.Base64

inductive Problem
  /-- One character is left over after `4 * groups` characters. -/
  | lonelyCharacter (count : Nat)
  | incorrectPadding
  deriving Repr, DecidableEq

def Problem.message : Problem → String
  | .lonelyCharacter count =>
    "Invalid base64-encoded string: number of data characters (" ++ toString count
      ++ ") cannot be 1 more than a multiple of 4"
  | .incorrectPadding => "Incorrect padding"

def sextet? (c : Char) : Option Nat :=
  let n := c.toNat
  if 0x41 ≤ n && n ≤ 0x5a then some (n - 0x41)
  else if 0x61 ≤ n && n ≤ 0x7a then some (n - 0x61 + 26)
  else if 0x30 ≤ n && n ≤ 0x39 then some (n - 0x30 + 52)
  else if c == '+' then some 62
  else if c == '/' then some 63
  else none

/-- Reads on with `filled` characters of the current group seen, `left` their bits not yet
written, `pads` padding characters since the last of them, and `out` the bytes written, last one
first. -/
def decodeFrom (filled left pads : Nat) (out : List UInt8) :
    List Char → Except Problem (List UInt8)
  | [] =>
    if filled == 0 then .ok out.reverse
    else if filled == 1 then .error (.lonelyCharacter (out.length / 3 * 4 + 1))
    else .error .incorrectPadding
  | c :: rest =>
    if c == '=' then
      if 2 ≤ filled then
        if 4 ≤ filled + (pads + 1) then .ok out.reverse
        else decodeFrom filled left (pads + 1) out rest
      else decodeFrom filled left pads out rest
    else match sextet? c with
      | none => decodeFrom filled left pads out rest
      | some v =>
        if filled == 0 then decodeFrom 1 v 0 out rest
        else if filled == 1 then
          decodeFrom 2 (v % 16) 0 (UInt8.ofNat (left * 4 + v / 16) :: out) rest
        else if filled == 2 then
          decodeFrom 3 (v % 4) 0 (UInt8.ofNat (left * 16 + v / 4) :: out) rest
        else decodeFrom 0 0 0 (UInt8.ofNat (left * 64 + v) :: out) rest

def decode (s : List Char) : Except Problem (List UInt8) := decodeFrom 0 0 0 [] s

end YamlCheck.Text.Base64
