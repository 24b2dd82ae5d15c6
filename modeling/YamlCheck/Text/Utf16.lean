import YamlCheck.Text.Utf8

/-!
# Reading UTF-16

Two-byte units in either byte order.  A unit from the upper half of the surrogates must be
followed by one from the lower half; the pair is one character.
-/

namespace YamlCheck.Text.Utf16

inductive ByteOrder
  | little
  | big
  deriving Repr, DecidableEq

def ByteOrder.unit (o : ByteOrder) (a b : UInt8) : Nat :=
  match o with
  | .little => a.toNat + 256 * b.toNat
  | .big => 256 * a.toNat + b.toNat

/-- Decodes from offset `i` on, after the characters `acc`. -/
def decodeFrom (o : ByteOrder) (i : Nat) (acc : Array (Char × Nat)) : List UInt8 → Decoded
  | [] => ⟨acc, none⟩
  | [a] => ⟨acc, some ⟨i, 1, a, none, .truncatedUnit⟩⟩
  | a :: b :: rest =>
    let u := o.unit a b
    if u < 0xd800 || 0xe000 ≤ u then
      decodeFrom o (i + 2) (acc.push (Char.ofNat u, i + 2)) rest
    else if 0xdc00 ≤ u then ⟨acc, some ⟨i, 2, a, some (i + 2), .illegalEncoding⟩⟩
    else match rest with
      | c :: d :: rest =>
        let v := o.unit c d
        if 0xdc00 ≤ v && v < 0xe000 then
          let n := 0x10000 + (u - 0xd800) * 0x400 + (v - 0xdc00)
          decodeFrom o (i + 4) (acc.push (Char.ofNat n, i + 4)) rest
        else ⟨acc, some ⟨i, 2, a, some (i + 4), .illegalSurrogate⟩⟩
      | _ => ⟨acc, some ⟨i, 2, a, none, .unexpectedEnd⟩⟩

def decode (o : ByteOrder) (bytes : List UInt8) : Decoded := decodeFrom o 0 #[] bytes

end YamlCheck.Text.Utf16
