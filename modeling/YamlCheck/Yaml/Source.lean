import YamlCheck.Text.Utf16
import YamlCheck.Yaml.LoadError

/-!
# The characters of a stream

A stream is read block by block.  A block with a bad byte or a forbidden character is no use at
all: the characters before it can be read, and whoever looks further meets the fault.  So a source
is the list of readable characters and, perhaps, the fault behind them.
-/

namespace YamlCheck.Yaml

open YamlCheck.Text

/-- The readable characters of a stream and what stops the reader after them. -/
structure Source where
  chars : List Char
  fault : Option ReadFault
  deriving Repr

def isDocumentChar (c : Char) : Bool :=
  let n := c.toNat
  n == 0x09 || n == 0x0a || n == 0x0d || (0x20 ≤ n && n ≤ 0x7e) || n == 0x85
    || (0xa0 ≤ n && n ≤ 0xd7ff) || (0xe000 ≤ n && n ≤ 0xfffd) || 0x10000 ≤ n

def blockLength : Nat := 4096

/-- The end of the block that holds the unit at `place`, the first block being a double one. -/
def blockEnd (place : Nat) : Nat :=
  max 2 (place / blockLength + 1) * blockLength

/-- The start of the block that holds the unit at `place`. -/
def blockStart (place : Nat) : Nat :=
  if blockEnd place ≤ 2 * blockLength then 0 else blockEnd place - blockLength

namespace Source

/-- The length of a byte sequence that the end of the stream cuts short is found out only when the
end itself is read, one block after the last byte. -/
def discovery (size : Nat) (f : EncodingFault) : Nat :=
  match f.seen with
  | some n => blockEnd (n - 1)
  | none => if size ≤ blockLength then blockEnd 0 else blockEnd (size - 1) + blockLength

/-- The source of decoded bytes.  A fault belongs to the block in which it shows; of two faults in
one block the bad byte is met first. -/
def ofDecoded (size : Nat) (d : Decoded) : Source :=
  let bad := d.chars.toList.findIdx? fun c => !isDocumentChar c.1
  let upTo (stop : Nat) : List Char :=
    (d.chars.toList.takeWhile fun c => c.2 ≤ stop).map (·.1)
  let control := bad.bind fun i => d.chars[i]?.map fun c => (i, c.1, blockEnd (c.2 - 1))
  let encoding := d.fault.map fun f => (f, discovery size f)
  match control, encoding with
  | none, none => ⟨d.chars.toList.map (·.1), none⟩
  | some (i, c, stop), none => ⟨upTo (before stop), some (.control i c)⟩
  | none, some (f, stop) => ⟨upTo (before stop), some (encodingFault f)⟩
  | some (i, c, stop), some (f, stop') =>
    if stop < stop' then ⟨upTo (before stop), some (.control i c)⟩
    else ⟨upTo (before stop'), some (encodingFault f)⟩
where
  before (stop : Nat) : Nat := if stop ≤ 2 * blockLength then 0 else stop - blockLength
  encodingFault (f : EncodingFault) : ReadFault := .encoding f.start f.byte f.problem

/-- The source of a byte stream: UTF-16 after one of its byte order marks, otherwise UTF-8. -/
def ofBytes (bytes : List UInt8) : Source :=
  ofDecoded bytes.length <|
    match bytes with
    | 0xff :: 0xfe :: _ => Utf16.decode .little bytes
    | 0xfe :: 0xff :: _ => Utf16.decode .big bytes
    | _ => Utf8.decode bytes

/-- The source of a text that is checked as a whole. -/
def ofText (text : List Char) : Source :=
  match text.findIdx? fun c => !isDocumentChar c with
  | none => ⟨text, none⟩
  | some i => ⟨[], some (.control i (text.getD i endChar))⟩

/-- Every way to end a line becomes a line feed. -/
def unifyLineEnds : List Char → List Char
  | '\r' :: '\n' :: rest => '\n' :: unifyLineEnds rest
  | '\r' :: rest => '\n' :: unifyLineEnds rest
  | c :: rest => c :: unifyLineEnds rest
  | [] => []

def chunkLength : Nat := 8192

/-- How many characters a run of whole chunks gives; a carriage return at its end is held back, for
a line feed may follow. -/
def countUnified (chars : List Char) : Nat :=
  let n := (unifyLineEnds chars).length
  if chars.getLast? == some '\r' then n - 1 else n

/-- The fault of a text file: how many characters come before the chunk it shows in, and the fault
as counted from what was left over before that chunk. -/
def chunkFault (size : Nat) (d : Decoded) (f : EncodingFault) : Nat × EncodingFault :=
  let chunkStart := match f.seen with
    | some n => (n - 1) / chunkLength * chunkLength
    | none => size
  let kept := d.chars.toList.takeWhile fun c => c.2 ≤ chunkStart
  let base := match kept.getLast? with
    | some c => c.2
    | none => 0
  (countUnified (kept.map (·.1)), { f with start := f.start - base })

/-- The source of a text file in UTF-8, which is decoded chunk by chunk and then read block by
block. -/
def ofTextFile (bytes : List UInt8) : Source :=
  let d := Utf8.decode bytes
  let text := unifyLineEnds (d.chars.toList.map (·.1))
  let control := text.findIdx? fun c => !isDocumentChar c
  let controlFault (i : Nat) : Source :=
    ⟨text.take (blockStart i), some (.control i (text.getD i endChar))⟩
  match d.fault with
  | none =>
    match control with
    | none => ⟨text, none⟩
    | some i => controlFault i
  | some f =>
    let (count, shown) := chunkFault bytes.length d f
    let blocks := count / blockLength
    let readable := if blocks < 2 then 0 else blocks * blockLength
    match control with
    | some i =>
      if i < readable then controlFault i else ⟨text.take readable, some (.undecodable shown)⟩
    | none => ⟨text.take readable, some (.undecodable shown)⟩

end Source

end YamlCheck.Yaml
