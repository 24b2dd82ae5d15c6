/-!
# Places in a text

A mark is a place in a document; an origin says how the document is called and, if the whole text
is at hand, lets a mark quote the line it stands on.
-/

namespace YamlCheck.Yaml

/-- A place in a text, counted from zero. -/
structure Mark where
  index : Nat
  line : Nat
  column : Nat
  deriving Repr, DecidableEq, Inhabited

structure Origin where
  name : String
  /-- The whole text, if marks are to quote from it. -/
  quoting : Option (Array Char) := none

/-- Characters that end a quoted line. -/
def endsQuotedLine (c : Char) : Bool :=
  c == '\x00' || c == '\r' || c == '\n' || c.toNat == 0x85 || c.toNat == 0x2028
    || c.toNat == 0x2029

/-- The number of characters that a quoted line shows on either side of its mark. -/
def quotedReach : Nat := 37

/-- The start of the quotation: at most `fuel` characters back from `start`, and the mark of an
omission if the line goes on before that. -/
def quoteStart (text : Array Char) (place : Nat) : Nat → Nat → Nat × String
  | 0, start => (start, "")
  | fuel + 1, start =>
    if 0 < start && !endsQuotedLine (text.getD (start - 1) '\x00') then
      if quotedReach ≤ place - (start - 1) then (start - 1 + 5, " ... ")
      else quoteStart text place fuel (start - 1)
    else (start, "")

def quoteEnd (text : Array Char) (place : Nat) : Nat → Nat → Nat × String
  | 0, stop => (stop, "")
  | fuel + 1, stop =>
    if stop < text.size && !endsQuotedLine (text.getD stop '\x00') then
      if quotedReach ≤ stop + 1 - place then (stop + 1 - 5, " ... ")
      else quoteEnd text place fuel (stop + 1)
    else (stop, "")

/-- The line that a place stands on, indented, and below it a caret under the place. -/
def quotation (text : Array Char) (place : Nat) : String :=
  let (start, head) := quoteStart text place (quotedReach + 1) place
  let (stop, tail) := quoteEnd text place (quotedReach + 1) place
  let line := String.ofList (text.extract start stop).toList
  "    " ++ head ++ line ++ tail ++ "\n"
    ++ String.ofList (List.replicate (4 + place - start + head.length) ' ') ++ "^"

/-- The display of a mark, counted from one. -/
def Mark.display (m : Mark) (o : Origin) : String :=
  "  in \"" ++ o.name ++ "\", line " ++ toString (m.line + 1) ++ ", column "
    ++ toString (m.column + 1)
    ++ match o.quoting with
      | none => ""
      | some text => ":\n" ++ quotation text m.index

end YamlCheck.Yaml
