import YamlCheck.Calendar
import YamlCheck.Number.Numeral
import YamlCheck.Yaml.Complaint

/-!
# Why a stream cannot be loaded

Bad bytes, a complaint about the text of a document, a scalar that denotes no value of its type,
or one of the breakdowns that no rule of the language foresees.
-/

namespace YamlCheck.Yaml

open YamlCheck.Text YamlCheck.Number

inductive Stage
  | scanning
  | parsing
  | composing
  | constructing
  | checkingKeys
  deriving Repr, DecidableEq

/-- What stops a reader of characters. -/
inductive ReadFault
  /-- Bytes that are not text; `position` counts bytes. -/
  | encoding (position : Nat) (byte : UInt8) (p : EncodingProblem)
  /-- A character that no document may hold; `position` counts characters. -/
  | control (position : Nat) (c : Char)
  /-- Bytes that a text file may not hold; the fault is counted from the start of the chunk of
  the file that it was found in. -/
  | undecodable (f : EncodingFault)
  deriving Repr, DecidableEq

def ReadFault.text (o : Origin) : ReadFault → String
  | .encoding position byte p => unacceptable position byte.toNat p.text
  | .control position c => unacceptable position c.toNat "special characters are not allowed"
  | .undecodable f => f.utf8Message
where
  unacceptable (position code : Nat) (reason : String) : String :=
    "unacceptable character #x" ++ String.ofList (hexDigits 4 code) ++ ": " ++ reason
      ++ "\n  in \"" ++ o.name ++ "\", position " ++ toString position

inductive ValueFault
  | numeral (p : NumeralProblem)
  | calendar (p : CalendarProblem)
  | manyExponents
  | codePoint
  /-- An integer with too many decimal digits to be shown. -/
  | longInteger
  deriving Repr, DecidableEq

def ValueFault.text : ValueFault → String
  | .numeral p => p.message
  | .calendar p => p.message
  | .manyExponents => "too many values to unpack (expected 2)"
  | .codePoint => "chr() arg not in range(0x110000)"
  | .longInteger =>
    "Exceeds the limit (" ++ toString digitLimit ++ " digits) for integer string conversion; "
      ++ "use sys.set_int_max_str_digits() to increase the limit"

inductive KindFault
  | unhashable (kind : String)
  | notText (kind : String)
  deriving Repr, DecidableEq

def KindFault.text : KindFault → String
  | .unhashable kind => "unhashable type: '" ++ kind ++ "'"
  | .notText kind => "expected string or bytes-like object, got '" ++ kind ++ "'"

/-- A recursion of a reader. -/
inductive Recursion
  | composing
  | merging
  /-- From one plain value to the next. -/
  | plainValue
  | building
  | showing
  deriving Repr, DecidableEq

def Recursion.text : Recursion → String
  | .showing => "maximum recursion depth exceeded while getting the repr of an object"
  | _ => "maximum recursion depth exceeded"

/-- An outcome that no rule of the language foresees. -/
inductive Breakdown
  | unknownWord (word : Letters)
  | emptyNumeral
  | malformedTime
  | hugeCodePoint
  | hugeInteger
  | calendarEnd
  | unsupportedVersion (major minor : Nat)
  | repeatedEntry
  /-- A recursion that uses up the stack. -/
  | tooDeep (r : Recursion)
  deriving Repr, DecidableEq

def Breakdown.text : Breakdown → String
  | .unknownWord w => quoted w
  | .emptyNumeral => "string index out of range"
  | .malformedTime => "'NoneType' object has no attribute 'groupdict'"
  | .hugeCodePoint => "Python int too large to convert to C int"
  | .hugeInteger => "int too large to convert to float"
  | .calendarEnd => "date value out of range"
  | .unsupportedVersion major minor =>
    "version minor part can only be 2 or 1, got (" ++ toString major ++ ", " ++ toString minor
      ++ ")"
  | .repeatedEntry => ""
  | .tooDeep r => r.text

inductive LoadError
  | unreadable (f : ReadFault)
  | complaint (stage : Stage) (c : Complaint)
  | badValue (f : ValueFault)
  | badKind (f : KindFault)
  | breakdown (b : Breakdown)
  /-- A bound on the number of steps was too small; the bounds are chosen so that this does not
  happen. -/
  | stalled
  deriving Repr, DecidableEq

def LoadError.text (d : Dialect) (o : Origin) : LoadError → Letters
  | .unreadable f => f.text o
  | .complaint _ c => c.text d o
  | .badValue f => f.text
  | .badKind f => f.text
  | .breakdown b => b.text
  | .stalled => "stalled"

/-- The place of an error, where it has one. -/
def LoadError.mark? : LoadError → Option Mark
  | .complaint _ c => c.problemMark
  | _ => none

end YamlCheck.Yaml
