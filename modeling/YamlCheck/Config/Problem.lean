import YamlCheck.Text.Utf8
import YamlCheck.Yaml.Value

/-!
# Problems of a configuration

Everything that is wrong with a configuration is reported at once, each problem with the place
where it is, the value that was found there and the kind of that value.
-/

namespace YamlCheck

open YamlCheck.Text YamlCheck.Yaml

inductive Step
  | key (name : String)
  | number (i : Int)
  deriving Repr, DecidableEq

/-- A name with a dot is set between grave accents. -/
def Step.text : Step → String
  | .key name => if name.toList.contains '.' then "\x60" ++ name ++ "\x60" else name
  | .number i => toString i

/-- The display of a value; one that cannot be shown only tells its kind. -/
def shown (v : Tree) : String :=
  match v.display with
  | .ok text => text
  | .error _ => "<unprintable " ++ v.kindName ++ " object>"

def isMachineInt (i : Int) : Bool := -9223372036854775808 ≤ i && i < 9223372036854775808

/-- The step that a key of any kind makes: an integer or a truth value counts as a number. -/
def Step.ofKey (k : Tree) : Step :=
  match k with
  | .scalar (.text s) => .key s.printed
  | .scalar (.bool b) => .number (Scalar.intOfBool b)
  | .scalar (.int i) => if isMachineInt i then .number i else .key (shown k)
  | k => .key (shown k)

inductive Trouble
  | notList
  | notText
  | notUnicode
  | notTruth
  | unclearTruth
  | notParser
  | unknownKey
  | keyNotText
  | frozen
  deriving Repr, DecidableEq

namespace Trouble

def tag : Trouble → String
  | .notList => "list_type"
  | .notText => "string_type"
  | .notUnicode => "string_unicode"
  | .notTruth => "bool_type"
  | .unclearTruth => "bool_parsing"
  | .notParser => "literal_error"
  | .unknownKey => "extra_forbidden"
  | .keyNotText => "invalid_key"
  | .frozen => "frozen_instance"

def message : Trouble → String
  | .notList => "Input should be a valid list"
  | .notText => "Input should be a valid string"
  | .notUnicode =>
    "Input should be a valid string, unable to parse raw data as a unicode string"
  | .notTruth => "Input should be a valid boolean"
  | .unclearTruth => "Input should be a valid boolean, unable to interpret input"
  | .notParser => "Input should be 'pyyaml' or 'ruamel'"
  | .unknownKey => "Extra inputs are not permitted"
  | .keyNotText => "Keys should be strings"
  | .frozen => "Instance is frozen"

end Trouble

structure Problem where
  place : List Step
  trouble : Trouble
  value : Tree
  deriving Repr

namespace Problem

/-- The longest beginning that takes at most so many bytes. -/
def within : Nat → List Char → List Char
  | _, [] => []
  | room, c :: rest =>
    if Utf8.width c ≤ room then c :: within (room - Utf8.width c) rest else []

/-- A long text loses its middle. -/
def excerpt (s : String) : String :=
  let cs := s.toList
  if Utf8.size cs ≤ 50 then s
  else
    let tail := (within 24 cs.reverse).reverse
    String.ofList (within 25 cs) ++ "..." ++ String.ofList tail

/-- Where a problem is; one of the whole has no place. -/
def placeText (p : Problem) : String :=
  if p.place.isEmpty then "" else ".".intercalate (p.place.map Step.text) ++ "\n"

def text (p : Problem) : String :=
  p.placeText ++ "  " ++ p.trouble.message ++ " [type=" ++ p.trouble.tag ++ ", input_value="
    ++ excerpt (shown p.value) ++ ", input_type=" ++ p.value.kindName
    ++ "]\n    For further information visit https://errors.pydantic.dev/2.14/v/"
    ++ p.trouble.tag

def report (ps : List Problem) : String :=
  let n := ps.length
  let heading := toString n ++ (if n == 1 then " validation error" else " validation errors")
    ++ " for ValidationConfig"
  "\n".intercalate (heading :: ps.map text)

end Problem

end YamlCheck
