import YamlCheck.Text.Letters
import YamlCheck.Yaml.Mark

/-!
# Tokens

The smallest parts of a document that mean something: indicators, the starts and ends of
collections as brackets or indentation show them, names, tags and scalars.
-/

namespace YamlCheck.Yaml

open YamlCheck.Text

/-- What a line that starts with a percent sign declares. -/
inductive Directive
  | version (major minor : Nat)
  | handle (name : String) (meaning : String)
  | other (name : String)
  deriving Repr, DecidableEq

/-- A tag as it is written: the rest of it after an abbreviation, or all of it. -/
structure WrittenTag where
  handle : Option String
  rest : String
  deriving Repr, DecidableEq

inductive TokenKind
  | streamStart
  | streamEnd
  | directive (d : Directive)
  | documentStart
  | documentEnd
  | blockSequenceStart
  | blockMappingStart
  | blockEnd
  | flowSequenceStart
  | flowSequenceEnd
  | flowMappingStart
  | flowMappingEnd
  | key
  | value
  | blockEntry
  | flowEntry
  | aliasTo (name : String)
  | anchor (name : String)
  | tag (t : WrittenTag)
  | scalar (text : Letters) (plain : Bool)
  deriving Repr, DecidableEq

def TokenKind.name : TokenKind → String
  | .streamStart => "<stream start>"
  | .streamEnd => "<stream end>"
  | .directive _ => "<directive>"
  | .documentStart => "<document start>"
  | .documentEnd => "<document end>"
  | .blockSequenceStart => "<block sequence start>"
  | .blockMappingStart => "<block mapping start>"
  | .blockEnd => "<block end>"
  | .flowSequenceStart => "["
  | .flowSequenceEnd => "]"
  | .flowMappingStart => "\x7b"
  | .flowMappingEnd => "\x7d"
  | .key => "?"
  | .value => ":"
  | .blockEntry => "-"
  | .flowEntry => ","
  | .aliasTo _ => "<alias>"
  | .anchor _ => "<anchor>"
  | .tag _ => "<tag>"
  | .scalar .. => "<scalar>"

structure Token where
  kind : TokenKind
  start : Mark
  stop : Mark
  deriving Repr, DecidableEq

end YamlCheck.Yaml
