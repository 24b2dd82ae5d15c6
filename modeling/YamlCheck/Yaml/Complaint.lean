import YamlCheck.Text.Base64
import YamlCheck.Text.Quoted
import YamlCheck.Text.Utf8
import YamlCheck.Yaml.Dialect
import YamlCheck.Yaml.Mark

/-!
# Complaints about a document

A complaint names what was being read, what is wrong with it, and the places of both.  The two
dialects word a few complaints differently; the wording is chosen when a complaint is shown.
-/

namespace YamlCheck.Yaml

open YamlCheck.Text

inductive NodeKind
  | scalar
  | sequence
  | mapping
  deriving Repr, DecidableEq

def NodeKind.text : NodeKind → String
  | .scalar => "scalar"
  | .sequence => "sequence"
  | .mapping => "mapping"

/-- Where a tag is written: on a node or in a directive that declares a handle. -/
inductive TagPlace
  | node
  | declaration
  deriving Repr, DecidableEq

def TagPlace.text : TagPlace → String
  | .node => "tag"
  | .declaration => "directive"

/-- A layout of nodes: by indentation or between brackets. -/
inductive Layout
  | block
  | flow
  deriving Repr, DecidableEq

def Layout.text : Layout → String
  | .block => "block"
  | .flow => "flow"

/-- What was being read when a complaint arose. -/
inductive Context
  | nextToken
  | simpleKey
  | directive
  | anchor
  | aliasName
  | tag
  | verbatimTag
  /-- The handle of a tag or an escape in it. -/
  | tagPart (place : TagPlace)
  | tagUri (place : TagPlace)
  | blockScalar
  | quotedScalar
  | doubleQuotedScalar
  | uneven
  | node
  | nodeContent (layout : Layout)
  | blockSequence
  | blockMapping
  | flowSequence
  | flowMapping
  | singleDocument
  | mappingValue
  | orderedMap
  | pairs
  | repeatedAnchor (name : String)
  deriving Repr, DecidableEq

def Context.text (d : Dialect) : Context → String
  | .nextToken => "while scanning for the next token"
  | .simpleKey => "while scanning a simple key"
  | .directive => "while scanning a directive"
  | .anchor => "while scanning an anchor"
  | .aliasName => "while scanning an alias"
  | .tag => "while scanning a tag"
  | .verbatimTag => "while parsing a tag"
  | .tagPart p => "while scanning " ++ article ++ " " ++ p.text
  | .tagUri p => "while parsing " ++ article ++ " " ++ p.text
  | .blockScalar => "while scanning a block scalar"
  | .quotedScalar => "while scanning a quoted scalar"
  | .doubleQuotedScalar => "while scanning a double-quoted scalar"
  | .uneven => "more indented follow up line than first in a block scalar"
  | .node => "while parsing a node"
  | .nodeContent l => "while parsing a " ++ l.text ++ " node"
  | .blockSequence => "while parsing a block collection"
  | .blockMapping => "while parsing a block mapping"
  | .flowSequence => "while parsing a flow sequence"
  | .flowMapping => "while parsing a flow mapping"
  | .singleDocument => "expected a single document in the stream"
  | .mappingValue => "while constructing a mapping"
  | .orderedMap => "while constructing an ordered map"
  | .pairs => "while constructing pairs"
  | .repeatedAnchor name => "found duplicate anchor " ++ quoted name ++ "; first occurrence"
where
  article : String := match d with
    | .classic => "a"
    | .modern => "an"

/-- What is wrong.  A character or a token in the name of a case is the one that was found. -/
inductive Problem
  | cannotStartToken (c : Char)
  | expectedColon
  | sequenceNotAllowed
  | keyNotAllowed
  | valueNotAllowed
  | expectedWord (c : Char)
  | expectedDigit (c : Char)
  | expectedDigitOrPoint (c : Char)
  | expectedDigitOrSpace (c : Char)
  | expectedSpace (c : Char)
  | expectedLineEnd (c : Char)
  | expectedHandle (c : Char)
  | expectedHandleEnd (c : Char)
  | expectedVerbatimEnd (c : Char)
  | expectedUri (c : Char)
  | expectedUriEscape (c : Char)
  | badUriText (f : EncodingFault)
  | zeroIndentation
  | expectedIndicators (c : Char)
  | expectedEscapeDigits (count : Nat) (c : Char)
  | unknownEscape (c : Char)
  | endInQuotes
  | separatorInQuotes
  | repeatedVersion
  | incompatibleVersion
  | repeatedHandle (handle : String)
  | expectedDocumentStart (token : String)
  | contentAfterEnd (token : String)
  | undefinedHandle (handle : String)
  | expectedContent (token : String)
  | expectedBlockEnd (token : String)
  | expectedSequenceGoesOn (token : String)
  | expectedMappingGoesOn (token : String)
  | undefinedAlias (name : String)
  | secondAnchor
  | anotherDocument
  | expectedNode (wanted found : NodeKind)
  | recursiveNode
  | unhashableKey
  | expectedMappingToMerge (found : NodeKind)
  | expectedMappingsToMerge (found : NodeKind)
  | notAscii (start stop : Nat) (first : Letter)
  | notBase64 (p : Base64.Problem)
  | notTime (shown : Letters)
  | expectedSequence (found : NodeKind)
  | expectedEntry (found : NodeKind)
  | expectedOneEntry (count : Nat)
  | unknownTag (tag : String)
  | repeatedKey (shown : String)
  | repeatedKeyWithValue (key value original : Letters)
  | repeatedMerge
  deriving Repr, DecidableEq

def Problem.text (d : Dialect) : Problem → Letters
  | .cannotStartToken c => "found character " ++ quotedChar c ++ " that cannot start any token"
  | .expectedColon => "could not find expected ':'"
  | .sequenceNotAllowed => "sequence entries are not allowed here"
  | .keyNotAllowed => "mapping keys are not allowed here"
  | .valueNotAllowed => "mapping values are not allowed here"
  | .expectedWord c => "expected alphabetic or numeric character" ++ butFound c
  | .expectedDigit c => "expected a digit" ++ butFound c
  | .expectedDigitOrPoint c => "expected a digit or '.'" ++ butFound c
  | .expectedDigitOrSpace c => "expected a digit or ' '" ++ butFound c
  | .expectedSpace c => "expected ' '" ++ butFound c
  | .expectedLineEnd c => "expected a comment or a line break" ++ butFound c
  | .expectedHandle c => "expected '!'" ++ butFound c
  | .expectedHandleEnd c => "expected '!'" ++ shortlyButFound c
  | .expectedVerbatimEnd c => "expected '>'" ++ shortlyButFound c
  | .expectedUri c => "expected URI" ++ butFound c
  | .expectedUriEscape c =>
    "expected URI escape sequence of 2 " ++ hexadecimal ++ " numbers" ++ butFound c
  | .badUriText f => f.utf8Message
  | .zeroIndentation => "expected indentation indicator in the range 1-9, but found 0"
  | .expectedIndicators c => "expected chomping or indentation indicators" ++ butFound c
  | .expectedEscapeDigits n c =>
    "expected escape sequence of " ++ toString n ++ " " ++ hexadecimal ++ " numbers" ++ butFound c
  | .unknownEscape c => "found unknown escape character " ++ quotedChar c
  | .endInQuotes => "found unexpected end of stream"
  | .separatorInQuotes => "found unexpected document separator"
  | .repeatedVersion => "found duplicate YAML directive"
  | .incompatibleVersion => "found incompatible YAML document (version 1.* is required)"
  | .repeatedHandle h => "duplicate tag handle " ++ quoted h
  | .expectedDocumentStart t => "expected '<document start>', but found " ++ token t
  | .contentAfterEnd t => "found non-comment content after document end marker, " ++ token t
  | .undefinedHandle h => "found undefined tag handle " ++ quoted h
  | .expectedContent t => "expected the node content, but found " ++ quoted t
  | .expectedBlockEnd t => "expected <block end>, but found " ++ quoted t
  | .expectedSequenceGoesOn t => "expected ',' or ']', but got " ++ quoted t
  | .expectedMappingGoesOn t => "expected ',' or '\x7d', but got " ++ quoted t
  | .undefinedAlias n => "found undefined alias " ++ quoted n
  | .secondAnchor => "second occurrence"
  | .anotherDocument => "but found another document"
  | .expectedNode w f => "expected a " ++ w.text ++ " node, but found " ++ f.text
  | .recursiveNode => "found unconstructable recursive node"
  | .unhashableKey => "found unhashable key"
  | .expectedMappingToMerge f => "expected a mapping for merging, but found " ++ f.text
  | .expectedMappingsToMerge f =>
    "expected a mapping or list of mappings for merging, but found " ++ f.text
  | .notAscii start stop first =>
    "failed to convert base64 data into ascii: 'ascii' codec can't encode "
      ++ positionsText start stop first ++ ": ordinal not in range(128)"
  | .notBase64 p => "failed to decode base64 data: " ++ p.message
  | .notTime shown => "failed to construct timestamp from \"" ++ shown ++ "\""
  | .expectedSequence f => "expected a sequence, but found " ++ f.text
  | .expectedEntry f => "expected a mapping of length 1, but found " ++ f.text
  | .expectedOneEntry n => "expected a single mapping item, but found " ++ toString n ++ " items"
  | .unknownTag t => "could not determine a constructor for the tag " ++ quoted t
  | .repeatedKey shown => "found duplicate key " ++ shown
  | .repeatedKeyWithValue k v o =>
    "found duplicate key \"" ++ k ++ "\" with value \"" ++ v ++ "\" (original value: \"" ++ o
      ++ "\")"
  | .repeatedMerge => "found duplicate merge key \"<<\""
where
  butFound (c : Char) : String := ", but found " ++ quotedChar c
  /-- Some complaints of the modern dialect lack the comma. -/
  shortlyButFound (c : Char) : String := match d with
    | .classic => butFound c
    | .modern => " but found " ++ quotedChar c
  hexadecimal : String := match d with
    | .classic => "hexadecimal"
    | .modern => "hexdecimal"
  /-- Around documents the modern dialect shows a token as the only member of a tuple. -/
  token (t : String) : String := match d with
    | .classic => quoted t
    | .modern => "(" ++ quoted t ++ ",)"

inductive Note
  | aboutRepeatedKeys
  | aboutRepeatedMerges
  deriving Repr, DecidableEq

def Note.text : Note → String
  | .aboutRepeatedKeys =>
    "\nTo suppress this check see:\n    https://yaml.dev/doc/ruamel.yaml/api/#Duplicate_keys\n"
  | .aboutRepeatedMerges =>
    "Duplicate merge keys are never allowed, not even when\n\x60.allow_duplicate_keys\x60"
      ++ " is set to True\n"

structure Complaint where
  context : Option Context := none
  contextMark : Option Mark := none
  problem : Option Problem := none
  problemMark : Option Mark := none
  note : Option Note := none
  deriving Repr, DecidableEq

/-- The lines of a complaint.  The mark of the context is left out where it would repeat the mark
of the problem. -/
def Complaint.text (d : Dialect) (o : Origin) (c : Complaint) : Letters :=
  let repeated := match c.problem, c.contextMark, c.problemMark with
    | some _, some a, some b => a.line == b.line && a.column == b.column
    | _, _, _ => false
  let parts : List (Option Letters) := [
    c.context.map (·.text d),
    if repeated then none else c.contextMark.map (·.display o),
    c.problem.map (·.text d),
    c.problemMark.map (·.display o),
    c.note.map (·.text)]
  .join "\n" (parts.filterMap id)

end YamlCheck.Yaml
