import YamlCheck.Yaml.Value

/-!
# Templates

A template is the text of a log line with fields in it, written in one of three styles:
`%(name)s`, `{name}` or `$name`.  A template without any field is refused.  Some fields can
be given a colour of their own.
-/

namespace YamlCheck.Logging

inductive Style
  | percent
  | brace
  | dollar
  deriving Repr, DecidableEq

namespace Style

def ofMark? : String → Option Style
  | "%" => some .percent
  | "\x7b" => some .brace
  | "$" => some .dollar
  | _ => none

def default : Style → String
  | .percent => "%(message)s"
  | .brace => "\x7bmessage\x7d"
  | .dollar => "$\x7bmessage\x7d"

end Style

namespace Template

/-- A letter, a digit or a low line; a character beyond ASCII counts as a letter. -/
def isWordChar (c : Char) : Bool := c.isAlphanum || c == '_' || 128 ≤ c.toNat

def isBlank (c : Char) : Bool :=
  c == ' ' || (9 ≤ c.toNat && c.toNat ≤ 13) || (28 ≤ c.toNat && c.toNat ≤ 31)

def word? (cs : List Char) : Option (List Char × List Char) :=
  match cs.takeWhile isWordChar with
  | [] => none
  | w => some (w, cs.dropWhile isWordChar)

def after? (c : Char) : List Char → Option (List Char)
  | d :: rest => if d == c then some rest else none
  | [] => none

def percentName? (cs : List Char) : Option (List Char × List Char) := do
  let (name, rest) ← word? (← after? '(' (← after? '%' cs))
  return (name, ← after? ')' rest)

def dropFlags (cs : List Char) : List Char := cs.dropWhile fun c => "#0+- ".toList.contains c

/-- Drops a width or a precision, which may be left to the values. -/
def dropAmount : List Char → List Char
  | '*' :: rest => rest
  | cs => cs.dropWhile Char.isDigit

/-- Drops a point and the precision behind it, if there is one. -/
def dropPrecision (dropAmount : List Char → List Char) (cs : List Char) : List Char :=
  match cs with
  | '.' :: rest =>
    let rest' := dropAmount rest
    if rest'.length < rest.length then rest' else cs
  | _ => cs

def startsPercentField (cs : List Char) : Bool :=
  match percentName? cs with
  | none => false
  | some (_, rest) =>
    match dropPrecision dropAmount (dropAmount (dropFlags rest)) with
    | [] => false
    | c :: _ => "diouxefgcrsa%DIOUXEFGCRSA".toList.contains c

def braceField? (cs : List Char) : Option (List Char × List Char) := do
  let (name, rest) ← word? (← after? '\x7b' cs)
  return (name, ← after? '\x7d' (rest.dropWhile (· != '\x7d')))

/-- Whether the content of a field in braces names a field, if it is well formed: a word, perhaps
followed by attributes and items, perhaps a conversion, and perhaps a form. -/
def braceContent? (cs : List Char) : Option Bool :=
  let isNamePart (c : Char) : Bool := c != ':' && c != '!'
  let name := cs.takeWhile isNamePart
  let formed := match cs.dropWhile isNamePart with
    | [] | ':' :: _ => true
    | '!' :: c :: [] | '!' :: c :: ':' :: _ => "rsa".toList.contains c
    | _ => false
  let named := name.all (fun c => isWordChar c || ".[]".toList.contains c) && (word? name).isSome
  if !formed then none
  else if name.isEmpty then some false
  else if named then some true else none

/-- Whether the rest of a template in the brace style is well formed, and whether there is a
field; `found` tells whether there was one before.  Doubled braces stand for themselves. -/
def braceFields (found : Bool) : Nat → List Char → Bool
  | 0, _ => false
  | _, [] => found
  | fuel + 1, '\x7b' :: '\x7b' :: rest => braceFields found fuel rest
  | fuel + 1, '\x7d' :: '\x7d' :: rest => braceFields found fuel rest
  | _, '\x7d' :: _ => false
  | fuel + 1, '\x7b' :: rest =>
    let content := rest.takeWhile (· != '\x7d')
    match rest.dropWhile (· != '\x7d') with
    | _ :: rest =>
      match braceContent? content with
      | some named => braceFields (found || named) fuel rest
      | none => false
    | [] => false
  | fuel + 1, _ :: rest => braceFields found fuel rest

def startsName (c : Char) : Bool := c.isAlpha || c == '_'

/-- The rest after the name that a dollar sign introduces, which may stand in braces. -/
def dollarName? (cs : List Char) : Option (List Char) :=
  let name? (cs : List Char) : Option (List Char) :=
    match cs with
    | c :: rest =>
      if startsName c then some (rest.dropWhile fun c => c.isAlphanum || c == '_') else none
    | [] => none
  match cs with
  | '\x7b' :: rest => do after? '\x7d' (← name? rest)
  | cs => name? cs

/-- Whether the rest of a template in the dollar style is well formed, and whether there is a
field.  A doubled dollar sign stands for itself. -/
def dollarFields (found : Bool) : Nat → List Char → Bool
  | 0, _ => false
  | _, [] => found
  | fuel + 1, '$' :: '$' :: rest => dollarFields found fuel rest
  | fuel + 1, '$' :: rest =>
    match dollarName? rest with
    | some rest => dollarFields true fuel rest
    | none => false
  | fuel + 1, _ :: rest => dollarFields found fuel rest

def anySuffix (p : List Char → Bool) : List Char → Bool
  | [] => p []
  | c :: rest => p (c :: rest) || anySuffix p rest

def isValid (s : Style) (text : String) : Bool :=
  let cs := text.toList
  match s with
  | .percent => anySuffix startsPercentField cs
  | .brace => braceFields false (cs.length + 1) cs
  | .dollar => dollarFields false (cs.length + 1) cs

/-- A part of a template: a field with a name, or text between fields. -/
structure Part where
  text : List Char
  field : Option (List Char) := none

def field? (s : Style) (cs : List Char) : Option (Part × List Char) :=
  let part (name : Option (List Char)) (rest : List Char) : Part × List Char :=
    (⟨cs.take (cs.length - rest.length), name⟩, rest)
  match s with
  | .percent => do
    let (name, rest) ← percentName? cs
    let digits (cs : List Char) : List Char := cs.dropWhile Char.isDigit
    let rest := dropPrecision digits (digits (dropFlags rest))
    let rest := match rest with
      | 'h' :: r | 'l' :: r | 'L' :: r => r
      | r => r
    match rest with
    | c :: rest => if "diouxXeEfFgGcrs%".toList.contains c then some (part name rest) else none
    | [] => none
  | .brace => (braceField? cs).map fun (name, rest) => part name rest
  | .dollar => do
    let rest ← after? '$' cs
    match word? rest with
    | some (name, rest) => return part name rest
    | none =>
      let (_, rest) ← word? (← after? '\x7b' rest)
      return part none (← after? '\x7d' rest)

def between (text : List Char) : List Part := if text.isEmpty then [] else [⟨text, none⟩]

/-- The parts of a template; `text` is what has been passed since the last field. -/
def partsFrom (s : Style) : Nat → List Char → List Char → List Part
  | 0, text, rest => between (text ++ rest)
  | _, text, [] => between text
  | fuel + 1, text, c :: rest =>
    match field? s (c :: rest) with
    | some (part, rest) => between text ++ part :: partsFrom s fuel [] rest
    | none => partsFrom s fuel (text ++ [c]) rest

def splitBlanks : List Char → List (List Char)
  | [] => []
  | c :: rest =>
    match splitBlanks rest with
    | (d :: run) :: runs =>
      if isBlank c == isBlank d then (c :: d :: run) :: runs else [c] :: (d :: run) :: runs
    | runs => [c] :: runs

/-- The parts of a template, with blanks as parts of their own. -/
def parts (s : Style) (cs : List Char) : List Part :=
  (partsFrom s cs.length [] cs).flatMap fun p =>
    if p.field.isSome then [p] else (splitBlanks p.text).map fun text => ⟨text, none⟩

def colours : List (String × String) := [
  ("asctime", "32"), ("hostname", "35"), ("levelname", "1;30"), ("name", "34"),
  ("programname", "36"), ("username", "33")]

def Part.colour? (p : Part) : Option String := do
  let name ← p.field
  let name := String.ofList (name.map Char.toLower)
  ((colours.find? (·.1 == name)).map (·.2))

def wrap (colour : String) (text : List Char) : List Char :=
  "\x1b[".toList ++ colour.toList ++ 'm' :: text ++ "\x1b[0m".toList

/-- Colours a group of parts between blanks: all of it if only one of them has a colour, otherwise
each part by itself. -/
def colourGroup (group : List Part) : List Char :=
  match group.filterMap Part.colour? with
  | [colour] => wrap colour (group.flatMap (·.text))
  | _ => group.flatMap fun p =>
    match p.colour? with
    | some colour => wrap colour p.text
    | none => p.text

/-- Colours parts; `group` are the parts since the last blanks. -/
def colourParts (group : List Part) : List Part → List Char
  | [] => colourGroup group
  | p :: rest =>
    if p.text.all isBlank then colourGroup group ++ p.text ++ colourParts [] rest
    else colourParts (group ++ [p]) rest

def coloured (s : Style) (text : String) : String :=
  String.ofList (colourParts [] (parts s text.toList))

end Template

end YamlCheck.Logging
