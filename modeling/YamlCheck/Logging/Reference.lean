import YamlCheck.Logging.World

/-!
# References in declarations

A value of a declaration may be a text that stands for another value: `ext://` and a dotted name
stand for something outside of the declaration, `cfg://` and a way for another part of it.  Such a
text is replaced when the value is asked for, so a bad one does no harm before that.  Outside there
is no more here than what declarations of logging are usually made of.
-/

namespace YamlCheck.Logging

open YamlCheck.Text YamlCheck.Yaml

inductive Outside
  | stream (name : String)
  | handler (k : HandlerKind)
  | formatter (k : FormatterKind)
  | filter
  | level (n : Int)
  | package (name : String)
  deriving Repr

/-- A value of a declaration, references replaced. -/
inductive Referent
  | value (t : Tree)
  | outside (o : Outside)
  deriving Repr

namespace Outside

def streams : List String := [
  "stdin", "stdout", "stderr", "__stdin__", "__stdout__", "__stderr__"]

/-- The packages that names lead into, and whether there are packages inside of them. -/
def packages : List (String × Bool) := [("sys", false), ("logging", true), ("coloredlogs", true)]

def member? (owner name : String) : Option Outside :=
  match owner, name with
  | "sys", name => if streams.contains name then some (.stream name) else none
  | "logging", "Handler" => some (.handler .plain)
  | "logging", "NullHandler" => some (.handler .null)
  | "logging", "StreamHandler" => some (.handler .stream)
  | "logging", "Formatter" => some (.formatter .standard)
  | "logging", "Filter" => some .filter
  | "logging", name =>
    ((Level.names ++ Level.synonyms).find? (·.1 == (name : Letters))).map fun e => .level e.2
  | "coloredlogs", "StandardErrorHandler" => some (.handler .standardError)
  | "coloredlogs", "BasicFormatter" => some (.formatter .basic)
  | "coloredlogs", "ColoredFormatter" => some (.formatter .coloured)
  | _, _ => none

def unresolved {α : Type} (name : Letters) (reason : String) : Except Flaw α :=
  .error (.rejected ("Cannot resolve " ++ quoted name ++ ": " ++ reason))

def noModule (name : Letters) : String := "No module named " ++ quoted name

def resolve (name : Letters) : Except Flaw Outside :=
  match (name.list.splitOn (.char '.')).map Letters.mk with
  | [] => .error (.rejected "Empty module name")
  | first :: rest =>
    if first.isEmpty then .error (.rejected "Empty module name")
    else match packages.find? (fun p => (p.1 : Letters) == first), rest with
      | none, _ => unresolved name (noModule first)
      | some (owner, _), [] => .ok (.package owner)
      | some (owner, nested), inner :: more =>
        match inner.text?.bind (member? owner), more with
        | some o, [] => .ok o
        | _, _ =>
          let missing := noModule (first ++ "." ++ inner)
          unresolved name
            (if nested then missing else missing ++ "; " ++ quoted first ++ " is not a package")

def referent : Outside → Referent
  | .level n => .value (.scalar (.int n))
  | o => .outside o

end Outside

/-- The kind of reference that a text is, and what follows the two slashes. -/
def reference? (text : Letters) : Option (String × Letters) :=
  let isSmall (l : Letter) : Bool := 'a' ≤ l.face && l.face ≤ 'z'
  let scheme := text.list.takeWhile isSmall
  match text.list.dropWhile isSmall with
  | .char ':' :: .char '/' :: .char '/' :: rest =>
    let rest := if rest.getLast? == some (.char '\n') then rest.dropLast else rest
    if scheme.isEmpty || rest.contains (.char '\n') then none
    else some (String.ofList (Letters.faces ⟨scheme⟩), ⟨rest⟩)
  | _ => none

/-- The value of a key among some entries; of two with the same key the later one counts. -/
def lookUp? (es : List (Tree × Tree)) (key : Tree) : Option Tree :=
  (es.reverse.find? fun e => sameKey e.1 key).map (·.2)

def typeName : Tree → String
  | .scalar (.date _) => "datetime.date"
  | .scalar (.dateTime _) => "datetime.datetime"
  | t => t.kindName

def withoutParts (t : Tree) : Flaw :=
  .rejected ("'" ++ typeName t ++ "' object is not subscriptable")

def letterKeys (s : Letters) : List Tree := s.list.map fun l => textKey ⟨[l]⟩

/-- The part of a value with a number, or under a text that is written like one. -/
def numberedPart (t : Tree) (n : Int) : Except Flaw Tree :=
  let item (kind : String) (ts : List Tree) : Except Flaw Tree :=
    match ts[n.toNat]? with
    | some v => .ok v
    | none => .error (.missingItem (kind ++ "index out of range"))
  match t with
  | .list ts => item "list " ts
  | .tuple ts => item "tuple " ts
  | .scalar (.text s) => item "string " (letterKeys s)
  | .scalar (.bytes bs) => item "" (bs.map fun b => .scalar (.int b.toNat))
  | .map es | .orderedMap es =>
    match lookUp? es (.scalar (.int n)) with
    | some v => .ok v
    | none => .error (.missingKey (.scalar (.int n)))
  | t => .error (withoutParts t)

def namedPart (t : Tree) (name : Letters) : Except Flaw Tree :=
  match t with
  | .map es | .orderedMap es =>
    match lookUp? es (textKey name) with
    | some v => .ok v
    | none => .error (.missingKey (textKey name))
  | .list _ => .error (.rejected "list indices must be integers or slices, not str")
  | .tuple _ => .error (.rejected "tuple indices must be integers or slices, not str")
  | .scalar (.text _) => .error (.rejected "string indices must be integers, not 'str'")
  | .scalar (.bytes _) => .error (.rejected "byte indices must be integers or slices, not str")
  | t => .error (withoutParts t)

inductive WayStep
  | named (name : Letters)
  | numbered (digits : Letters)

def isWordLetter : Letter → Bool
  | .char c => Template.isWordChar c
  | .half _ => false

def isDigitLetter : Letter → Bool
  | .char c => c.isDigit || (foreignDigit? c).isSome
  | .half _ => false

def dropBlanks (ls : List Letter) : List Letter := ls.dropWhile fun l => isBlank l.face

def word? (ls : List Letter) : Option (Letters × List Letter) :=
  match ls.takeWhile isWordLetter with
  | [] => none
  | w => some (⟨w⟩, ls.dropWhile isWordLetter)

def wayStep? (ls : List Letter) : Option (WayStep × List Letter) :=
  match ls with
  | .char '.' :: rest => do
    let (w, rest) ← word? (dropBlanks rest)
    return (.named w, dropBlanks rest)
  | .char '[' :: rest => do
    let (w, rest) ← word? (dropBlanks rest)
    match dropBlanks rest with
    | .char ']' :: rest =>
      return (if w.list.all isDigitLetter then .numbered w else .named w, dropBlanks rest)
    | _ => none
  | _ => none

def WayStep.part (t : Tree) : WayStep → Except Flaw Tree
  | .named name => namedPart t name
  | .numbered digits =>
    match Number.readInteger 10 digits with
    | .ok n => numberedPart t n
    | .error p => .error (.rejected p.message)

def follow (read : Tree → Except Flaw Referent) (way : Letters) :
    Nat → Referent → List Letter → Except Flaw Referent
  | _, r, [] => .ok r
  | 0, r, _ => .ok r
  | fuel + 1, r, rest =>
    match wayStep? rest with
    | none =>
      .error (.rejected ("Unable to convert " ++ quoted way ++ " at " ++ quoted ⟨rest⟩))
    | some (step, rest) => do
      let t ← match r with
        | .value t => pure t
        | .outside _ => throw (.rejected "'type' object is not subscriptable")
      follow read way fuel (← read (← step.part t)) rest

/-- Replaces a reference by what it stands for in a declaration with these entries; so many
references may be followed on the way. -/
def replace (whole : List (Tree × Tree)) : Nat → Tree → Except Flaw Referent
  | 0, _ => .error .endless
  | fuel + 1, t =>
    match t with
    | .scalar (.text s) =>
      match reference? s with
      | some ("ext", name) => (Outside.resolve name).map Outside.referent
      | some ("cfg", way) =>
        match word? (dropBlanks way.list) with
        | none => .error (.rejected ("Unable to convert " ++ quoted way))
        | some (w, rest) => do
          let first ← namedPart (.map whole) w
          let rest := dropBlanks rest
          follow (replace whole fuel) way rest.length (← replace whole fuel first) rest
      | _ => .ok (.value t)
    | t => .ok (.value t)

def referenceLimit : Nat := 300

end YamlCheck.Logging
