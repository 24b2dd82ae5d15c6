import YamlCheck.Config.Basic
import YamlCheck.Config.Given
import YamlCheck.Config.Problem

/-!
# Reading a configuration

Each setting is looked up under its file key and then under its name.  Values are taken with some
leniency: a truth value may be written as a word or a number, a text as bytes.  A key that is no
setting is a problem, and so is the name of a setting that was already given by its file key.
-/

namespace YamlCheck

open YamlCheck.Text YamlCheck.Number YamlCheck.Yaml

/-- The outcome of reading something: its value or all that is wrong with it. -/
abbrev Judged (α : Type) := Except (List Problem) α

namespace Judged

def problems {α : Type} : Judged α → List Problem
  | .ok _ => []
  | .error ps => ps

def refuse {α : Type} (place : List Step) (t : Trouble) (v : Tree) : Judged α :=
  .error [⟨place, t, v⟩]

end Judged

open Judged (refuse)

/-- A text; bytes are taken for their text. -/
def readText (place : List Step) (v : Tree) : Judged Letters :=
  match v with
  | .scalar (.text s) => .ok s
  | .scalar (.bytes bs) =>
    match Utf8.text? bs with
    | some s => .ok s
    | none => refuse place .notUnicode v
  | v => refuse place .notText v

def readTexts (place : List Step) (i : Nat) : List Tree → Judged (List Letters)
  | [] => .ok []
  | v :: vs =>
    match readText (place ++ [.number i]) v, readTexts place (i + 1) vs with
    | .ok s, .ok ss => .ok (s :: ss)
    | r, rs => .error (r.problems ++ rs.problems)

def readList (place : List Step) (g : Given) : Judged (List Letters) :=
  match g.items? with
  | some vs => readTexts place 0 vs
  | none => refuse place .notList g.whole

def lowerAscii (c : Char) : Char := if c.isUpper then Char.ofNat (c.toNat + 32) else c

def truthOfWord? (s : String) : Option Bool :=
  let word := String.ofList (s.toList.map lowerAscii)
  if ["1", "on", "t", "true", "y", "yes"].contains word then some true
  else if ["0", "off", "f", "false", "n", "no"].contains word then some false
  else none

def truthOfInt? (i : Int) : Option Bool :=
  if i == 0 then some false else if i == 1 then some true else none

/-- A truth value; words and the numbers zero and one are taken for truth values. -/
def readTruth (place : List Step) (g : Given) : Judged Bool :=
  let v := g.whole
  let clear (r : Option Bool) : Judged Bool := match r with
    | some b => .ok b
    | none => refuse place .unclearTruth v
  let ofInt (i : Int) : Judged Bool :=
    if isMachineInt i then clear (truthOfInt? i) else refuse place .notTruth v
  match v with
  | .scalar (.bool b) => .ok b
  | .scalar (.text s) =>
    match s.text? with
    | some word => clear (truthOfWord? word)
    | none => refuse place .notUnicode v
  | .scalar (.bytes bs) => clear ((Utf8.text? bs).bind truthOfWord?)
  | .scalar (.int i) => ofInt i
  | .scalar (.float x _) =>
    match x.toInt? with
    | some i => if i == -9223372036854775808 then refuse place .notTruth v else ofInt i
    | none => refuse place .notTruth v
  | _ => refuse place .notTruth v

def readParser (place : List Step) (g : Given) : Judged Dialect :=
  match g.whole with
  | .scalar (.text s) =>
    match s.text?, s.text?.bind Dialect.ofName? with
    | _, some d => .ok d
    | some _, none => refuse place .notParser g.whole
    | none, none => refuse place .notUnicode g.whole
  | v => refuse place .notParser v

namespace Entries

/-- The value of a setting and the spelling under which it is given. -/
def given? (es : Entries) (f : Field) : Option (String × Given) :=
  match es.find? f.fileKey with
  | some g => some (f.fileKey, g)
  | none => (es.find? f.name).map fun g => (f.name, g)

/-- Reads one setting; one that is not given keeps its default. -/
def setting {α : Type} (es : Entries) (f : Field) (default : α)
    (read : List Step → Given → Judged α) : Judged α :=
  match es.given? f with
  | some (key, g) => read [.key key] g
  | none => .ok default

def used (es : Entries) : List String := Field.all.filterMap fun f => (es.given? f).map (·.1)

def strayProblem? (used : List String) (e : Tree × Given) : Option Problem :=
  match keyText? e with
  | some key => if used.contains key then none else some ⟨[.key key], .unknownKey, e.2.whole⟩
  | none => some ⟨[Step.ofKey e.1], .keyNotText, e.1⟩

def strays (es : Entries) : List Problem := List.filterMap (strayProblem? es.used) es

/-- Whether a key is a text with halves, which no name can be compared with. -/
def isBrokenKey (e : Tree × Given) : Bool :=
  match e.1 with
  | .scalar (.text s) => s.text?.isNone
  | _ => false

/-- The problem of the first broken key. -/
def broken? (es : Entries) : Option Problem :=
  (List.find? isBrokenKey es).map fun e => ⟨[], .notUnicode, e.1⟩

end Entries

namespace Config

/-- The settings among some entries, which must hold nothing else. -/
def ofEntries (es : Entries) : Judged Config :=
  let c : Config := {}
  match es.setting .searchPaths c.searchPaths readList,
    es.setting .searchRecursive c.searchRecursive readTruth,
    es.setting .allowDuplicates c.allowDuplicates readTruth,
    es.setting .parser c.parser readParser, es.strays with
  | .ok paths, .ok recursive, .ok duplicates, .ok parser, [] =>
    .ok ⟨paths, recursive, duplicates, parser⟩
  | paths, recursive, duplicates, parser, strays =>
    .error (paths.problems ++ recursive.problems ++ duplicates.problems ++ parser.problems
      ++ strays)

/-- Reads a configuration.  A broken key ends the reading before anything else can be said. -/
def read (es : Entries) : Judged Config :=
  match es.broken? with
  | some p => .error [p]
  | none => ofEntries es

def entries (c : Config) : Entries := [
  Entries.entry Field.searchPaths.name (.ofTexts c.searchPaths),
  Entries.entry Field.searchRecursive.name (.ofBool c.searchRecursive),
  Entries.entry Field.allowDuplicates.name (.ofBool c.allowDuplicates),
  Entries.entry Field.parser.name (.ofText c.parser.name)]

/-- Lays values over the entries of a configuration; a null says nothing. -/
def lay (es : Entries) (values : List (String × Given)) : Entries :=
  values.foldl (fun es o => if o.2.isNull then es else es.put o.1 o.2) es

def build (base : Option Config) (values : List (String × Given)) : Judged Config :=
  read (lay ((base.map entries).getD []) values)

/-- A configuration does not change, so setting a value is always a problem. -/
def set (_ : Config) (key : String) (v : Tree) : Problem := ⟨[.key key], .frozen, v⟩

end Config

end YamlCheck
