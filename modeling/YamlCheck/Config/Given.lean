import YamlCheck.Yaml.Value

/-!
# What a configuration is read from

A configuration is read from keys and values, which come from a document or from elsewhere.  A
value of a document may lie inside itself; so besides the whole value its items are kept, each
written out on its own.
-/

namespace YamlCheck

open YamlCheck.Text YamlCheck.Yaml

structure Given where
  whole : Tree
  /-- The items, if the value is a sequence. -/
  items? : Option (List Tree)
  deriving Repr

namespace Given

/-- A value that does not lie inside itself. -/
def ofTree (t : Tree) : Given where
  whole := t
  items? := match t with
    | .list vs | .tuple vs | .set vs => some vs
    | _ => none

def ofText (s : Letters) : Given := ofTree (.scalar (.text s))

def ofBool (b : Bool) : Given := ofTree (.scalar (.bool b))

def ofTexts (ss : List Letters) : Given := ofTree (.list (ss.map fun s => .scalar (.text s)))

def ofValue (limits : Limits) (cells : Cells) (v : Value) : Given where
  whole := v.shallow limits cells
  items? := match v with
    | .scalar _ => none
    | .tuple vs => some (vs.map (·.shallow limits cells))
    | .ref i =>
      match cells.cell i with
      | .list vs | .set vs => some (vs.map (·.shallow limits cells))
      | _ => none

def isNull (g : Given) : Bool :=
  match g.whole with
  | .scalar .null => true
  | _ => false

end Given

/-- Keys with their values, in order; no two keys are the same. -/
abbrev Entries := List (Tree × Given)

def Yaml.Document.entries? (limits : Limits) (d : Document) : Option Entries :=
  match d.root with
  | .ref i =>
    match d.cells.cell i with
    | .map es => some (es.map fun e =>
        (e.1.shallow limits d.cells, Given.ofValue limits d.cells e.2))
    | _ => none
  | _ => none

namespace Entries

def entry (key : String) (g : Given) : Tree × Given := (.scalar (.text key), g)

/-- The text of a key, if it is one without halves. -/
def keyText? (e : Tree × Given) : Option String :=
  match e.1 with
  | .scalar (.text s) => s.text?
  | _ => none

def find? (es : Entries) (key : String) : Option Given :=
  (List.find? (fun e => keyText? e == some key) es).map (·.2)

/-- Gives a key a value; a new key comes last. -/
def put (key : String) (g : Given) : Entries → Entries
  | [] => [entry key g]
  | e :: es => if keyText? e == some key then entry key g :: es else e :: put key g es

end Entries

end YamlCheck
