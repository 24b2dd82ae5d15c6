import YamlCheck.Yaml.Node
import YamlCheck.Yaml.Scalar

/-!
# Values of documents

A collection of a document is a cell that values refer to by the number of its node, so that two
aliases of one node share the cell and a collection may lie inside itself.  `Document.tree`
unfolds the cells, and a reference back to an enclosing collection becomes a step count.
-/

namespace YamlCheck.Yaml

open YamlCheck.Text

/-- A value: a scalar, a tuple of values or a reference to a collection. -/
inductive Value
  | scalar (s : Scalar)
  | tuple (items : List Value)
  | ref (id : NodeId)
  deriving Repr

inductive Cell
  | list (items : List Value)
  | map (entries : List (Value × Value))
  | orderedMap (entries : List (Value × Value))
  | set (items : List Value)
  deriving Repr

/-- The cells of a document, by the numbers of their nodes. -/
abbrev Cells := Array (Option Cell)

def Cells.cell (cells : Cells) (i : NodeId) : Cell := (cells.getD i none).getD (.list [])

/-- What a complaint calls a collection that cannot be a key. -/
def Cell.typeName : Cell → String
  | .list _ => "list"
  | .map _ => "dict"
  | .orderedMap _ => "ordereddict"
  | .set _ => "set"

namespace Value

def null : Value := .scalar .null

mutual

def same : Value → Value → Bool
  | .scalar a, .scalar b => a.same b
  | .tuple a, .tuple b => sameItems a b
  | .ref i, .ref j => i == j
  | _, _ => false

def sameItems : List Value → List Value → Bool
  | [], [] => true
  | a :: as, b :: bs => a.same b && sameItems as bs
  | _, _ => false

end

mutual

/-- The first collection in a value, which keeps it from being a key. -/
def collection? : Value → Option NodeId
  | .scalar _ => none
  | .ref i => some i
  | .tuple items => collectionIn? items

def collectionIn? : List Value → Option NodeId
  | [] => none
  | v :: rest => v.collection? <|> collectionIn? rest

end

/-- Gives a key its value: the key keeps its first place, the value is the last one. -/
def put (entries : List (Value × Value)) (k v : Value) : List (Value × Value) :=
  match entries with
  | [] => [(k, v)]
  | e :: rest => if e.1.same k then (e.1, v) :: rest else e :: put rest k v

def get? (entries : List (Value × Value)) (k : Value) : Option Value :=
  (entries.find? (·.1.same k)).map (·.2)

/-- More levels than a value over these cells can have without coming back to one of them. -/
def depthBound (cells : Cells) : Nat := 2 * cells.size + 4

end Value

structure Document where
  root : Value
  cells : Cells
  deriving Repr

inductive Tree
  | scalar (s : Scalar)
  | tuple (items : List Tree)
  | list (items : List Tree)
  | map (entries : List (Tree × Tree))
  | orderedMap (entries : List (Tree × Tree))
  | set (items : List Tree)
  /-- The collection that many levels up. -/
  | cycle (levels : Nat)
  /-- What lies deeper than anyone looks. -/
  | deep
  deriving Repr

namespace Tree

/-- Writes a value out; `around` are the collections and tuples it lies in, innermost first. -/
def unfold (cells : Cells) : Nat → List (Option NodeId) → Value → Tree
  | _, _, .scalar s => .scalar s
  | 0, _, _ => .deep
  | fuel + 1, around, .tuple items => .tuple (items.map (unfold cells fuel (none :: around)))
  | fuel + 1, around, .ref i =>
    match around.findIdx? (· == some i) with
    | some n => .cycle (n + 1)
    | none =>
      let inner := unfold cells fuel (some i :: around)
      match cells.cell i with
      | .list vs => .list (vs.map inner)
      | .map es => .map (es.map fun e => (inner e.1, inner e.2))
      | .orderedMap es => .orderedMap (es.map fun e => (inner e.1, inner e.2))
      | .set vs => .set (vs.map inner)

def kindName : Tree → String
  | .scalar s => s.kindName
  | .tuple _ => "tuple"
  | .list _ => "list"
  | .map _ => "dict"
  | .orderedMap _ => "ordereddict"
  | .set _ => "set"
  | .cycle _ | .deep => "list"

/-- Items between brackets, with commas. -/
def bracketed (left right : String) (items : List String) : String :=
  left ++ ", ".intercalate items ++ right

mutual

/-- The display of a value, which shows the kinds of its parts; `around` tells how each of the
collections that it lies in, innermost first, is shown inside itself. -/
def displayIn (around : List String) : Tree → Except LoadError String
  | .scalar s => s.display
  | .tuple [v] => do return "(" ++ (← displayIn ("(...)" :: around) v) ++ ",)"
  | .tuple vs => do return bracketed "(" ")" (← displayItems ("(...)" :: around) vs)
  | .list vs => do return bracketed "[" "]" (← displayItems ("[...]" :: around) vs)
  | .map es => do
    return bracketed "\x7b" "\x7d" (← displayEntries "" ": " "" ("\x7b...\x7d" :: around) es)
  | .orderedMap [] => .ok "ordereddict()"
  | .orderedMap es => do
    return bracketed "ordereddict([" "])" (← displayEntries "(" ", " ")" ("..." :: around) es)
  | .set [] => .ok "set()"
  | .set vs => do return bracketed "\x7b" "\x7d" (← displayItems ("set(...)" :: around) vs)
  | .cycle levels => .ok (around.getD (levels - 1) "")
  | .deep => .error (.breakdown (.tooDeep .showing))

def displayItems (around : List String) : List Tree → Except LoadError (List String)
  | [] => .ok []
  | v :: vs => do
    let shown ← displayIn around v
    return shown :: (← displayItems around vs)

def displayEntries (left between right : String) (around : List String) :
    List (Tree × Tree) → Except LoadError (List String)
  | [] => .ok []
  | (k, v) :: es => do
    let key ← displayIn around k
    let value ← displayIn around v
    return (left ++ key ++ between ++ value ++ right)
      :: (← displayEntries left between right around es)

end

mutual

/-- A value without what lies so many levels down or deeper. -/
def cut : Nat → Tree → Tree
  | 0, .scalar s => .scalar s
  | 0, _ => .deep
  | n + 1, .tuple vs => .tuple (cutItems n vs)
  | n + 1, .list vs => .list (cutItems n vs)
  | n + 1, .map es => .map (cutEntries n es)
  | n + 1, .orderedMap es => .orderedMap (cutEntries n es)
  | n + 1, .set vs => .set (cutItems n vs)
  | _ + 1, t => t

def cutItems : Nat → List Tree → List Tree
  | _, [] => []
  | n, v :: vs => cut n v :: cutItems n vs

def cutEntries : Nat → List (Tree × Tree) → List (Tree × Tree)
  | _, [] => []
  | n, (k, v) :: es => (cut n k, cut n v) :: cutEntries n es

end

/-- The display of a value, unless a part of it cannot be shown. -/
def display (t : Tree) : Except LoadError String := t.displayIn []

end Tree

def Value.tree (cells : Cells) (v : Value) : Tree := Tree.unfold cells (depthBound cells) [] v

/-- A value written out as far down as it can be shown. -/
def Value.shallow (limits : Limits) (cells : Cells) (v : Value) : Tree :=
  Tree.unfold cells (limits.showing + 1) [] v

/-- The text of a value: a text and a time as they are, all else as displayed. -/
def Value.plainText (limits : Limits) (cells : Cells) : Value → Except LoadError Letters
  | .scalar s => s.plainText
  | v => (v.shallow limits cells).display.map Letters.ofText

def Document.tree (d : Document) : Tree := d.root.tree d.cells

end YamlCheck.Yaml
