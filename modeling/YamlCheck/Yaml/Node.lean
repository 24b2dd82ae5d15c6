import YamlCheck.Yaml.Event
import YamlCheck.Yaml.Tag

/-!
# Nodes

A document is a graph of nodes: collections refer to their parts by number, and an alias is a
second reference to the same node, which may even lie inside itself.  The graph is built from
events with a stack of the collections that are still open.  The classic dialect wants an anchor
to name one node of its document only; in the modern one the last node with it counts.
-/

namespace YamlCheck.Yaml

open YamlCheck.Text

/-- The number of a node in its document. -/
abbrev NodeId := Nat

/-- How far the recursions of a reader may go before the stack is used up. -/
structure Limits where
  /-- How many collections may be open at once. -/
  nesting : Nat
  /-- How many mappings may be merged into one another in one go. -/
  merging : Nat
  /-- How many plain values may be gone through to find a text. -/
  plain : Nat
  /-- How many collections may be built inside one another on the spot. -/
  building : Nat
  /-- How many collections inside one another may be shown. -/
  showing : Nat
  /-- How many nodes inside one another may be shown. -/
  nodes : Nat
  /-- Any stack has room for a list in a mapping. -/
  room : 2 ≤ nesting
  deriving Repr, DecidableEq

/-- About what a stack of a thousand frames leaves for each recursion. -/
def Limits.usual : Limits where
  nesting := 480
  merging := 960
  plain := 960
  building := 120
  showing := 960
  nodes := 320
  room := by decide

structure Entry where
  key : NodeId
  value : NodeId
  deriving Repr, DecidableEq

inductive Content
  | scalar (text : Letters)
  | sequence (items : List NodeId)
  | mapping (entries : List Entry)
  deriving Repr, DecidableEq

def Content.kind : Content → NodeKind
  | .scalar _ => .scalar
  | .sequence _ => .sequence
  | .mapping _ => .mapping

structure Node where
  tag : String
  content : Content
  mark : Mark
  /-- The entries that merge keys brought in, once the merge keys have been replaced by them. -/
  merged : Option (List Entry) := none
  deriving Repr, DecidableEq

structure Graph where
  nodes : Array Node := #[]
  root : NodeId := 0
  deriving Repr, DecidableEq

/-- A node that stands for one that is missing. -/
def Node.absent : Node := ⟨Tag.null, .scalar "", ⟨0, 0, 0⟩, none⟩

def Graph.node (g : Graph) (i : NodeId) : Node := g.nodes.getD i .absent

def Graph.add (g : Graph) (n : Node) : Graph × NodeId :=
  ({ g with nodes := g.nodes.push n }, g.nodes.size)

/-- A collection that has not ended: its parts so far, last one first, and the key that waits for
its value. -/
structure OpenCollection where
  id : NodeId
  kind : NodeKind
  items : List NodeId := []
  entries : List Entry := []
  key : Option NodeId := none

def OpenCollection.content (c : OpenCollection) : Content :=
  match c.kind with
  | .mapping => .mapping c.entries.reverse
  | _ => .sequence c.items.reverse

def OpenCollection.add (c : OpenCollection) (i : NodeId) : OpenCollection :=
  match c.kind, c.key with
  | .mapping, none => { c with key := some i }
  | .mapping, some k => { c with key := none, entries := ⟨k, i⟩ :: c.entries }
  | _, _ => { c with items := i :: c.items }

structure Composition where
  graph : Graph := {}
  anchors : List (String × NodeId) := []
  /-- The open collections, innermost first. -/
  stack : List OpenCollection := []
  /-- Whether the root is complete. -/
  complete : Bool := false

namespace Composition

/-- Makes a node a part of the innermost open collection, or the root. -/
def attach (c : Composition) (i : NodeId) : Composition :=
  match c.stack with
  | [] => { c with graph := { c.graph with root := i }, complete := true }
  | top :: rest => { c with stack := top.add i :: rest }

def add (c : Composition) (anchor : Option String) (n : Node) : Composition × NodeId :=
  let (g, i) := c.graph.add n
  ({ c with
    graph := g
    anchors := match anchor with
      | none => c.anchors
      | some a => (a, i) :: c.anchors }, i)

def openNode (c : Composition) (p : Properties) (kind : NodeKind) (tag : String) (m : Mark) :
    Composition :=
  let content := match kind with
    | .mapping => .mapping []
    | _ => .sequence []
  let (c, i) := c.add p.anchor ⟨p.tag.getD tag, content, m, none⟩
  { c with stack := { id := i, kind := kind } :: c.stack }

def closeNode (c : Composition) : Composition :=
  match c.stack with
  | [] => c
  | top :: rest =>
    let n := { c.graph.node top.id with content := top.content }
    let g := { c.graph with nodes := c.graph.nodes.setIfInBounds top.id n }
    attach { c with graph := g, stack := rest } top.id

/-- The complaint about an anchor that names another node of the document already. -/
def repeatedAnchor? (schema : Schema) (c : Composition) (anchor : Option String) (m : Mark) :
    Option LoadError :=
  match schema, anchor with
  | .classic, some name =>
    (c.anchors.lookup name).map fun i => .complaint .composing {
      context := some (.repeatedAnchor name), contextMark := some (c.graph.node i).mark
      problem := some .secondAnchor, problemMark := some m }
  | _, _ => none

/-- Opens a collection, unless its anchor is repeated or too many others are open. -/
def enter (limits : Limits) (schema : Schema) (c : Composition) (p : Properties) (kind : NodeKind)
    (tag : String) (m : Mark) : Except LoadError Composition :=
  if limits.nesting ≤ c.stack.length then .error (.breakdown (.tooDeep .composing))
  else match c.repeatedAnchor? schema p.anchor m with
    | some err => .error err
    | none => .ok (c.openNode p kind tag m)

def step (limits : Limits) (schema : Schema) (c : Composition) (e : Event) :
    Except LoadError Composition :=
  match e.kind with
  | .aliasTo name =>
    match c.anchors.lookup name with
    | some i => .ok (c.attach i)
    | none =>
      .error (.complaint .composing {
        problem := some (.undefinedAlias name), problemMark := some e.mark })
  | .scalar p plain text =>
    match c.repeatedAnchor? schema p.anchor e.mark with
    | some err => .error err
    | none =>
      let tag := p.tag.getD (if plain then schema.resolve text else Tag.str)
      let (c, i) := c.add p.anchor ⟨tag, .scalar text, e.mark, none⟩
      .ok (c.attach i)
  | .sequenceStart p => c.enter limits schema p .sequence Tag.seq e.mark
  | .mappingStart p => c.enter limits schema p .mapping Tag.map e.mark
  | .sequenceEnd => .ok c.closeNode
  | .mappingEnd => .ok c.closeNode
  | _ => .error .stalled

end Composition

def Reader.schema (r : Reader) : Schema :=
  match r.dialect with
  | .classic => .classic
  | .modern => if r.rules == .v11 then .modern11 else .modern12

namespace Parse

def schema : Parse Schema := return (← get).reader.schema

/-- Builds a document from its events; `fuel` bounds their number. -/
def compose (limits : Limits) : Nat → Composition → Parse Graph
  | 0, _ => throw .stalled
  | fuel + 1, c => do
    let e ← event
    match c.step limits (← schema) e with
    | .error err => throw err
    | .ok c => if c.complete then return c.graph else compose limits fuel c

/-- A bound on the number of events: each takes a token or leaves out a node beside one, and a
character gives at most four tokens. -/
def eventFuel : Parse Nat := return 32 * (← get).reader.bound

/-- The first event of the next document, unless the stream ends. -/
def documentStart? : Parse (Option Event) := do
  let e ← event
  let e ← if e.kind == .streamStart then event else pure e
  return if e.kind == .streamEnd then none else some e

def documentRest (limits : Limits) : Parse Graph := do
  let g ← compose limits (← eventFuel) {}
  let _ ← event
  return g

end Parse

end YamlCheck.Yaml
