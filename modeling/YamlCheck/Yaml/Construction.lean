import YamlCheck.Yaml.Merge
import YamlCheck.Yaml.Value

/-!
# Building the value of a document

Nodes become values one by one.  A collection starts as an empty cell and is filled later: the
cells wait in a queue and are filled in rounds, each round filling the cells that the round before
left behind.  Keys of the modern dialect have to be complete at once; while one is built, its
collections are filled on the spot.

A node is built once, so that aliases share its value.  A node that is reached again while it is
being built is an error in the classic dialect; the modern one takes what is there.
-/

namespace YamlCheck.Yaml

open YamlCheck.Text

inductive Progress
  | untouched
  /-- Being built; what there is of it already may be used. -/
  | started (known : Option Value)
  | finished (v : Value)
  deriving Repr

structure Construction where
  rules : Rules
  graph : Graph
  progress : Array Progress
  cells : Cells
  /-- The collections whose cells are still to be filled, in order. -/
  queue : List NodeId := []
  /-- Whether cells are filled on the spot. -/
  atOnce : Bool := false

abbrev Build := StateT Construction (Except LoadError)

/-- How one node is built while another is: its number, and whether it has to be complete. -/
abbrev Builder := NodeId → Bool → Build Value

/-- More than the number of rounds in which the cells of a document are filled. -/
def Graph.bound (g : Graph) : Nat := g.nodes.size + 2

namespace Build

def complaint (p : Problem) (m : Mark) : LoadError :=
  .complaint .constructing { problem := some p, problemMark := some m }

def complain {α : Type} (p : Problem) (m : Mark) : Build α := throw (complaint p m)

def complainIn {α : Type} (context : Context) (around : Mark) (p : Problem) (m : Mark) : Build α :=
  throw (.complaint .constructing {
    context := some context, contextMark := some around,
    problem := some p, problemMark := some m })

def lift {α : Type} (r : Except LoadError α) : Build α := r

def node (i : NodeId) : Build Node := return (← get).graph.node i

def setProgress (i : NodeId) (p : Progress) : Build Unit := modify fun c => { c with
  progress := c.progress.setIfInBounds i p }

def setCell (i : NodeId) (cell : Cell) : Build Unit := modify fun c => { c with
  cells := c.cells.setIfInBounds i (some cell) }

/-- The text of a scalar, or of the plain value of a mapping.  A plain value may be a mapping with
a plain value itself; `depth` bounds how often. -/
def textOf (g : Graph) : Nat → NodeId → Except LoadError Letters
  | 0, _ => .error (.breakdown (.tooDeep .plainValue))
  | depth + 1, i =>
    let n := g.node i
    match n.content with
    | .scalar text => .ok text
    | .sequence _ => .error (complaint (.expectedNode .scalar .sequence) n.mark)
    | .mapping es =>
      match es.find? fun e => (g.node e.key).tag == Tag.value with
      | some e => textOf g depth e.value
      | none => .error (complaint (.expectedNode .scalar .mapping) n.mark)

def text (l : Limits) (g : Graph) (i : NodeId) : Except LoadError Letters :=
  textOf g (l.plain + 1) i

/-- The display of the items of a sequence. -/
def itemsDisplay (inner : NodeId → Except LoadError String) (items : List NodeId) :
    Except LoadError String := do
  return Tree.bracketed "[" "]" (← items.mapM inner)

def entryDisplay (inner : NodeId → Except LoadError String) (e : Entry) :
    Except LoadError String := do
  let key ← inner e.key
  let value ← inner e.value
  return "(" ++ key ++ ", " ++ value ++ ")"

/-- The display of the entries of a mapping. -/
def entriesDisplay (inner : NodeId → Except LoadError String) (es : List Entry) :
    Except LoadError String := do
  return Tree.bracketed "[" "]" (← es.mapM (entryDisplay inner))

/-- The display of a node in a complaint about it; `around` are the nodes it lies in and `depth`
bounds how many more may lie in one another. -/
def nodeDisplay (g : Graph) : Nat → List NodeId → NodeId → Except LoadError String
  | 0, _, _ => .error (.breakdown (.tooDeep .showing))
  | depth + 1, around, i => do
    let n := g.node i
    let frame (kind value : String) : String :=
      kind ++ "(tag=" ++ Text.quoted n.tag ++ ", value=" ++ value ++ ")"
    let inner := nodeDisplay g depth (i :: around)
    match n.content with
    | .scalar text => return frame "ScalarNode" (Text.quoted text)
    | .sequence items =>
      return frame "SequenceNode"
        (← if around.contains i then pure "[...]" else itemsDisplay inner items)
    | .mapping es =>
      return frame "MappingNode"
        (← if around.contains i then pure "[...]" else entriesDisplay inner es)

def contentDisplay (l : Limits) (g : Graph) (i : NodeId) : Except LoadError Letters := do
  let inner := nodeDisplay g l.nodes [i]
  match (g.node i).content with
  | .scalar text => return text
  | .sequence items => return ← itemsDisplay inner items
  | .mapping es => return ← entriesDisplay inner es

/-- A date or a time.  Only the classic dialect lets a mapping stand for its plain value first, and
then finds that the node itself has no text. -/
def timestamp (r : Rules) (g : Graph) (i : NodeId) : Except LoadError Scalar := do
  let n := g.node i
  let written := match n.content with
    | .scalar text => WrittenTimestamp.read? (dropLastBreak text.faces)
    | _ => none
  if r.dialect == .classic then
    let _ ← text r.limits g i
    if n.content.kind != .scalar then throw (.badKind (.notText "list"))
  match written, r.dialect with
  | some w, d => timestampOf d w
  | none, .classic => throw (.breakdown .malformedTime)
  | none, .modern => throw (complaint (.notTime (← contentDisplay r.limits g i)) n.mark)

def scalar (r : Rules) (g : Graph) (i : NodeId) : Except LoadError Scalar := do
  let n := g.node i
  let tag := n.tag
  let text := text r.limits g i
  if tag == Tag.str then return .text (← text)
  else if tag == Tag.null then
    let _ ← text
    return .null
  else if tag == Tag.bool then return .bool (← boolOf r.dialect (← text))
  else if tag == Tag.int then return .int (← intOf r.schema (← text))
  else if tag == Tag.float then floatOf r.schema i (← text)
  else if tag == Tag.binary then return .bytes (← bytesOf n.mark (← text))
  else if tag == Tag.timestamp then timestamp r g i
  else throw (complaint (.unknownTag tag) n.mark)

/-- The cell in which a collection starts, if the tag names one. -/
def emptyCell? (d : Dialect) (tag : String) : Option Cell :=
  if tag == Tag.map then some (.map [])
  else if tag == Tag.seq || tag == Tag.pairs then some (.list [])
  else if tag == Tag.set then some (.set [])
  else if tag == Tag.omap then some (if d == .classic then .list [] else .orderedMap [])
  else none

def sequence (make : Builder) (i : NodeId) : Build (List Value) := do
  let n ← node i
  match n.content with
  | .sequence items => items.mapM fun j => make j false
  | other => complain (.expectedNode .sequence other.kind) n.mark

/-- Complains about a repeated key, unless it cannot be shown. -/
def complainOf {α : Type} (around : Mark) (s : Scalar) (m : Mark) : Build α := do
  complainIn .mappingValue around (.repeatedKey (← lift s.display)) m

/-- Refuses a mapping that repeats a key.  Keys of different types are different; merge keys do
not count, and what is no scalar is left to be refused as a key. -/
def refuseRepeatedKeys (make : Builder) (i : NodeId) : Build Unit := do
  let n ← node i
  loop n.mark [] ((← get).graph.entries i)
where
  loop (around : Mark) (seen : List Scalar) : List Entry → Build Unit
    | [] => return ()
    | e :: rest => do
      let key ← node e.key
      if key.tag == Tag.merge then loop around seen rest
      else
        match ← make e.key false with
        | .scalar s =>
          if seen.any fun t => t.type == s.type && t.same s then
            complainOf around s key.mark
          loop around (s :: seen) rest
        | _ => loop around seen rest

def classicEntries (make : Builder) (around : Mark) (acc : List (Value × Value)) :
    List Entry → Build (List (Value × Value))
  | [] => return acc
  | e :: rest => do
    let k ← make e.key false
    if k.collection?.isSome then
      complainIn .mappingValue around .unhashableKey (← node e.key).mark
    let v ← make e.value false
    classicEntries make around (Value.put acc k v) rest

/-- A list as a key becomes a tuple. -/
def keyOf (cells : Cells) (k : Value) : Value :=
  match k with
  | .ref i => match cells.cell i with
    | .list vs => .tuple vs
    | _ => k
  | _ => k

def refuseReference (around mark : Mark) : Value → Build Unit
  | .ref _ => complainIn .mappingValue around .unhashableKey mark
  | _ => return ()

def refuseUnhashable (k : Value) : Build Unit :=
  match k.collection? with
  | some j => do throw (.badKind (.unhashable ((← get).cells.cell j).typeName))
  | none => return ()

/-- Complains that a key is repeated with another value, unless they cannot be shown. -/
def complainRepeated {α : Type} (around key : Mark) (k v old : Value) : Build α := do
  let c ← get
  let shown (v : Value) : Build Letters := lift (v.plainText c.rules.limits c.cells)
  let problem := .repeatedKeyWithValue (← shown k) (← shown v) (← shown old)
  throw (.complaint .checkingKeys {
    context := some .mappingValue, contextMark := some around
    problem := some problem, problemMark := some key, note := some .aboutRepeatedKeys })

/-- The entries of a mapping in the modern dialect.  `checked` is false for a mapping with merge
keys, which may repeat keys; there the last value counts, elsewhere the first. -/
def modernEntries (make : Builder) (around : Mark) (checked : Bool)
    (acc : List (Value × Value)) : List Entry → Build (List (Value × Value))
  | [] => return acc
  | e :: rest => do
    let made ← make e.key true
    let k := keyOf (← get).cells made
    let mark := (← node e.key).mark
    refuseReference around mark k
    let v ← make e.value false
    refuseUnhashable k
    match checked, Value.get? acc k with
    | true, some old =>
      if (← get).rules.duplicates == .refused then complainRepeated around mark k v old
      modernEntries make around checked acc rest
    | _, _ => modernEntries make around checked (Value.put acc k v) rest

def replaceMerges (i : NodeId) : Build Unit := do
  let c ← get
  let (_, g) ← lift ((Merging.replace c.rules i).run c.graph)
  set { c with graph := g }

/-- The entries of a mapping in the classic dialect, the merged ones first. -/
def classicMapping (make : Builder) (i : NodeId) : Build (List (Value × Value)) := do
  replaceMerges i
  let n ← node i
  classicEntries make n.mark [] ((← get).graph.entries i)

/-- The entries of a mapping in the modern dialect, the merged ones twice and first. -/
def modernMapping (make : Builder) (i : NodeId) : Build (List (Value × Value)) := do
  replaceMerges i
  let n ← node i
  let own := (← get).graph.entries i
  modernEntries make n.mark n.merged.isNone [] (n.merged.getD [] ++ own)

def mapping (make : Builder) (i : NodeId) : Build (List (Value × Value)) := do
  let r := (← get).rules
  let n ← node i
  if n.content.kind != .mapping then
    complain (.expectedNode .mapping n.content.kind) n.mark
  match r.dialect with
  | .classic =>
    if r.duplicates == .refused then refuseRepeatedKeys make i
    classicMapping make i
  | .modern => modernMapping make i

def singleEntry (context : Context) (around : Mark) (i : NodeId) : Build Entry := do
  let n ← node i
  match n.content with
  | .mapping [e] => return e
  | .mapping es => complainIn context around (.expectedOneEntry es.length) n.mark
  | other => complainIn context around (.expectedEntry other.kind) n.mark

def pairItems (context : Context) (i : NodeId) : Build (Mark × List NodeId) := do
  let n ← node i
  match n.content with
  | .sequence items => return (n.mark, items)
  | other => complainIn context n.mark (.expectedSequence other.kind) n.mark

def fillPairs (make : Builder) (context : Context) (i : NodeId) : Build Unit := do
  let (around, items) ← pairItems context i
  loop around [] items
where
  loop (around : Mark) (acc : List Value) : List NodeId → Build Unit
    | [] => return ()
    | j :: rest => do
      let e ← singleEntry context around j
      let k ← make e.key false
      let v ← make e.value false
      let acc := acc ++ [.tuple [k, v]]
      setCell i (.list acc)
      loop around acc rest

/-- Fills the cell `i` with the entries of an ordered map, which repeats no key. -/
def fillOrderedMap (make : Builder) (i : NodeId) : Build Unit := do
  let (around, items) ← pairItems .orderedMap i
  loop around [] items
where
  loop (around : Mark) (acc : List (Value × Value)) : List NodeId → Build Unit
    | [] => return ()
    | j :: rest => do
      let e ← singleEntry .orderedMap around j
      let k ← make e.key false
      refuseUnhashable k
      if (Value.get? acc k).isSome then throw (.breakdown .repeatedEntry)
      let v ← make e.value false
      let acc := acc ++ [(k, v)]
      setCell i (.orderedMap acc)
      loop around acc rest

def fill (make : Builder) (i : NodeId) : Build Unit := do
  let tag := (← node i).tag
  let d := (← get).rules.dialect
  if tag == Tag.seq then setCell i (.list (← sequence make i))
  else if tag == Tag.map then setCell i (.map (← mapping make i))
  else if tag == Tag.set then setCell i (.set ((← mapping make i).map (·.1)))
  else if tag == Tag.pairs then fillPairs make .pairs i
  else if d == .classic then fillPairs make .orderedMap i
  else fillOrderedMap make i

def start (make : Builder) (i : NodeId) (empty : Cell) : Build Value := do
  setCell i empty
  let c ← get
  if c.atOnce then
    if c.rules.dialect == .modern then setProgress i (.started (some (.ref i)))
    fill make i
  else set { c with queue := c.queue ++ [i] }
  return .ref i

/-- Builds the value of a node that has not been reached before. -/
def fresh (make : Builder) (i : NodeId) : Build Value := do
  let c ← get
  match emptyCell? c.rules.dialect (c.graph.node i).tag with
  | some cell => start make i cell
  | none => return .scalar (← lift (scalar c.rules c.graph i))

def setAtOnce (b : Bool) : Build Unit := modify fun c => { c with atOnce := b }

/-- Builds the value of a node; `whole` says that it has to be complete. -/
def makeWith (make : Builder) (i : NodeId) (whole : Bool) : Build Value := do
  let c ← get
  match c.progress.getD i .untouched with
  | .finished v => return v
  | .started known =>
    match c.rules.dialect with
    | .classic => complain .recursiveNode (c.graph.node i).mark
    | .modern =>
      if whole then setAtOnce true
      return known.getD .null
  | .untouched =>
    if whole then setAtOnce true
    setProgress i (.started none)
    let v ← fresh make i
    setProgress i (.finished v)
    if whole then setAtOnce c.atOnce
    return v

/-- Builds the value of a node.  Nodes that are built on the spot may lie in one another `depth`
levels deep. -/
def make : Nat → Builder
  | 0, _, _ => throw (.breakdown (.tooDeep .building))
  | depth + 1, i, whole => makeWith (make depth) i whole

/-- Fills the cells that wait, round by round. -/
def fillQueue (make : Builder) : Nat → Build Unit
  | 0 => throw .stalled
  | fuel + 1 => do
    let c ← get
    if c.queue.isEmpty then return ()
    set { c with queue := [] }
    c.queue.forM (fill make)
    fillQueue make fuel

def document : Build Document := do
  let c ← get
  let make := make (c.rules.limits.building + 1)
  let root ← make c.graph.root false
  fillQueue make c.graph.bound
  return ⟨root, (← get).cells⟩

end Build

def Construction.start (r : Rules) (g : Graph) : Construction where
  rules := r
  graph := g
  progress := Array.replicate g.nodes.size .untouched
  cells := Array.replicate g.nodes.size none

def Graph.document (g : Graph) (r : Rules) : Except LoadError Document :=
  (Build.document.run (Construction.start r g)).map (·.1)

end YamlCheck.Yaml
