import YamlCheck.Yaml.Node

/-!
# Merge keys

A merge key brings the entries of another mapping, or of a list of mappings, into its own.  Before
a mapping is built, its merge keys are replaced by those entries, put before its own; the graph is
changed, so whoever reaches the node later finds the entries in place of the keys.
-/

namespace YamlCheck.Yaml

inductive Duplicates
  | refused
  | allowed
  deriving Repr, DecidableEq

/-- What the values in a document depend on in either dialect. -/
structure Terms where
  limits : Limits
  schema : Schema
  deriving Repr, DecidableEq

structure Rules extends Terms where
  dialect : Dialect
  duplicates : Duplicates
  deriving Repr, DecidableEq

/-- Computations that change the graph and may fail. -/
abbrev Merging := StateT Graph (Except LoadError)

namespace Graph

def entries (g : Graph) (i : NodeId) : List Entry :=
  match (g.node i).content with
  | .mapping es => es
  | _ => []

def setNode (g : Graph) (i : NodeId) (n : Node) : Graph :=
  { g with nodes := g.nodes.setIfInBounds i n }

def setEntries (g : Graph) (i : NodeId) (es : List Entry) : Graph :=
  g.setNode i { g.node i with content := .mapping es }

def isMerge (g : Graph) (e : Entry) : Bool := (g.node e.key).tag == Tag.merge

/-- A key that only stands for the plain value of its mapping is an ordinary key after all. -/
def settleValueKey (g : Graph) (e : Entry) : Graph :=
  let n := g.node e.key
  if n.tag == Tag.value then g.setNode e.key { n with tag := Tag.str } else g

/-- Puts the entries that were merged before those of the mapping itself. -/
def addMerged (g : Graph) (i : NodeId) (merged : List Entry) : Graph :=
  if merged.isEmpty then g
  else
    let g := g.setEntries i (merged ++ g.entries i)
    g.setNode i { g.node i with merged := some merged }

/-- What stays of entries that lie behind a merge key with an effect, and whether it was looked at:
merge keys go, and the entry after each of them stays unseen. -/
def sift (g : Graph) : List Entry → List (Entry × Bool)
  | [] => []
  | [e] => if g.isMerge e then [] else [(e, true)]
  | e :: next :: rest =>
    if g.isMerge e then (next, false) :: g.sift rest else (e, true) :: g.sift (next :: rest)

/-- Sifts those entries of a mapping that come after the ones in `kept`. -/
def siftEntries (g : Graph) (i : NodeId) (kept es : List Entry) : Graph :=
  let sifted := g.sift es
  let seen := (sifted.filter (·.2)).map (·.1)
  (seen.foldl settleValueKey g).setEntries i (kept ++ sifted.map (·.1))

end Graph

/-- A way to replace the merge keys of a mapping from some entry on; it gives the entries that they
bring in, after those that were brought in before. -/
abbrev Replacer := NodeId → Nat → List Entry → Merging (List Entry)

namespace Merging

def complain {α : Type} (node : Mark) (p : Problem) (m : Mark) : Merging α :=
  throw (.complaint .constructing {
    context := some .mappingValue, contextMark := some node,
    problem := some p, problemMark := some m })

def complainRepeated {α : Type} (node key : Mark) : Merging α :=
  throw (.complaint .checkingKeys {
    context := some .mappingValue, contextMark := some node,
    problem := some .repeatedMerge, problemMark := some key, note := some .aboutRepeatedMerges })

/-- All entries of a mapping once `inner` has replaced its merge keys. -/
def wholeWith (inner : Replacer) (i : NodeId) : Merging (List Entry) := do
  let merged ← inner i 0 []
  modify (·.addMerged i merged)
  return (← get).entries i

/-- The entries that the value `source` of a merge key in the node at `mark` brings in. -/
def broughtIn (inner : Replacer) (mark : Mark) (id : NodeId) (source : Node) :
    Merging (List Entry) := do
  match source.content with
  | .mapping _ => wholeWith inner id
  | .sequence items =>
    let parts ← items.mapM fun i => do
      let part := (← get).node i
      if part.content.kind != .mapping then
        complain mark (.expectedMappingToMerge part.content.kind) part.mark
      wholeWith inner i
    return parts.reverse.flatten
  | .scalar _ => complain mark (.expectedMappingsToMerge .scalar) source.mark

/-- Replaces the next merge key of the mapping `id` from entry `index` on.  The merge keys of the
mappings that it names are left to `inner`, those behind it to `again`.

The modern dialect does not want a second merge key after one that brought something in.  Where
duplicates are allowed it drops the key and does not look at the entry after it. -/
def replaceNext (r : Rules) (inner again : Replacer) (id : NodeId) (index : Nat)
    (merged : List Entry) : Merging (List Entry) := do
  let g ← get
  let own := (g.entries id).drop index
  let passed := own.takeWhile fun e => !g.isMerge e
  let g := passed.foldl Graph.settleValueKey g
  set g
  match own.dropWhile fun e => !g.isMerge e with
  | [] => return merged
  | e :: rest =>
    let n := g.node id
    let place := index + passed.length
    let kept := (g.entries id).take place
    if r.dialect == .modern && !merged.isEmpty then
      if r.duplicates == .refused then complainRepeated n.mark (g.node e.key).mark
      set (g.siftEntries id kept (e :: rest))
      return merged
    else
      set (g.setEntries id (kept ++ rest))
      let more ← broughtIn inner n.mark e.value (g.node e.value)
      again id place (merged ++ more)

/-- Replaces the merge keys of one mapping round by round.  Each round removes one of them, so
`fuel` need not exceed their number by more than one. -/
def rounds (r : Rules) (inner : Replacer) : Nat → Replacer
  | 0, _, _, _ => throw .stalled
  | fuel + 1, id, index, merged => replaceNext r inner (rounds r inner fuel) id index merged

/-- Replaces merge keys where mappings may still be merged into one another `depth` levels deep. -/
def replaceFrom (r : Rules) : Nat → Replacer
  | 0, _, _, _ => throw (.breakdown (.tooDeep .merging))
  | depth + 1, id, index, merged => do
    let fuel := ((← get).entries id).length + 2
    rounds r (replaceFrom r depth) fuel id index merged

def replace (r : Rules) (id : NodeId) : Merging Unit := do
  let merged ← replaceFrom r (r.limits.merging + 1) id 0 []
  modify (·.addMerged id merged)

end Merging

end YamlCheck.Yaml
