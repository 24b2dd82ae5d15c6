import YamlCheck.Yaml.Construction

/-!
# Loading streams

`load` reads the documents of a byte stream one after the other, up to its end or to the first
error.  `loadSingle` wants at most one document and reads on until it is sure that no other
follows.  The duplicate policy only matters once a document has been read as a whole.
-/

namespace YamlCheck.Yaml

/-- The documents of a stream and the error that ended it, if it has not ended by itself. -/
structure Loaded where
  documents : List Document
  error : Option LoadError
  deriving Repr

namespace Loaded

def failed (e : LoadError) : Loaded := ⟨[], some e⟩

def cons (d : Document) (l : Loaded) : Loaded := { l with documents := d :: l.documents }

end Loaded

/-- The graph of the next document, unless the stream ends. -/
def Parse.document? (limits : Limits) : Parse (Option Graph) := do
  match ← Parse.documentStart? with
  | none => return none
  | some _ => return some (← Parse.documentRest limits)

def Parser.rules (limits : Limits) (d : Dialect) (p : Parser) (duplicates : Duplicates) :
    Rules where
  limits := limits
  dialect := d
  schema := p.reader.schema
  duplicates := duplicates

/-- The documents that a parser still has before it; `fuel` bounds their number. -/
def loadFrom (limits : Limits) (d : Dialect) (duplicates : Duplicates) : Nat → Parser → Loaded
  | 0, _ => .failed .stalled
  | fuel + 1, p =>
    match (Parse.document? limits).run p with
    | .error e => .failed e
    | .ok (none, _) => ⟨[], none⟩
    | .ok (some g, p) =>
      match g.document (p.rules limits d duplicates) with
      | .error e => .failed e
      | .ok v => (loadFrom limits d duplicates fuel p).cons v

def load (limits : Limits) (d : Dialect) (duplicates : Duplicates) (bytes : List UInt8) :
    Loaded :=
  let s := Source.ofBytes bytes
  loadFrom limits d duplicates (s.chars.length + 2) (Parser.start d s)

/-- The graph of the only document of a stream; nothing if the stream is empty. -/
def Parse.single? (limits : Limits) : Parse (Option Graph) := do
  match ← documentStart? with
  | none => return none
  | some _ =>
    let g ← documentRest limits
    match ← documentStart? with
    | none => return some g
    | some e =>
      throw (.complaint .composing {
        context := some .singleDocument, contextMark := some (g.node g.root).mark
        problem := some .anotherDocument, problemMark := some e.mark })

/-- The only document of a source in the classic dialect, with repeated keys allowed; nothing if
the source is empty. -/
def loadSingle (limits : Limits) (s : Source) : Except LoadError (Option Document) := do
  let (g, p) ← (Parse.single? limits).run (Parser.start .classic s)
  match g with
  | none => return none
  | some g => return some (← g.document (p.rules limits .classic .allowed))

end YamlCheck.Yaml
