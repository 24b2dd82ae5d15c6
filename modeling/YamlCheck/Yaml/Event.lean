import YamlCheck.Yaml.Token.Stream

/-!
# Events

The grammar of the language turns tokens into events: the starts and ends of documents and
collections, scalars and aliases.  The grammar is kept as a stack of phases; each phase looks at
the next token and gives one event.  Places where a node may be left out give an empty scalar.
-/

namespace YamlCheck.Yaml

open YamlCheck.Text

structure Properties where
  anchor : Option String := none
  /-- The tag, unless it is left to the content. -/
  tag : Option String := none
  deriving Repr, DecidableEq

inductive EventKind
  | streamStart
  | streamEnd
  | documentStart
  | documentEnd
  | aliasTo (name : String)
  /-- A scalar; `plain` says that its type is to be found from its text. -/
  | scalar (p : Properties) (plain : Bool) (text : Letters)
  | sequenceStart (p : Properties)
  | sequenceEnd
  | mappingStart (p : Properties)
  | mappingEnd
  deriving Repr, DecidableEq

structure Event where
  kind : EventKind
  mark : Mark
  deriving Repr, DecidableEq

/-- What the grammar expects next. -/
inductive Phase
  | stream
  | implicitDocument
  | document
  | documentContent
  | documentEnd
  | blockNode
  | blockSequenceFirst
  | blockSequenceEntry
  | indentlessEntry
  | blockMappingFirst
  | blockMappingKey
  | blockMappingValue
  | flowSequenceFirst
  | flowSequenceEntry
  | flowPairKey
  | flowPairValue
  | flowPairEnd
  | flowMappingFirst
  | flowMappingKey
  | flowMappingValue
  | flowMappingNoValue
  | finished
  deriving Repr, DecidableEq

structure Parser where
  reader : Reader
  phase : Phase := .stream
  /-- The phases to come back to, innermost first. -/
  outer : List Phase := []
  /-- The starts of the open collections, innermost first. -/
  starts : List Mark := []
  /-- The handles of the document and what they stand for. -/
  handles : List (String × String) := []
  deriving Repr

abbrev Parse := StateT Parser (Except LoadError)

/-- The handles that need no declaration. -/
def standardHandles : List (String × String) := [("!", "!"), ("!!", "tag:yaml.org,2002:")]

/-- A tag in the modern dialect keeps its escapes until here, where each of them becomes the
character with that code. -/
def decodeEscapes : List Char → List Char
  | '%' :: a :: b :: rest => Char.ofNat (Scan.byteOfHex [a, b]).toNat :: decodeEscapes rest
  | c :: rest => c :: decodeEscapes rest
  | [] => []

/-- The full tag, unless its handle is unknown. -/
def fullTag? (d : Dialect) (handles : List (String × String)) (t : WrittenTag) : Option String :=
  let rest := match d with
    | .classic => t.rest
    | .modern => String.ofList (decodeEscapes t.rest.toList)
  match t.handle with
  | none => some rest
  | some h => (handles.lookup h).map (· ++ rest)

namespace Parse

def scan {α : Type} (s : Scan α) : Parse α := do
  let p ← get
  let (a, r) ← s.run p.reader
  set { p with reader := r }
  return a

def peekToken : Parse Token := scan Scan.peekToken

def takeToken : Parse Token := scan Scan.takeToken

def dialect : Parse Dialect := return (← get).reader.dialect

def newRules : Parse Bool := do
  let r := (← get).reader
  return r.dialect == .modern && r.rules.after .v11

def complain {α : Type} (context : Option (Context × Option Mark)) (p : Problem) (m : Mark) :
    Parse α :=
  throw (.complaint .parsing {
    context := context.map (·.1), contextMark := context.bind (·.2),
    problem := some p, problemMark := some m })

def goTo (phase : Phase) : Parse Unit := modify fun p => { p with phase := phase }

def comeBackTo (phase : Phase) : Parse Unit := modify fun p => { p with outer := phase :: p.outer }

def goBack : Parse Unit := modify fun p => { p with
  phase := p.outer.headD .finished, outer := p.outer.tail }

def openCollection (m : Mark) : Parse Unit := modify fun p => { p with starts := m :: p.starts }

def closeCollection : Parse Unit := modify fun p => { p with starts := p.starts.tail }

def emptyScalar (m : Mark) : Event := ⟨.scalar {} true "", m⟩

def isDirective : TokenKind → Bool
  | .directive _ => true
  | _ => false

def directives : Nat → Option Version → List (String × String) → Parse (List (String × String))
  | 0, _, _ => throw .stalled
  | fuel + 1, version, handles => do
    let t ← peekToken
    match t.kind with
    | .directive d =>
      let _ ← takeToken
      match d with
      | .version major minor =>
        if version.isSome then complain none .repeatedVersion t.start
        if major != 1 then complain none .incompatibleVersion t.start
        directives fuel (some ⟨major, minor⟩) handles
      | .handle name meaning =>
        if (handles.lookup name).isSome then complain none (.repeatedHandle name) t.start
        directives fuel version ((name, meaning) :: handles)
      | .other _ => directives fuel version handles
    | _ =>
      if let some v := version then
        if (← dialect) == .modern && v.minor != 1 && v.minor != 2 then
          throw (.breakdown (.unsupportedVersion v.major v.minor))
      return handles ++ standardHandles

def skipDocumentEnds : Nat → Parse Unit
  | 0 => throw .stalled
  | fuel + 1 => do
    if (← peekToken).kind == .documentEnd then
      let _ ← takeToken
      skipDocumentEnds fuel

/-- A bound on the number of tokens. -/
def fuelLeft : Parse Nat := return 4 * (← get).reader.bound

def startDocument : Parse Event := do
  skipDocumentEnds (← fuelLeft)
  let first ← peekToken
  if first.kind == .streamEnd then
    let _ ← takeToken
    goTo .finished
    return ⟨.streamEnd, first.start⟩
  let handles ← directives (← fuelLeft) none []
  modify fun p => { p with handles := handles }
  let t ← peekToken
  if t.kind != .documentStart then
    complain none (.expectedDocumentStart t.kind.name) t.start
  let _ ← takeToken
  comeBackTo .documentEnd
  goTo .documentContent
  return ⟨.documentStart, first.start⟩

def startImplicitDocument : Parse Event := do
  let t ← peekToken
  if isDirective t.kind || t.kind == .documentStart || t.kind == .streamEnd then startDocument
  else
    modify fun p => { p with handles := standardHandles }
    comeBackTo .documentEnd
    goTo .blockNode
    return ⟨.documentStart, t.start⟩

/-- The modern dialect wants nothing but a comment after the marker of an end. -/
def checkAfterEnd (marker : Token) : Parse Unit := do
  if (← dialect) == .modern then
    let t ← peekToken
    if t.kind != .streamEnd && marker.stop.line == t.start.line then
      complain none (.contentAfterEnd t.kind.name) t.start

def endDocument : Parse Event := do
  let t ← peekToken
  let explicit := t.kind == .documentEnd
  if explicit then
    let _ ← takeToken
    checkAfterEnd t
  goTo (if explicit && (← newRules) then .implicitDocument else .document)
  return ⟨.documentEnd, t.start⟩

/-- Properties as they are read, with the places of the first and of the tag. -/
structure ReadProperties where
  anchor : Option String := none
  tag : Option WrittenTag := none
  start : Option Mark := none
  tagMark : Mark := ⟨0, 0, 0⟩

/-- An anchor and a tag, in either order.  If the anchor comes second, the node of the modern
dialect starts there. -/
def readProperties : Parse ReadProperties := do
  let first ← peekToken
  match first.kind with
  | .anchor name =>
    let _ ← takeToken
    let second ← peekToken
    match second.kind with
    | .tag t =>
      let _ ← takeToken
      return ⟨some name, some t, some first.start, second.start⟩
    | _ => return ⟨some name, none, some first.start, first.start⟩
  | .tag t =>
    let _ ← takeToken
    let second ← peekToken
    match second.kind with
    | .anchor name =>
      let _ ← takeToken
      let m := if (← dialect) == .classic then first.start else second.start
      return ⟨some name, some t, some m, m⟩
    | _ => return ⟨none, some t, some first.start, first.start⟩
  | _ => return {}

/-- A node.  `layout` says which collections may stand here, `indentless` that a sequence may do
without indentation of its own. -/
def node (layout : Layout) (indentless : Bool) : Parse Event := do
  let t ← peekToken
  if let .aliasTo name := t.kind then
    let _ ← takeToken
    goBack
    return ⟨.aliasTo name, t.start⟩
  let read ← readProperties
  let d ← dialect
  let handles := (← get).handles
  let tag : Option String ← match read.tag with
    | none => pure none
    | some w =>
      match fullTag? d handles w with
      | some tag => pure (some tag)
      | none =>
        complain (some (.node, read.start)) (.undefinedHandle (w.handle.getD "")) read.tagMark
  let t ← peekToken
  let start := read.start.getD t.start
  let unspecific := tag == some "!"
  let props : Properties := ⟨read.anchor, if unspecific then none else tag⟩
  match t.kind, layout with
  | .blockEntry, _ =>
    if indentless then
      goTo .indentlessEntry
      return ⟨.sequenceStart props, start⟩
    else absent read props start t
  | .scalar text plain, _ =>
    let _ ← takeToken
    goBack
    return ⟨.scalar props ((plain && tag.isNone) || unspecific) text, start⟩
  | .flowSequenceStart, _ =>
    goTo .flowSequenceFirst
    return ⟨.sequenceStart props, start⟩
  | .flowMappingStart, _ =>
    goTo .flowMappingFirst
    return ⟨.mappingStart props, start⟩
  | .blockSequenceStart, .block =>
    goTo .blockSequenceFirst
    return ⟨.sequenceStart props, start⟩
  | .blockMappingStart, .block =>
    goTo .blockMappingFirst
    return ⟨.mappingStart props, start⟩
  | _, _ => absent read props start t
where
  /-- A node without content is an empty scalar if it has properties. -/
  absent (read : ReadProperties) (props : Properties) (start : Mark) (t : Token) :
      Parse Event := do
    if read.start.isSome then
      goBack
      return ⟨.scalar props props.tag.isNone "", start⟩
    else
      complain (some (.nodeContent layout, some start)) (.expectedContent t.kind.name) t.start

/-- A node, unless the next token is one of those that `stops` names: then an empty scalar at
`m`, and the phase `next`. -/
def nodeUnless (stops : TokenKind → Bool) (layout : Layout) (indentless : Bool) (next : Phase)
    (m : Mark) : Parse Event := do
  if stops (← peekToken).kind then
    goTo next
    return emptyScalar m
  else
    comeBackTo next
    node layout indentless

def documentContent : Parse Event := do
  let t ← peekToken
  if isDirective t.kind || t.kind == .documentStart || t.kind == .documentEnd
      || t.kind == .streamEnd then
    goBack
    return emptyScalar t.start
  else node .block false

def endCollection (k : EventKind) : Parse Event := do
  let t ← takeToken
  goBack
  closeCollection
  return ⟨k, t.start⟩

def enterCollection : Parse Unit := do
  openCollection (← takeToken).start

def expectBlockEnd (context : Context) (k : EventKind) : Parse Event := do
  let t ← peekToken
  if t.kind != .blockEnd then
    complain (some (context, (← get).starts.head?)) (.expectedBlockEnd t.kind.name) t.start
  endCollection k

def blockSequenceEntry : Parse Event := do
  if (← peekToken).kind == .blockEntry then
    let t ← takeToken
    nodeUnless (fun k => k == .blockEntry || k == .blockEnd) .block false .blockSequenceEntry t.stop
  else expectBlockEnd .blockSequence .sequenceEnd

def endsEntry (k : TokenKind) : Bool := k == .key || k == .value || k == .blockEnd

def indentlessEntry : Parse Event := do
  let t ← peekToken
  if t.kind == .blockEntry then
    let _ ← takeToken
    nodeUnless (fun k => k == .blockEntry || endsEntry k) .block false .indentlessEntry t.stop
  else
    goBack
    return ⟨.sequenceEnd, t.start⟩

def blockMappingKey : Parse Event := do
  let t ← peekToken
  if t.kind == .key then
    let _ ← takeToken
    nodeUnless endsEntry .block true .blockMappingValue t.stop
  else if t.kind == .value && (← newRules) then
    goTo .blockMappingValue
    return emptyScalar t.start
  else expectBlockEnd .blockMapping .mappingEnd

def blockMappingValue : Parse Event := do
  let t ← peekToken
  if t.kind == .value then
    let _ ← takeToken
    nodeUnless endsEntry .block true .blockMappingKey t.stop
  else
    goTo .blockMappingKey
    return emptyScalar t.start

def flowSequenceEntry (first : Bool) : Parse Event := do
  let t ← peekToken
  if t.kind == .flowSequenceEnd then endCollection .sequenceEnd
  else
    if !first then
      if t.kind != .flowEntry then
        complain (some (.flowSequence, (← get).starts.head?)) (.expectedSequenceGoesOn t.kind.name)
          t.start
      let _ ← takeToken
    let t ← peekToken
    if t.kind == .key then
      goTo .flowPairKey
      return ⟨.mappingStart {}, t.start⟩
    else if t.kind == .flowSequenceEnd then endCollection .sequenceEnd
    else
      comeBackTo .flowSequenceEntry
      node .flow false

def flowPairKey : Parse Event := do
  let t ← takeToken
  nodeUnless (fun k => k == .value || k == .flowEntry || k == .flowSequenceEnd) .flow false
    .flowPairValue t.stop

def flowPairValue : Parse Event := do
  let t ← peekToken
  if t.kind == .value then
    let _ ← takeToken
    nodeUnless (fun k => k == .flowEntry || k == .flowSequenceEnd) .flow false .flowPairEnd t.stop
  else
    goTo .flowPairEnd
    return emptyScalar t.start

def flowPairEnd : Parse Event := do
  goTo .flowSequenceEntry
  return ⟨.mappingEnd, (← peekToken).start⟩

def flowMappingKey (first : Bool) : Parse Event := do
  let t ← peekToken
  if t.kind == .flowMappingEnd then endCollection .mappingEnd
  else
    if !first then
      if t.kind != .flowEntry then
        complain (some (.flowMapping, (← get).starts.head?)) (.expectedMappingGoesOn t.kind.name)
          t.start
      let _ ← takeToken
    let t ← peekToken
    if t.kind == .key then
      let _ ← takeToken
      nodeUnless (fun k => k == .value || k == .flowEntry || k == .flowMappingEnd) .flow false
        .flowMappingValue t.stop
    else if t.kind == .value && (← newRules) then
      goTo .flowMappingValue
      return emptyScalar t.stop
    else if t.kind == .flowMappingEnd then endCollection .mappingEnd
    else
      comeBackTo .flowMappingNoValue
      node .flow false

def flowMappingValue : Parse Event := do
  let t ← peekToken
  if t.kind == .value then
    let _ ← takeToken
    nodeUnless (fun k => k == .flowEntry || k == .flowMappingEnd) .flow false .flowMappingKey t.stop
  else
    goTo .flowMappingKey
    return emptyScalar t.start

def flowMappingNoValue : Parse Event := do
  goTo .flowMappingKey
  return emptyScalar (← peekToken).start

def event : Parse Event := do
  match (← get).phase with
  | .stream =>
    let t ← takeToken
    goTo .implicitDocument
    return ⟨.streamStart, t.start⟩
  | .implicitDocument => startImplicitDocument
  | .document => startDocument
  | .documentContent => documentContent
  | .documentEnd => endDocument
  | .blockNode => node .block false
  | .blockSequenceFirst =>
    enterCollection
    blockSequenceEntry
  | .blockSequenceEntry => blockSequenceEntry
  | .indentlessEntry => indentlessEntry
  | .blockMappingFirst =>
    enterCollection
    blockMappingKey
  | .blockMappingKey => blockMappingKey
  | .blockMappingValue => blockMappingValue
  | .flowSequenceFirst =>
    enterCollection
    flowSequenceEntry true
  | .flowSequenceEntry => flowSequenceEntry false
  | .flowPairKey => flowPairKey
  | .flowPairValue => flowPairValue
  | .flowPairEnd => flowPairEnd
  | .flowMappingFirst =>
    enterCollection
    flowMappingKey true
  | .flowMappingKey => flowMappingKey false
  | .flowMappingValue => flowMappingValue
  | .flowMappingNoValue => flowMappingNoValue
  | .finished => throw .stalled

end Parse

def Parser.start (d : Dialect) (s : Source) : Parser := { reader := Reader.start d s }

end YamlCheck.Yaml
