import YamlCheck.Yaml.Token.Scalar

/-!
# The stream of tokens

A token that may start a key waits in the queue until it is known whether a colon follows; the
indicator of the key is then put before it.  `peekToken` and `takeToken` read as far ahead as
needed for the first token in the queue to be certain.
-/

namespace YamlCheck.Yaml.Scan

/-- The longest distance from the start of a key to its colon, in characters. -/
def keyReach : Nat := 1024

/-- Drops candidates that are too far away or on an earlier line. -/
def dropStale : Scan Unit := do
  let r ← get
  let stale (k : CandidateKey) : Bool :=
    k.mark.line != r.mark.line || keyReach < r.mark.index - k.mark.index
  match r.candidates.find? fun k => stale k && k.required with
  | some k => complain (some (.simpleKey, k.mark)) .expectedColon
  | none => set { r with candidates := r.candidates.filter fun k => !stale k }

def dropCandidate : Scan Unit := do
  let r ← get
  match r.candidates.find? (·.depth == r.brackets.length) with
  | none => return ()
  | some k =>
    if k.required then complain (some (.simpleKey, k.mark)) .expectedColon
    set { r with candidates := r.candidates.filter (·.depth != r.brackets.length) }

def noteCandidate : Scan Unit := do
  let r ← get
  if r.keyAllowed then
    dropCandidate
    let required := !r.inFlow && r.indent == (r.mark.column : Int)
    modify fun r => { r with
      candidates := r.candidates
        ++ [⟨r.brackets.length, r.taken + r.pending.length, required, r.mark⟩] }

def allowKey (b : Bool) : Scan Unit := modify fun r => { r with keyAllowed := b }

def push (t : Token) : Scan Unit := modify fun r => { r with pending := r.pending ++ [t] }

/-- Queues a token of no extent at the place of the reader. -/
def pushHere (k : TokenKind) : Scan Unit := do
  let m ← here
  push ⟨k, m, m⟩

/-- Queues a token that covers the next `n` characters. -/
def pushSkipping (k : TokenKind) (n : Nat) : Scan Unit := do
  let start ← here
  skip n
  push ⟨k, start, ← here⟩

/-- Closes the block collections that are indented by more than `column`. -/
def unwind (column : Int) : Scan Unit := do
  let r ← get
  if !r.inFlow then loop column r.outerIndents
where
  loop (column : Int) : List Int → Scan Unit
    | [] => return ()
    | outer :: more => do
      if column < (← get).indent then
        pushHere .blockEnd
        modify fun r => { r with indent := outer, outerIndents := more }
        loop column more

def indentTo (column : Nat) : Scan Bool := do
  let r ← get
  if r.indent < (column : Int) then
    set { r with indent := (column : Int), outerIndents := r.indent :: r.outerIndents }
    return true
  else return false

def fetchStreamEnd : Scan Unit := do
  unwind (-1)
  dropCandidate
  modify fun r => { r with keyAllowed := false, candidates := [] }
  pushHere .streamEnd
  modify fun r => { r with ended := true }

/-- Closes all block collections, since what follows stands outside every document. -/
def leaveDocument : Scan Unit := do
  unwind (-1)
  dropCandidate
  allowKey false

def fetchFlowStart (b : Bracket) : Scan Unit := do
  noteCandidate
  modify fun r => { r with brackets := b :: r.brackets }
  allowKey true
  pushSkipping (match b with
    | .sequence => .flowSequenceStart
    | .mapping => .flowMappingStart) 1

def fetchFlowEnd (k : TokenKind) : Scan Unit := do
  dropCandidate
  modify fun r => { r with brackets := r.brackets.tail }
  allowKey false
  pushSkipping k 1

def fetchFlowEntry : Scan Unit := do
  allowKey true
  dropCandidate
  pushSkipping .flowEntry 1

/-- Opens a block collection at the reader's column if none is open there. -/
def openBlock (k : TokenKind) : Scan Unit := do
  if ← indentTo (← here).column then pushHere k

def fetchBlockEntry : Scan Unit := do
  let r ← get
  if !r.inFlow then
    if !r.keyAllowed then complain none .sequenceNotAllowed
    openBlock .blockSequenceStart
  allowKey true
  dropCandidate
  pushSkipping .blockEntry 1

def fetchKey : Scan Unit := do
  let r ← get
  if !r.inFlow then
    if !r.keyAllowed then complain none .keyNotAllowed
    openBlock .blockMappingStart
  allowKey !r.inFlow
  dropCandidate
  pushSkipping .key 1

/-- Puts a token of no extent at the place of a candidate into the queue, before it. -/
def insertBefore (key : CandidateKey) (k : TokenKind) : Scan Unit :=
  modify fun r => { r with
    pending := r.pending.insertIdx (key.number - r.taken) ⟨k, key.mark, key.mark⟩ }

def fetchValue : Scan Unit := do
  let r ← get
  match r.candidates.find? (·.depth == r.brackets.length) with
  | some key =>
    set { r with candidates := r.candidates.filter (·.depth != r.brackets.length) }
    insertBefore key .key
    if !r.inFlow then
      if ← indentTo key.mark.column then insertBefore key .blockMappingStart
    allowKey false
  | none =>
    if !r.inFlow then
      if !r.keyAllowed then complain none .valueNotAllowed
      openBlock .blockMappingStart
    allowKey !r.inFlow
    dropCandidate
  pushSkipping .value 1

/-- A token that can be a key and after which no other key can start. -/
def fetchInline (scan : Scan Token) : Scan Unit := do
  noteCandidate
  allowKey false
  push (← scan)

def fetchBlockScalar (style : BlockStyle) : Scan Unit := do
  allowKey true
  dropCandidate
  push (← blockScalar style)

/-- Whether the word-ending character after an indicator makes it one. -/
def nextEndsWord : Scan Bool := do
  let c ← peek 1
  return (← get).dialect.endsWord c

def isValueToken (t : Token) : Bool := t.kind == .value

/-- Whether a colon stands for the indicator of a value. -/
def atValue : Scan Bool := do
  let r ← get
  match r.brackets with
  | [] => nextEndsWord
  | b :: _ =>
    if r.oldRules then return true
    else if b == .sequence || (r.pending.getLast?.map isValueToken).getD false then nextEndsWord
    else return true

/-- Whether a question mark stands for the indicator of a key. -/
def atKey : Scan Bool := do
  if (← get).inFlow then return true else nextEndsWord

def atPlain (c : Char) : Scan Bool := do
  if !startsOther c then return true
  let next ← peek 1
  let r ← get
  let ends := r.dialect.endsWord next
  let flowColon := !r.oldRules && c == ':' && r.inFlow && next != ' ' && next != '\t'
  return flowColon || (!ends && (c == '-' || (!r.inFlow && (c == '?' || c == ':'))))

def atLineStart (marker : List Char) : Scan Bool := do
  if (← here).column == 0 then atMarker marker else return false

def fetchBy (c : Char) : Scan Unit := do
  let r ← get
  if c == endChar then fetchStreamEnd
  else if c == '%' && r.mark.column == 0 then
    leaveDocument
    push (← directive)
  else if c == '-' then
    if ← atLineStart ['-', '-', '-'] then
      leaveDocument
      pushSkipping .documentStart 3
    else if ← nextEndsWord then fetchBlockEntry
    else plainOr c
  else if c == '.' then
    if ← atLineStart ['.', '.', '.'] then
      leaveDocument
      pushSkipping .documentEnd 3
    else plainOr c
  else if c == '[' then fetchFlowStart .sequence
  else if c == '\x7b' then fetchFlowStart .mapping
  else if c == ']' then fetchFlowEnd .flowSequenceEnd
  else if c == '\x7d' then fetchFlowEnd .flowMappingEnd
  else if c == ',' then fetchFlowEntry
  else if c == '?' then
    if ← atKey then fetchKey else plainOr c
  else if c == ':' then
    if ← atValue then fetchValue else plainOr c
  else if c == '*' then fetchInline aliasTo
  else if c == '&' then fetchInline anchor
  else if c == '!' then fetchInline tag
  else if c == '|' && !r.inFlow then fetchBlockScalar .literal
  else if c == '>' && !r.inFlow then fetchBlockScalar .folded
  else if c == '\'' then fetchInline (quotedScalar .single)
  else if c == '"' then fetchInline (quotedScalar .double)
  else plainOr c
where
  plainOr (c : Char) : Scan Unit := do
    if ← atPlain c then fetchInline plainScalar
    else
      fail (.complaint .scanning {
        context := some .nextToken
        problem := some (.cannotStartToken c)
        problemMark := some (← here) })

/-- Reads at least one more token into the queue. -/
def fetchMore : Scan Unit := do
  skipToNextToken
  dropStale
  unwind (← here).column
  fetchBy (← peek 0)

/-- Whether the first token in the queue is not yet certain. -/
def needsMore : Scan Bool := do
  let r ← get
  if r.ended then return false
  else if r.pending.isEmpty then return true
  else
    dropStale
    let r ← get
    return r.candidates.any (·.number == r.taken)

/-- Reads on until the first token in the queue is certain. -/
def settle : Nat → Scan Unit
  | 0 => fail .stalled
  | fuel + 1 => do
    if ← needsMore then
      fetchMore
      settle fuel

/-- The next token, left in the queue. -/
def peekToken : Scan Token := do
  settle (← fuelLeft)
  match (← get).pending with
  | t :: _ => return t
  | [] => fail .stalled

def takeToken : Scan Token := do
  let t ← peekToken
  modify fun r => { r with pending := r.pending.tail, taken := r.taken + 1 }
  return t

end YamlCheck.Yaml.Scan

namespace YamlCheck.Yaml

def Reader.start (d : Dialect) (s : Source) : Reader where
  dialect := d
  fault := s.fault
  rest := s.chars
  bound := s.chars.length + 4
  pending := [⟨.streamStart, ⟨0, 0, 0⟩, ⟨0, 0, 0⟩⟩]

end YamlCheck.Yaml
