import YamlCheck.Yaml.Token.Names

/-!
# Reading scalars

Block scalars keep or fold their lines and end where the indentation does.  Quoted scalars know
two kinds of escape.  Plain scalars end where an indicator could begin.  Loops over lines are
bounded by the number of characters left, since each round takes at least one.
-/

namespace YamlCheck.Yaml.Scan

open YamlCheck.Text YamlCheck.Number

/-- What happens to the line breaks at the end of a block scalar. -/
inductive Chomping
  | strip
  | clip
  | keep
  deriving Repr, DecidableEq

inductive BlockStyle
  | literal
  | folded
  deriving Repr, DecidableEq

def chomping? (c : Char) : Option Chomping :=
  if c == '+' then some .keep else if c == '-' then some .strip else none

def increment? (start : Mark) : Scan (Option Nat) := do
  let c ← peek 0
  if !isDigit c then return none
  if c == '0' then complain (some (.blockScalar, start)) .zeroIndentation
  skip 1
  return some (digitsValue 10 [c])

/-- The indicators after the bar or the angle: chomping and indentation, in either order. -/
def blockIndicators (start : Mark) : Scan (Chomping × Option Nat) := do
  let (chomping, increment) ←
    match chomping? (← peek 0) with
    | some k => do
      skip 1
      pure (k, ← increment? start)
    | none =>
      match ← increment? start with
      | none => pure (.clip, none)
      | some n =>
        match chomping? (← peek 0) with
        | some k => do
          skip 1
          pure (k, some n)
        | none => pure (.clip, some n)
  let c ← peek 0
  if !isSpaceBreakOrEnd c then complain (some (.blockScalar, start)) (.expectedIndicators c)
  return (chomping, increment)

/-- What the blank lines before the content of a block scalar show. -/
structure Lead where
  breaks : List Char := []
  /-- The column of the first break, once there is one. -/
  firstColumn : Option Nat := none
  widest : Nat := 0

/-- Reads the blank lines before the content of a block scalar. -/
def blockLead : Nat → Lead → Scan Lead
  | 0, _ => fail .stalled
  | fuel + 1, lead => do
    let c ← peek 0
    if c == ' ' then
      skip 1
      blockLead fuel { lead with widest := max lead.widest (← here).column }
    else if isBreak c then
      let column := (← here).column
      let b ← lineBreak
      blockLead fuel { lead with
        breaks := lead.breaks ++ b.toList
        firstColumn := lead.firstColumn <|> some column }
    else return lead

def skipIndentation (indent : Nat) : Nat → Scan Unit
  | 0 => return ()
  | fuel + 1 => do
    if (← here).column < indent then
      if (← peek 0) == ' ' then
        skip 1
        skipIndentation indent fuel

/-- Reads the blank lines after a line of a block scalar. -/
def blockBreaks (indent : Nat) : Nat → Scan (List Char)
  | 0 => fail .stalled
  | fuel + 1 => do
    skipIndentation indent indent
    if isBreak (← peek 0) then
      let b ← lineBreak
      return b.toList ++ (← blockBreaks indent fuel)
    else return []

/-- Where and how a block scalar is laid out. -/
structure BlockLayout where
  style : BlockStyle
  indent : Nat
  /-- Whether the lines may stand at the left margin, where a separator ends them. -/
  atMargin : Bool

/-- Whether the reader stands at the content of a further line. -/
def atContent (indent : Nat) : Scan Bool := do
  if (← here).column == indent then return (← peek 0) != endChar else return false

/-- Whether a separator ends a scalar whose lines stand at the left margin. -/
def endsAtMargin (l : BlockLayout) : Scan Bool := do
  if l.atMargin then
    if (← here).column == 0 then atSeparator else return false
  else return false

def isBlankChar (c : Char) : Bool := c == ' ' || c == '\t'

/-- Reads the lines of a block scalar.  `before` are the breaks before the line, `last` is the
break after the line before.  Gives the text, the break after the last line and the blank lines
behind it. -/
def blockLines (l : BlockLayout) : Nat → List Char → Scan (List Char × List Char × List Char)
  | 0, _ => fail .stalled
  | fuel + 1, before => do
    let d := (← get).dialect
    let indented := isBlankChar (← peek 0)
    let line ← takeRun fun c => !d.endsLine c
    let last := (← lineBreak).toList
    let breaks ← blockBreaks l.indent (← fuelLeft)
    if ← endsAtMargin l then
      return (before ++ line, last, breaks)
    else if ← atContent l.indent then
      let folds := l.style == .folded && last == ['\n'] && !indented && !isBlankChar (← peek 0)
      let glue := if !folds then last else if breaks.isEmpty then [' '] else []
      let (text, last, tail) ← blockLines l fuel breaks
      return (before ++ line ++ glue ++ text, last, tail)
    else return (before ++ line, last, breaks)

def blockIndent (least : Nat) (increment : Option Nat) : Scan (Nat × List Char) := do
  match increment with
  | some n =>
    let indent := max 1 least + n - 1
    return (indent, ← blockBreaks indent (← fuelLeft))
  | none =>
    let lead ← blockLead (← fuelLeft) {}
    if (← get).dialect == .modern then
      let first := lead.firstColumn.getD 0
      if 0 < first && first < lead.widest then
        fail (.complaint .scanning {
          context := some .uneven, contextMark := some (← here) })
    return (max least lead.widest, lead.breaks)

/-- Steps over blanks and comments up to the next token. -/
def toNextToken : Nat → Scan Unit
  | 0 => fail .stalled
  | fuel + 1 => do
    let r ← get
    let skipsTabs := r.dialect == .modern && r.inFlow
    skipRun fun c => c == ' ' || (skipsTabs && c == '\t')
    skipComment
    if (← lineBreak).isSome then
      if !r.inFlow then modify fun r => { r with keyAllowed := true }
      toNextToken fuel

/-- The mark at the start of the stream may be a byte order mark, which is no content. -/
def skipToNextToken : Scan Unit := do
  if (← here).index == 0 then
    if (← peek 0).toNat == 0xfeff then skip 1
  toNextToken (← fuelLeft)

def blockScalar (style : BlockStyle) : Scan Token := do
  let start ← here
  skip 1
  let (chomping, increment) ← blockIndicators start
  finishLine .blockScalar start
  let r ← get
  let innermost := (r.indent + 1).toNat
  let least := if r.dialect == .classic then max 1 innermost else innermost
  let (indent, before) ← blockIndent least increment
  let layout : BlockLayout :=
    ⟨style, indent, r.dialect == .modern && increment.isNone && innermost == 0⟩
  let (text, last, tail) ←
    if ← atContent indent then blockLines layout (← fuelLeft) before
    else pure ([], [], before)
  let stop ← here
  let ending := match chomping with
    | .strip => []
    | .clip => last
    | .keep => last ++ tail
  if r.dialect == .modern && chomping != .keep && !tail.isEmpty then skipToNextToken
  return ⟨.scalar (.ofChars (text ++ ending)) false, start, stop⟩

/-- What a letter stands for after a backslash. -/
def escaped? (c : Char) : Option Char :=
  match c with
  | '0' => some '\x00'
  | 'a' => some '\x07'
  | 'b' => some '\x08'
  | 't' => some '\t'
  | '\t' => some '\t'
  | 'n' => some '\n'
  | 'v' => some '\x0b'
  | 'f' => some '\x0c'
  | 'r' => some '\r'
  | 'e' => some '\x1b'
  | ' ' => some ' '
  | '"' => some '"'
  | '\\' => some '\\'
  | '/' => some '/'
  | 'N' => some '\u0085'
  | '_' => some '\u00a0'
  | 'L' => some '\u2028'
  | 'P' => some '\u2029'
  | _ => none

/-- How many hexadecimal digits follow a letter after a backslash. -/
def escapeDigits? (c : Char) : Option Nat :=
  if c == 'x' then some 2 else if c == 'u' then some 4 else if c == 'U' then some 8 else none

def letterOfCode (n : Nat) : Scan Letter := do
  if 0x7fffffff < n then fail (.breakdown .hugeCodePoint)
  if 0x10ffff < n then fail (.badValue .codePoint)
  return .ofCode n

/-- Blank lines inside quotes. -/
def quotedBreaks (start : Mark) : Nat → Scan (List Char)
  | 0 => fail .stalled
  | fuel + 1 => do
    if ← atSeparator then complain (some (.quotedScalar, start)) .separatorInQuotes
    skipRun isBlankChar
    match ← lineBreak with
    | none => return []
    | some b => return b :: (← quotedBreaks start fuel)

/-- Blanks inside quotes; a single line break becomes a space. -/
def quotedSpaces (start : Mark) : Scan (List Char) := do
  let blanks ← takeRun isBlankChar
  if (← peek 0) == endChar then complain (some (.quotedScalar, start)) .endInQuotes
  match ← lineBreak with
  | none => return blanks
  | some b =>
    let breaks ← quotedBreaks start (← fuelLeft)
    let head := if b != '\n' then [b] else if breaks.isEmpty then [' '] else []
    return head ++ breaks

def escape (start : Mark) : Scan (List Letter) := do
  skip 1
  let c ← peek 0
  match escaped? c, escapeDigits? c with
  | some e, _ =>
    skip 1
    return [.char e]
  | none, some n =>
    skip 1
    for k in List.range n do
      let c ← peek k
      if !isHexDigit c then
        complain (some (.doubleQuotedScalar, start)) (.expectedEscapeDigits n c)
    let ds ← look n
    let e ← letterOfCode (digitsValue 16 ds)
    skip n
    return [e]
  | none, none =>
    if isBreak c then
      let _ ← lineBreak
      return (← quotedBreaks start (← fuelLeft)).map .char
    else complain (some (.doubleQuotedScalar, start)) (.unknownEscape c)

inductive Quotes
  | single
  | double
  deriving Repr, DecidableEq

def Quotes.char : Quotes → Char
  | .single => '\''
  | .double => '"'

def isQuotedSpecial (c : Char) : Bool :=
  c == '\'' || c == '"' || c == '\\' || c == '\t' || isSpaceBreakOrEnd c

def atDoubledApostrophe (c : Char) : Scan Bool := do
  if c == '\'' then return (← peek 1) == '\'' else return false

def quotedWord (q : Quotes) (start : Mark) : Nat → Scan (List Letter)
  | 0 => fail .stalled
  | fuel + 1 => do
    let run := (← takeRun fun c => !isQuotedSpecial c).map Letter.char
    let c ← peek 0
    match q with
    | .single =>
      if ← atDoubledApostrophe c then
        skip 2
        return run ++ .char '\'' :: (← quotedWord q start fuel)
      else if c == '"' || c == '\\' then
        skip 1
        return run ++ .char c :: (← quotedWord q start fuel)
      else return run
    | .double =>
      if c == '\'' then
        skip 1
        return run ++ .char c :: (← quotedWord q start fuel)
      else if c == '\\' then
        let e ← escape start
        return run ++ e ++ (← quotedWord q start fuel)
      else return run

def quotedText (q : Quotes) (start : Mark) : Nat → Scan (List Letter)
  | 0 => fail .stalled
  | fuel + 1 => do
    let word ← quotedWord q start (← fuelLeft)
    if (← peek 0) == q.char then return word
    let spaces := (← quotedSpaces start).map Letter.char
    return word ++ spaces ++ (← quotedText q start fuel)

def quotedScalar (q : Quotes) : Scan Token := do
  let start ← here
  skip 1
  let text ← quotedText q start (← fuelLeft)
  skip 1
  return ⟨.scalar ⟨text⟩ false, start, ← here⟩

/-- Whether a plain scalar ends before `c` and `next`. -/
def endsPlain (r : Reader) (c next : Char) : Bool :=
  let d := r.dialect
  match d with
  | .classic =>
    d.endsWord c
      || (c == ':' && (d.endsWord next || (r.inFlow && isFlowIndicator next)))
      || (r.inFlow && (isFlowIndicator c || c == '?'))
  | .modern =>
    if c == ':' && !d.endsWord next then false
    else if c == '?' && r.rules != .v11 then false
    else d.endsWord c || (!r.inFlow && c == ':' && d.endsWord next)
      || (r.inFlow && (isFlowIndicator c || c == ':' || c == '?'))

def plainRun (r : Reader) : List Char → List Char
  | [] => []
  | c :: rest => if endsPlain r c (rest.headD endChar) then [] else c :: plainRun r rest

/-- Takes characters of a plain scalar.  A colon is judged by the character after it. -/
def takePlain : Scan (List Char) := do
  let r ← get
  let run := plainRun r r.rest
  if (← peek run.length) == ':' then need (run.length + 2)
  skip run.length
  return run

/-- Blank lines inside a plain scalar, or nothing if a separator ends it. -/
def plainBreaks : Nat → Scan (Option (List Char))
  | 0 => fail .stalled
  | fuel + 1 => do
    skipRun (· == ' ')
    match ← lineBreak with
    | none => return some []
    | some b =>
      if ← atSeparator then return none
      return (← plainBreaks fuel).map (b :: ·)

/-- Blanks after a word of a plain scalar; a single line break becomes a space.  Nothing if the
scalar ends here. -/
def plainSpaces : Scan (List Char) := do
  let blanks ← takeRun (· == ' ')
  match ← lineBreak with
  | none => return blanks
  | some b =>
    modify fun r => { r with keyAllowed := true }
    if ← atSeparator then return []
    match ← plainBreaks (← fuelLeft) with
    | none => return []
    | some breaks =>
      let head := if b != '\n' then [b] else if breaks.isEmpty then [' '] else []
      return head ++ breaks

/-- The words of a plain scalar after `spaces`, and the place where they end. -/
def plainWords : Nat → List Char → Mark → Scan (List Char × Mark)
  | 0, _, _ => fail .stalled
  | fuel + 1, spaces, stop => do
    if (← peek 0) == '#' then return ([], stop)
    let word ← takePlain
    if word.isEmpty then return ([], stop)
    modify fun r => { r with keyAllowed := false }
    let stop ← here
    let more ← plainSpaces
    let c ← peek 0
    let r ← get
    if more.isEmpty || c == '#' || (!r.inFlow && (r.mark.column : Int) < r.indent + 1) then
      return (spaces ++ word, stop)
    let (text, stop) ← plainWords fuel more stop
    return (spaces ++ word ++ text, stop)

def plainScalar : Scan Token := do
  let start ← here
  let (text, stop) ← plainWords (← fuelLeft) [] start
  return ⟨.scalar (.ofChars text) true, start, stop⟩

end YamlCheck.Yaml.Scan
