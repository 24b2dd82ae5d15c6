import YamlCheck.Yaml.Token.Cursor

/-!
# Reading directives, anchors and tags

The tokens that give names.  Escapes in a tag spell bytes of UTF-8.  The classic dialect replaces
them by the text they spell; the modern one only checks that they spell a text and keeps them as
they are written.
-/

namespace YamlCheck.Yaml.Scan

open YamlCheck.Text YamlCheck.Number

def string (cs : List Char) : String := String.ofList cs

def versionNumber (start : Mark) : Scan Nat := do
  let c ← peek 0
  if !isDigit c then complain (some (.directive, start)) (.expectedDigit c)
  let digits ← takeRun isDigit
  match readInteger 10 (string digits) with
  | .ok n => return n.toNat
  | .error p => fail (.badValue (.numeral p))

def version (start : Mark) : Scan Directive := do
  skipRun (· == ' ')
  let major ← versionNumber start
  let c ← peek 0
  if c != '.' then complain (some (.directive, start)) (.expectedDigitOrPoint c)
  skip 1
  let minor ← versionNumber start
  let c ← peek 0
  if !isSpaceBreakOrEnd c then complain (some (.directive, start)) (.expectedDigitOrSpace c)
  modify fun r => { r with version := some ⟨major, minor⟩ }
  return .version major minor

/-- The handle of a tag, with both its exclamation marks. -/
def tagHandle (place : TagPlace) (start : Mark) : Scan String := do
  let c ← peek 0
  if c != '!' then complain (some (.tagPart place, start)) (.expectedHandle c)
  if (← peek 1) == ' ' then
    let name ← look 1
    skip 1
    return string name
  let word := ((← get).rest.drop 1).takeWhile isWordChar
  let c ← peek (word.length + 1)
  if c != '!' then
    skip (word.length + 1)
    complain (some (.tagPart place, start)) (.expectedHandleEnd c)
  let name ← look (word.length + 2)
  skip (word.length + 2)
  return string name

def byteOfHex (ds : List Char) : UInt8 := UInt8.ofNat (digitsValue 16 ds)

/-- The bytes of a run of escapes and the characters that write them; `fuel` bounds their
number. -/
def escapedBytes (place : TagPlace) (start : Mark) : Nat → Scan (List UInt8 × List Char)
  | 0 => fail .stalled
  | fuel + 1 => do
    if (← peek 0) != '%' then return ([], [])
    skip 1
    for k in [0, 1] do
      let c ← peek k
      if !isHexDigit c then complain (some (.tagPart place, start)) (.expectedUriEscape c)
    let ds ← look 2
    skip 2
    let (bytes, written) ← escapedBytes place start fuel
    return (byteOfHex ds :: bytes, '%' :: (ds ++ written))

/-- A run of escapes, as text in the classic dialect and as written in the modern one. -/
def uriEscapes (place : TagPlace) (start : Mark) : Scan (List Char) := do
  let m ← here
  let (bytes, written) ← escapedBytes place start (← fuelLeft)
  let d := Utf8.decode bytes
  match d.fault with
  | some f =>
    fail (.complaint .scanning {
      context := some (.tagPart place), contextMark := some start,
      problem := some (.badUriText f), problemMark := some m })
  | none =>
    match (← get).dialect with
    | .classic => return d.chars.toList.map (·.1)
    | .modern => return written

/-- The pieces of a tag, with escapes between them; `fuel` bounds their number. -/
def uriPieces (place : TagPlace) (start : Mark) : Nat → Scan (List Char)
  | 0 => fail .stalled
  | fuel + 1 => do
    let r ← get
    let allowHash := r.dialect == .modern && r.rules.after .v11
    let piece ← takeRun fun c => inUri allowHash c && c != '%'
    if (← peek 0) == '%' then
      let text ← uriEscapes place start
      return piece ++ text ++ (← uriPieces place start fuel)
    else return piece

def tagUri (place : TagPlace) (start : Mark) : Scan String := do
  let r ← get
  let c ← peek 0
  let allowHash := r.dialect == .modern && r.rules.after .v11
  if !inUri allowHash c then complain (some (.tagUri place, start)) (.expectedUri c)
  return string (← uriPieces place start (← fuelLeft))

/-- The handle that a directive declares and what it stands for. -/
def handleDeclaration (start : Mark) : Scan Directive := do
  skipRun (· == ' ')
  let name ← tagHandle .declaration start
  let c ← peek 0
  if c != ' ' then complain (some (.directive, start)) (.expectedSpace c)
  skipRun (· == ' ')
  let meaning ← tagUri .declaration start
  let c ← peek 0
  if !isSpaceBreakOrEnd c then complain (some (.directive, start)) (.expectedSpace c)
  return .handle name meaning

def directiveName (start : Mark) : Scan String := do
  let d := (← get).dialect
  let name ← takeRun d.inDirectiveName
  let c ← peek 0
  if name.isEmpty || !isSpaceBreakOrEnd c then
    complain (some (.directive, start)) (.expectedWord c)
  return string name

def directive : Scan Token := do
  let start ← here
  skip 1
  let name ← directiveName start
  let d ←
    if name == "YAML" then version start
    else if name == "TAG" then handleDeclaration start
    else pure (.other name)
  let stop ← here
  if let .other _ := d then
    let dialect := (← get).dialect
    skipRun fun c => !dialect.endsLine c
  finishLine .directive start
  return ⟨.directive d, start, stop⟩

/-- The name after an ampersand or an asterisk. -/
def anchorName (context : Context) : Scan (String × Mark × Mark) := do
  let start ← here
  skip 1
  let d := (← get).dialect
  let name ← takeRun d.inAnchor
  let c ← peek 0
  if name.isEmpty || !d.mayFollowAnchor c then
    complain (some (context, start)) (.expectedWord c)
  return (string name, start, ← here)

def anchor : Scan Token := do
  let (name, start, stop) ← anchorName .anchor
  return ⟨.anchor name, start, stop⟩

def aliasTo : Scan Token := do
  let (name, start, stop) ← anchorName .aliasName
  return ⟨.aliasTo name, start, stop⟩

/-- A tag with a handle of its own, or with the short one. -/
def abbreviatedTag (short : String) (start : Mark) : Scan WrittenTag := do
  let word := ((← get).rest.drop 1).takeWhile fun c => c != '!' && !isSpaceBreakOrEnd c
  let handle ←
    if (← peek (word.length + 1)) == '!' then tagHandle .node start
    else do
      skip 1
      pure short
  return ⟨some handle, ← tagUri .node start⟩

def tag : Scan Token := do
  let start ← here
  let d := (← get).dialect
  let mut short := "!"
  if d == .modern && (← peek 1) == '!' then
    short := "!!"
    skip 1
  let c ← peek 1
  let written ←
    if c == '<' then do
      skip 2
      let uri ← tagUri .node start
      let c ← peek 0
      if c != '>' then complain (some (.verbatimTag, start)) (.expectedVerbatimEnd c)
      skip 1
      pure ⟨none, uri⟩
    else if d.endsWord c then do
      skip 1
      pure ⟨none, short⟩
    else abbreviatedTag short start
  let c ← peek 0
  if !isSpaceBreakOrEnd c then complain (some (.tag, start)) (.expectedSpace c)
  return ⟨.tag written, start, ← here⟩

end YamlCheck.Yaml.Scan
