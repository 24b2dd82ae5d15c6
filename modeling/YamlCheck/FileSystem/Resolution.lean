import YamlCheck.FileSystem.Canonical

/-!
# Resolving search paths

A search path is a text, and a text may hold halves, which no file name has.  The operating system
is asked with bytes.  Some halves stand for a byte that does not belong to any character; no node
has a name with such a byte.  No request can be made with any other half.
-/

namespace YamlCheck

open YamlCheck.Text

/-- What a piece of a search path is if it is not a name that a node can have. -/
inductive Oddity
  /-- A name of so many bytes, which are no text. -/
  | foreign (size : Nat) (piece : Letters)
  /-- Letters without bytes, from one position in the piece to another. -/
  | unencodable (start stop : Nat) (first : Letter)
  deriving Repr, DecidableEq

namespace Oddity

/-- The bytes of a letter in a name.  A half may stand for a byte that is not ASCII. -/
def bytes? : Letter → Option (List UInt8)
  | .char c => some (Utf8.encodeChar c)
  | .half index =>
    if 0x480 ≤ index.val && index.val < 0x500 then some [UInt8.ofNat index] else none

def isHalf : Letter → Bool
  | .char _ => false
  | .half _ => true

/-- The first letters without bytes, after `i` others, together with the halves that follow. -/
def unencodableAfter (i : Nat) : List Letter → Oddity
  | [] => .foreign 0 ⟨[]⟩
  | l :: rest =>
    if (bytes? l).isSome then unencodableAfter (i + 1) rest
    else .unencodable i (i + (rest.takeWhile isHalf).length) l

/-- The name that a piece of a text is for the operating system. -/
def readPiece (piece : List Letter) : Except Oddity String :=
  match Letters.text? ⟨piece⟩, piece.mapM bytes? with
  | some name, _ => .ok name
  | none, none => .error (unencodableAfter 0 piece)
  | none, some bytes =>
    match Utf8.text? bytes.flatten with
    | some name => .ok name
    | none => .error (.foreign bytes.flatten.length ⟨piece⟩)

/-- The names in front of the first oddity. -/
def readPieces : List (List Letter) → List String × Option Oddity
  | [] => ([], none)
  | piece :: rest =>
    match readPiece piece with
    | .ok name =>
      let (names, odd) := readPieces rest
      (name :: names, odd)
    | .error odd => ([], some odd)

end Oddity

/-- A search path as it is looked for: the path up to the first piece that is odd, and this. -/
structure Sought where
  front : Path
  odd : Option Oddity := none

namespace Sought

def pieces (s : Letters) : List (List Letter) := s.list.splitOn (.char '/')

def ofLetters (s : Letters) : Sought :=
  match s.text? with
  | some text => { front := .ofText text }
  | none =>
    let (names, odd) := Oddity.readPieces (pieces s)
    ⟨⟨Path.rootOf s.faces, names.filter Path.isName⟩, odd⟩

/-- The written form of a search path as seen from a directory. -/
def text (directory : Path) (s : Letters) : Letters :=
  match s.text? with
  | some text => (directory.join (.ofText text)).text
  | none =>
    let names := (pieces s).filter fun p => p != [] && p != [.char '.']
    let start : Path :=
      if Path.rootOf s.faces == .here then directory else ⟨Path.rootOf s.faces, []⟩
    start.root.text ++ Letters.join "/" (start.names.map Letters.ofText ++ names.map Letters.mk)

end Sought

namespace FileSystem

/-- How a refusal at a place ends the resolution of a search path that is written as `candidate`
once its directory is known. -/
def resolutionStop (path candidate : Letters) (r : Refusal) (place : Letters) : Stop :=
  let refused (reason : Letters) (cause : Option Incident) : Stop :=
    .failure (.resolution path reason cause)
  match r, r.incidentAt place with
  | .missing, _ => refused (candidate ++ " does not exist") none
  | .tooManyLinks, _ =>
    let loop := Incident.linkLoop place
    refused loop.text (some loop)
  | _, .system e => refused e.text (some (.system e))
  | _, i => .incident i

/-- A name that is looked for in place of a piece whose bytes are no text: one of its size, with a
NUL if the piece has one. -/
def standIn (size : Nat) (piece : Letters) : String :=
  String.ofList <| List.replicate size (if piece.list.contains (.char '\x00') then '\x00' else 'x')

/-- How an odd piece after a canonical location ends the resolution.  Nothing has a name whose bytes
are no text. -/
def oddityStop (fs : FileSystem) (path candidate : Letters) (loc : Location) : Oddity → Stop
  | .unencodable start stop first =>
    let before := ((pathOf loc).child "").text.length
    .incident (.unencodable (before + start) (before + stop) first)
  | .foreign size piece =>
    let place := ((pathOf loc).child "").text ++ piece
    match fs.lookUp false ((pathOf loc).child (standIn size piece)) with
    | .error r => resolutionStop path candidate r place
    | .ok _ => resolutionStop path candidate .missing place

/-- The canonical path that a search path stands for; a relative one starts at a directory. -/
def resolve (fs : FileSystem) (path : Letters) (directory : Path) : Except Stop Path :=
  let sought := Sought.ofLetters path
  let candidate := Sought.text directory path
  match fs.canonical (directory.join sought.front), sought.odd with
  | .error (r, loc), _ => .error (resolutionStop path candidate r (pathOf loc).text)
  | .ok loc, some odd => .error (fs.oddityStop path candidate loc odd)
  | .ok loc, none => .ok (pathOf loc)

end FileSystem

end YamlCheck
