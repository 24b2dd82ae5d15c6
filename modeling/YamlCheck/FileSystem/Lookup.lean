import YamlCheck.FileSystem.Basic
import YamlCheck.Text.Utf8

/-!
# Looking up paths

The operating system follows a path name by name.  Every step needs a directory and the right to
pass through it; a link in the middle of a path is replaced by its target, a link at the end only
if the request follows it, and no more than forty links are followed in all.
-/

namespace YamlCheck.FileSystem

open YamlCheck.Text

inductive Found
  | there (loc : Location)
  | vacant (directory : Location) (name : String)
  deriving Repr, DecidableEq

/-- How many links may be followed on one way. -/
def linkLimit : Nat := 40

/-- The longest name, in bytes. -/
def nameLimit : Nat := 255

/-- The longest path, in bytes. -/
def pathLimit : Nat := 4095

def byteLength (s : String) : Nat := Utf8.size s.toList

def startOf (directory : Location) (text : String) : Location :=
  match Path.rootOf text.toList with
  | .here => directory
  | _ => []

inductive Turn
  | onward (loc : Location)
  | link (target : String)
  | vacant
  | refused (r : Refusal)
  deriving Repr, DecidableEq

/-- Where one piece of a path leads to from a location.  An empty piece stands for a slash that
nothing follows and asks for a directory. -/
def turn (fs : FileSystem) (loc : Location) (piece : String) : Turn :=
  match fs.node? loc with
  | some (.directory mode entries) =>
    if piece == "" then .onward loc
    else if !mode.search then .refused .denied
    else if piece == "." then .onward loc
    else if piece == ".." then .onward loc.dropLast
    else if nameLimit < byteLength piece then .refused .nameTooLong
    else match Node.entryNamed? entries piece with
      | none => .vacant
      | some (.link target) => .link target
      | some _ => .onward (loc ++ [piece])
  | some _ => .refused .notDirectory
  | none => .refused .missing

/-- Follows the pieces of a path from a location; `enter` goes on when a link is followed. -/
def walkWith (fs : FileSystem) (followLast : Bool)
    (enter : Location → List String → Except Refusal Found) :
    Location → List String → Except Refusal Found
  | loc, [] => .ok (.there loc)
  | loc, piece :: rest =>
    match fs.turn loc piece with
    | .onward next => walkWith fs followLast enter next rest
    | .link target =>
      if rest.isEmpty && !followLast then .ok (.there (loc ++ [piece]))
      else enter (startOf loc target) (Path.allPieces target.toList ++ rest)
    | .vacant => if rest.isEmpty then .ok (.vacant loc piece) else .error .missing
    | .refused r => .error r

/-- Follows the pieces of a path, and at most so many links. -/
def walk (fs : FileSystem) (followLast : Bool) :
    Nat → Location → List String → Except Refusal Found
  | 0 => walkWith fs followLast fun _ _ => .error .tooManyLinks
  | links + 1 => walkWith fs followLast (walk fs followLast links)

def find (fs : FileSystem) (followLast : Bool) (p : Path) : Except Refusal Found :=
  if p.names.any fun name => name.toList.contains '\x00' then .error .nulInName
  else if pathLimit < byteLength p.text then .error .nameTooLong
  else fs.walk followLast linkLimit [] p.names

def locate (fs : FileSystem) (followLast : Bool) (p : Path) : Except Refusal Location :=
  match fs.find followLast p with
  | .ok (.there loc) => .ok loc
  | .ok (.vacant _ _) => .error .missing
  | .error r => .error r

def lookUp (fs : FileSystem) (followLast : Bool) (p : Path) : Except Refusal Node := do
  match fs.node? (← fs.locate followLast p) with
  | some n => .ok n
  | none => .error .missing

end YamlCheck.FileSystem
