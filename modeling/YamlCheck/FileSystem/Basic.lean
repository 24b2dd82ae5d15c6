import YamlCheck.Failure

/-!
# File systems

A file system is a tree of files, directories, links and pipes, all owned by the user who looks at
it, so that only the owner's rights count.  A location is the list of names that leads to a node
from the root, through directories alone.
-/

namespace YamlCheck

open YamlCheck.Text

/-- The rights of the owner; for a directory `search` is the right to pass through it. -/
structure Mode where
  read : Bool
  write : Bool
  search : Bool
  deriving Repr, DecidableEq

namespace Mode

def ofDigit (n : Nat) : Mode := ⟨n / 4 % 2 == 1, n / 2 % 2 == 1, n % 2 == 1⟩

def ofFile : Mode := ofDigit 6

def ofDirectory : Mode := ofDigit 7

end Mode

inductive Node
  | file (mode : Mode) (bytes : List UInt8)
  | directory (mode : Mode) (entries : List (String × Node))
  | link (target : String)
  | pipe (mode : Mode)

/-- The names that lead from the root to a node. -/
abbrev Location := List String

structure FileSystem where
  root : Node

inductive Refusal
  | denied
  | missing
  | exists
  | notDirectory
  | isDirectory
  | nameTooLong
  | tooManyLinks
  /-- No request can be made with such a name. -/
  | nulInName
  deriving Repr, DecidableEq

namespace Refusal

def report? : Refusal → Option (Int × String)
  | .denied => some (13, "Permission denied")
  | .missing => some (2, "No such file or directory")
  | .exists => some (17, "File exists")
  | .notDirectory => some (20, "Not a directory")
  | .isDirectory => some (21, "Is a directory")
  | .nameTooLong => some (36, "File name too long")
  | .tooManyLinks => some (40, "Too many levels of symbolic links")
  | .nulInName => none

def incidentAt (r : Refusal) (place : Letters) : Incident :=
  match r.report? with
  | some (code, wording) => .system (.coded (some code) (some wording) (some place))
  | none => .nulInName

def incident (r : Refusal) (path : Path) : Incident := r.incidentAt path.text

/-- Whether a refusal only says that there is nothing to be found. -/
def meansAbsent : Refusal → Bool
  | .missing | .notDirectory | .tooManyLinks | .nulInName => true
  | _ => false

end Refusal

namespace Node

def entryNamed? (entries : List (String × Node)) (name : String) : Option Node :=
  (entries.find? (·.1 == name)).map (·.2)

/-- The node that some names lead to, without following links. -/
def get? : Node → Location → Option Node
  | n, [] => some n
  | .directory _ entries, name :: rest =>
    match entryNamed? entries name with
    | some n => n.get? rest
    | none => none
  | _, _ :: _ => none

def putEntry (entries : List (String × Node)) (name : String) (n : Node) :
    List (String × Node) :=
  match entries with
  | [] => [(name, n)]
  | e :: rest => if e.1 == name then (name, n) :: rest else e :: putEntry rest name n

def changeEntries (f : List (String × Node) → List (String × Node)) : Node → Location → Node
  | .directory mode entries, [] => .directory mode (f entries)
  | .directory mode entries, name :: rest =>
    .directory mode <| entries.map fun e =>
      if e.1 == name then (e.1, changeEntries f e.2 rest) else e
  | n, _ => n

mutual

def countLinks : Node → Nat
  | .link _ => 1
  | .directory _ entries => countLinksIn entries
  | _ => 0

def countLinksIn : List (String × Node) → Nat
  | [] => 0
  | (_, n) :: rest => countLinks n + countLinksIn rest

end

def isDirectory : Node → Bool
  | .directory .. => true
  | _ => false

def isFile : Node → Bool
  | .file .. => true
  | _ => false

/-- The rights to a node; links give all. -/
def mode : Node → Mode
  | .file mode _ | .directory mode _ | .pipe mode => mode
  | .link _ => Mode.ofDirectory

def withMode (mode : Mode) : Node → Node
  | .file _ bytes => .file mode bytes
  | .directory _ entries => .directory mode entries
  | .link target => .link target
  | .pipe _ => .pipe mode

end Node

namespace FileSystem

def node? (fs : FileSystem) (loc : Location) : Option Node := fs.root.get? loc

def put (fs : FileSystem) (directory : Location) (name : String) (n : Node) : FileSystem :=
  ⟨fs.root.changeEntries (fun es => Node.putEntry es name n) directory⟩

def erase (fs : FileSystem) (directory : Location) (name : String) : FileSystem :=
  ⟨fs.root.changeEntries (fun es => es.filter (·.1 != name)) directory⟩

def replace (fs : FileSystem) (loc : Location) (n : Node) : FileSystem :=
  match loc.getLast? with
  | some name => fs.put loc.dropLast name n
  | none => ⟨n⟩

end FileSystem

end YamlCheck
