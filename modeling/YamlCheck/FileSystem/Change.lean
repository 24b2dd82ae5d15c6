import YamlCheck.FileSystem.Lookup

/-!
# Requests that change a file system

Writing files, making directories, links and pipes, changing rights and removing nodes.  A new
entry needs the right to write to its directory.
-/

namespace YamlCheck.FileSystem

def add (fs : FileSystem) (directory : Location) (name : String) (n : Node) :
    Except Refusal FileSystem :=
  match fs.node? directory with
  | some d => if d.mode.write then .ok (fs.put directory name n) else .error .denied
  | none => .error .missing

/-- Gives a file these bytes; a missing file is made, also behind a link. -/
def write (fs : FileSystem) (p : Path) (bytes : List UInt8) : Except Refusal FileSystem := do
  match ← fs.find true p with
  | .vacant directory name => fs.add directory name (.file .ofFile bytes)
  | .there loc =>
    match fs.node? loc with
    | some (.file mode _) =>
      if mode.write then .ok (fs.replace loc (.file mode bytes)) else .error .denied
    | some (.directory ..) => .error .isDirectory
    | some _ => .ok fs
    | none => .error .missing

def make (fs : FileSystem) (p : Path) (n : Node) : Except Refusal FileSystem := do
  match ← fs.find false p with
  | .vacant directory name => fs.add directory name n
  | .there _ => .error .exists

/-- Makes the directories that are missing on the way to a location, given the names of the way
that have been passed. -/
def makeWay (fs : FileSystem) (passed : List String) : List String → Except Refusal FileSystem
  | [] => .ok fs
  | name :: rest => do
    let here := passed ++ [name]
    let fs ← match ← fs.find true ⟨.slash, here⟩ with
      | .vacant directory name => fs.add directory name (.directory .ofDirectory [])
      | .there loc =>
        match fs.node? loc with
        | some (.directory ..) => .ok fs
        | _ => .error .exists
    makeWay fs here rest

def makeDirectory (fs : FileSystem) (p : Path) : Except Refusal FileSystem :=
  fs.makeWay [] p.names

def changeMode (fs : FileSystem) (p : Path) (mode : Mode) : Except Refusal FileSystem := do
  let loc ← fs.locate true p
  match fs.node? loc with
  | some n => .ok (fs.replace loc (n.withMode mode))
  | none => .error .missing

/-- Removes a node with all that is below it; a link is removed and not its target. -/
def remove (fs : FileSystem) (p : Path) : Except Refusal FileSystem := do
  let loc ← fs.locate false p
  match loc.getLast?, fs.node? loc.dropLast with
  | some name, some d => if d.mode.write then .ok (fs.erase loc.dropLast name) else .error .denied
  | _, _ => .error .denied

end YamlCheck.FileSystem
