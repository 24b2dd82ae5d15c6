import YamlCheck.FileSystem.Lookup

/-!
# Requests that change nothing

Asking what is at a path, listing a directory and reading a file.  A question about the kind of a
node is answered in the negative if there is nothing at the path; other refusals remain.
-/

namespace YamlCheck.FileSystem

/-- Whether the node at a path, links followed, is of some kind. -/
def isKind (fs : FileSystem) (kind : Node → Bool) (p : Path) : Except Incident Bool :=
  match fs.lookUp true p with
  | .ok n => .ok (kind n)
  | .error r => if r.meansAbsent then .ok false else .error (r.incident p)

def isDirectory (fs : FileSystem) (p : Path) : Except Incident Bool := fs.isKind Node.isDirectory p

def isFile (fs : FileSystem) (p : Path) : Except Incident Bool := fs.isKind Node.isFile p

/-- Whether there is a node at a path at all, links followed. -/
def isThere (fs : FileSystem) (p : Path) : Except Incident Bool := fs.isKind (fun _ => true) p

def list (fs : FileSystem) (p : Path) : Except Refusal (List String) := do
  match ← fs.lookUp true p with
  | .directory mode entries => if mode.read then .ok (entries.map (·.1)) else .error .denied
  | _ => .error .notDirectory

/-- The bytes of a file; nothing ever comes through a pipe. -/
def read (fs : FileSystem) (p : Path) : Except Refusal (List UInt8) := do
  match ← fs.lookUp true p with
  | .file mode bytes => if mode.read then .ok bytes else .error .denied
  | .pipe mode => if mode.read then .ok [] else .error .denied
  | .directory .. => .error .isDirectory
  | .link _ => .error .missing

mutual

/-- The paths of all nodes below a directory at `p`; links to directories are not followed.  A
directory that cannot be listed, also because its path is too long, spoils the whole. -/
def below (p : Path) : Node → Except (Path × Refusal) (List Path)
  | .directory mode entries =>
    if mode.read then belowEntries p mode.search entries else .error (p, .denied)
  | _ => .error (p, .notDirectory)

def belowEntries (p : Path) (searchable : Bool) :
    List (String × Node) → Except (Path × Refusal) (List Path)
  | [] => .ok []
  | (name, .directory mode entries) :: rest =>
    if pathLimit < byteLength (p.child name).text then .error (p.child name, .nameTooLong)
    else if searchable then
      match below (p.child name) (.directory mode entries), belowEntries p searchable rest with
      | .ok inner, .ok others => .ok (p.child name :: (inner ++ others))
      | .error e, _ => .error e
      | _, .error e => .error e
    else .error (p.child name, .denied)
  | (name, _) :: rest => (belowEntries p searchable rest).map (p.child name :: ·)

end

def listAll (fs : FileSystem) (p : Path) : Except (Path × Refusal) (List Path) :=
  match fs.lookUp true p with
  | .ok n => below p n
  | .error r => .error (p, r)

end YamlCheck.FileSystem
