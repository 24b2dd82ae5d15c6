import YamlCheck.FileSystem.Access

/-!
# Discovering YAML files

The candidates of a directory are listed at once and put in order; whether a candidate counts is
asked only when its turn comes.  So a discovery can be interrupted, and the file system may have
changed when it goes on.
-/

namespace YamlCheck

def yamlEndings : List String := [".yaml", ".yml"]

def isYamlName (name : String) : Bool :=
  yamlEndings.any fun ending => ending.toList.isSuffixOf name.toList

namespace FileSystem

/-- Whether a path counts as a YAML file: by its name, unless it is a directory. -/
def isYaml (fs : FileSystem) (p : Path) : Except Incident Bool :=
  match fs.isDirectory p with
  | .ok directory => .ok (!directory && isYamlName p.name)
  | .error i => .error i

def listingStop (r : Refusal) (p : Path) : Stop :=
  match r.incident p with
  | .system e => .failure (.file (.ofListing p e))
  | i => .incident i

def candidates (fs : FileSystem) (directory : Path) (recursive : Bool) : Except Stop (List Path) :=
  if recursive then
    match fs.listAll directory with
    | .ok ps => .ok (Path.sort ps)
    | .error (p, r) => .error (listingStop r p)
  else
    match fs.list directory with
    | .ok names => .ok (Path.sort (names.map directory.child))
    | .error r => .error (listingStop r directory)

end FileSystem

/-- A discovery that may be interrupted. -/
inductive Discovery
  | fresh (directory : Path) (recursive : Bool)
  | pending (rest : List Path)
  deriving Repr, DecidableEq

namespace Discovery

def finished : Discovery := .pending []

/-- The next of some candidates that counts, and the candidates after it. -/
def nextOf (fs : FileSystem) : List Path → Except Stop (Option Path) × Discovery
  | [] => (.ok none, finished)
  | p :: rest =>
    match fs.isYaml p with
    | .ok true => (.ok (some p), .pending rest)
    | .ok false => nextOf fs rest
    | .error i => (.error (.incident i), finished)

/-- The next file, given the file system as it is now; after an error there is no other. -/
def next (fs : FileSystem) : Discovery → Except Stop (Option Path) × Discovery
  | .fresh directory recursive =>
    match fs.candidates directory recursive with
    | .ok ps => nextOf fs ps
    | .error s => (.error s, finished)
  | .pending rest => nextOf fs rest

end Discovery

/-- The files that a discovery finds, and what stopped it before the end. -/
structure Discovered where
  files : List Path
  stop : Option Stop

namespace Discovered

def ofCandidates (fs : FileSystem) : List Path → Discovered
  | [] => ⟨[], none⟩
  | p :: rest =>
    match fs.isYaml p with
    | .ok true =>
      let d := ofCandidates fs rest
      { d with files := p :: d.files }
    | .ok false => ofCandidates fs rest
    | .error i => ⟨[], some (.incident i)⟩

end Discovered

/-- The YAML files in or below a directory of a file system that does not change. -/
def FileSystem.discover (fs : FileSystem) (directory : Path) (recursive : Bool) : Discovered :=
  match fs.candidates directory recursive with
  | .ok ps => .ofCandidates fs ps
  | .error s => ⟨[], some s⟩

end YamlCheck
