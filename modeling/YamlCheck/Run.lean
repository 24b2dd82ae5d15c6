import YamlCheck.Backend
import YamlCheck.Config.Basic
import YamlCheck.Discovery
import YamlCheck.FileSystem.Resolution
import YamlCheck.Report

/-!
# Runs

A run goes through the search paths of a configuration in order.  A path is resolved and then
checked: a directory file by file, a YAML file by itself, any other file not at all.  The first
failure ends the run.
-/

namespace YamlCheck

open YamlCheck.Text

/-- What an activity has said, which files it has tried to open, in order, and what stopped it
before its end. -/
structure Narrative where
  reports : List Report
  opened : List Path
  stop : Option Stop

namespace Narrative

def quiet : Narrative := ⟨[], [], none⟩

def stopped (s : Stop) : Narrative := ⟨[], [], some s⟩

def after (r : Report) (n : Narrative) : Narrative := { n with reports := r :: n.reports }

/-- One activity and then another, unless the first one was stopped. -/
def andThen (a : Narrative) (b : Unit → Narrative) : Narrative :=
  match a.stop with
  | some _ => a
  | none =>
    let n := b ()
    { n with reports := a.reports ++ n.reports, opened := a.opened ++ n.opened }

end Narrative

/-- The verdict on a file: the number of its documents before its end or its first error. -/
structure Verdict where
  documents : Nat
  error : Option FileFailure

def documentReports (file : Path) (documents : Nat) : List Report :=
  (List.range documents).map fun i => .documentSuccess (i + 1) file

structure Checker where
  backend : Backend
  duplicates : Yaml.Duplicates

namespace Checker

/-- Goes through the documents of a file; a file that cannot be opened has none. -/
def passage (c : Checker) (fs : FileSystem) (file : Path) : Passage :=
  match fs.read file with
  | .error r => ⟨0, some (.incident (r.incident file))⟩
  | .ok bytes => c.backend file c.duplicates bytes

/-- Reads all documents of a file, with the reports on them.  What neither is a malformed document
nor comes from the operating system is no verdict. -/
def validate (c : Checker) (fs : FileSystem) (file : Path) :
    List Report × Except Stop Verdict :=
  let p := c.passage fs file
  let verdict : Except Stop Verdict :=
    match p.stop with
    | none => .ok ⟨p.documents, none⟩
    | some (.failure (.file (.malformed d q l k cause))) =>
      .ok ⟨p.documents, some (.malformed d q l k cause)⟩
    | some (.incident (.system e)) => .ok ⟨p.documents, some (.ofSystem file e)⟩
    | some s => .error s
  (documentReports file p.documents, verdict)

def checkFile (c : Checker) (fs : FileSystem) (file : Path) : Narrative :=
  let (reports, verdict) := c.validate fs file
  let (last, stop) : List Report × Option Stop :=
    match verdict with
    | .ok ⟨_, none⟩ => ([.fileSuccess file], none)
    | .ok ⟨_, some f⟩ => ([], some (.failure (.validation (failureText file) file (some f))))
    | .error s => ([], some s)
  ⟨.startingFile file :: (reports ++ last), [file], stop⟩

/-- Checks files one after the other, up to the first failure. -/
def checkFiles (c : Checker) (fs : FileSystem) : List Path → Narrative
  | [] => .quiet
  | file :: rest => (c.checkFile fs file).andThen fun _ => checkFiles c fs rest

def checkDirectory (c : Checker) (fs : FileSystem) (directory : Path) (recursive : Bool) :
    Narrative :=
  let found := fs.discover directory recursive
  .after (.startingDirectory directory recursive) <|
    (c.checkFiles fs found.files).andThen fun _ => ⟨[], [], found.stop⟩

def checkPath (c : Checker) (fs : FileSystem) (path : Path) (recursive : Bool) : Narrative :=
  match fs.isDirectory path with
  | .error i => .stopped (.incident i)
  | .ok true => c.checkDirectory fs path recursive
  | .ok false =>
    match fs.isFile path with
    | .error i => .stopped (.incident i)
    | .ok false => .stopped (.failure (.classification path))
    | .ok true =>
      match fs.isYaml path with
      | .error i => .stopped (.incident i)
      | .ok true => c.checkFile fs path
      | .ok false => .quiet

/-- Resolves and checks search paths one after the other, up to the first failure. -/
def checkAll (c : Checker) (fs : FileSystem) (directory : Path) (recursive : Bool) :
    List Letters → Narrative
  | [] => .quiet
  | path :: rest =>
    match fs.resolve path directory with
    | .error s => .stopped s
    | .ok p => (c.checkPath fs p recursive).andThen fun _ => checkAll c fs directory recursive rest

end Checker

namespace Config

def duplicates (c : Config) : Yaml.Duplicates := if c.allowDuplicates then .allowed else .refused

def runWith (c : Config) (backend : Backend) (fs : FileSystem) (directory : Path) : Narrative :=
  Checker.checkAll ⟨backend, c.duplicates⟩ fs directory c.searchRecursive c.searchPaths

def run (c : Config) (limits : Yaml.Limits) (fs : FileSystem) (directory : Path) : Narrative :=
  c.runWith (.ofDialect limits c.parser) fs directory

end Config

end YamlCheck
