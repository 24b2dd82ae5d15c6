import YamlCheck.FileSystem.Access
import YamlCheck.Logging.Configure
import YamlCheck.Yaml.Load

/-!
# Setting up logging

Logging is set up from a declaration in a file, after colours have been installed.  If there is no
usable declaration then that is said and the fallback is taken.  In the end the level of this
program's loggers follows the wish to be told more.
-/

namespace YamlCheck.Logging

open YamlCheck.Text YamlCheck.Yaml

def Flaw.incident : Flaw → Incident
  | .rejected message => .badValue message
  | .missingKey key => .missingKey key
  | .missingItem message => .missingItem message
  | .endless => .endlessReference
  | .foreign kind message | .exit kind message => .outside kind message

/-- What is printed while logging is set up, and the state so far. -/
structure Setup where
  lines : List String := []
  state : State

/-- Steps of the setup, which may be stopped by an incident. -/
abbrev SetUp := ExceptT Incident (StateM Setup)

/-- The declaration that belongs to the program, line by line. -/
def packagedLines : List String := [
  "version: 1",
  "disable_existing_loggers: false",
  "",
  "formatters:",
  "  colored:",
  "    (): coloredlogs.ColoredFormatter",
  "    fmt: '%(asctime)s %(levelname)-8s %(message)s'",
  "    datefmt: '%H:%M:%S'",
  "",
  "handlers:",
  "  console:",
  "    class: logging.StreamHandler",
  "    level: DEBUG",
  "    formatter: colored",
  "    stream: ext://sys.stderr",
  "",
  "loggers:",
  "  yaml_validator:",
  "    level: INFO",
  "    propagate: true",
  "",
  "root:",
  "  level: WARNING",
  "  handlers: [console]"]

def packagedText : List Char := packagedLines.flatMap fun line => line.toList ++ ['\n']

/-- What a declaration is looked for in comes to, unless it cannot be read. -/
inductive Found
  | missing
  | empty
  | declaration (t : Tree)

namespace Found

def ofText (limits : Limits) (text : List Char) : Except Incident Found :=
  match loadSingle limits (Source.ofText text) with
  | .error e => .error (.document .classic ⟨"<unicode string>", some text.toArray⟩ e)
  | .ok none => .ok .empty
  | .ok (some d) => .ok (if holds d.tree then .declaration d.tree else .empty)

def ofBytes (limits : Limits) (bytes : List UInt8) : Except Incident Found :=
  let d := Utf8.decode bytes
  match d.fault with
  | some f => .error (.undecodable f)
  | none => ofText limits (Source.unifyLineEnds (d.chars.toList.map (·.1)))

end Found

inductive DeclarationSource
  | packaged
  | file (path : Path)

namespace DeclarationSource

def path : DeclarationSource → Path
  | .packaged => Path.ofText "logging_config.yaml"
  | .file path => path

def find (limits : Limits) (fs : FileSystem) : DeclarationSource → Except Incident Found
  | .packaged => Found.ofText limits packagedText
  | .file path =>
    match fs.isFile path with
    | .error i => .error i
    | .ok false => .ok .missing
    | .ok true =>
      match fs.read path with
      | .error r => .error (r.incident path)
      | .ok bytes => Found.ofBytes limits bytes

end DeclarationSource

namespace SetUp

variable (w : World)

def say (line : String) : SetUp Unit := modify fun s => { s with lines := s.lines ++ [line] }

/-- Changes of the state of logging as a step of the setup. -/
def change {α : Type} (act : Configure α) : SetUp α := fun s =>
  let (r, state) := act.run.run s.state
  (r.mapError Flaw.incident, { s with state := state })

/-- Says a line on the setup itself. -/
def announce : Configure Unit := do
  if (← get).isEnabled setupName .debug then w.line

/-- Takes the handlers off the root and closes them, one after the other. -/
def closeHandlers : List Handler → Configure Unit
  | [] => pure ()
  | h :: rest => do
    modify (·.withoutHandler h)
    w.close h
    closeHandlers rest

def fallBack : Configure Unit := do
  closeHandlers w (← get).rootHandlers
  modify State.fallback

/-- Installs colours, which may fail. -/
def install : SetUp Unit := fun s =>
  let (r, state) := (w.install *> announce w).run.run s.state
  let s := { s with state := state }
  match r with
  | .ok () => (.ok (), s)
  | .error (.exit kind message) => (.error (.outside kind message), s)
  | .error f =>
    (say ("Warning: coloredlogs.install() failed during initial setup: "
      ++ f.incident.text.printed)).run.run s

def use (path : Path) : Found → SetUp Unit
  | .missing => do
    say ("Warning: Logging configuration file not found at " ++ path.text
      ++ ". Using basicConfig.")
    change (fallBack w)
  | .empty => do
    say ("Warning: Logging configuration file " ++ path.text ++ " is empty. Using basicConfig.")
    change (fallBack w)
  | .declaration t => change do
    Configure.carryOut w t
    announce w

/-- What is said of an incident after which the fallback is taken. -/
def complaint? (path : Path) (i : Incident) : Option String :=
  let parsing := "Error parsing logging configuration file " ++ path.text ++ ": "
  let loading := "Error loading logging configuration from " ++ path.text ++ ": "
  match i with
  | .document _ _ (.complaint ..) | .document _ _ (.unreadable _) =>
    some (parsing ++ i.text.printed)
  | .document _ _ (.badValue _) | .document _ _ (.badKind _)
  | .document _ _ (.breakdown .malformedTime) | .system _ | .nulInName | .unencodable ..
  | .undecodable _ | .badValue _ => some (loading ++ i.text.printed)
  | _ => none

/-- Takes the fallback after an incident that is reckoned with. -/
def rescue (path : Path) (i : Incident) : SetUp Unit :=
  match complaint? path i with
  | none => throw i
  | some text => do
    say text
    say "Using basicConfig as fallback."
    change (fallBack w)

def useFound (fs : FileSystem) (source : DeclarationSource) : SetUp Unit := do
  use w source.path (← source.find w.limits fs)

/-- Colours first, then what the declaration says, or the fallback. -/
def prepare (fs : FileSystem) (source : DeclarationSource) : SetUp Unit := do
  install w
  tryCatch (useFound w fs source) (rescue w source.path)

end SetUp

/-- Sets up logging. -/
def setUp (w : World) (fs : FileSystem) (source : DeclarationSource) (verbose : Bool)
    (s : State) : Except Incident Setup :=
  match (SetUp.prepare w fs source).run.run { state := s } with
  | (.ok (), setup) => .ok { setup with state := setup.state.withVerbosity verbose }
  | (.error i, _) => .error i

end YamlCheck.Logging
