import YamlCheck.CommandLine.Help
import YamlCheck.Config.File
import YamlCheck.FileSystem.Change
import YamlCheck.Logging.Bundled
import YamlCheck.Logging.Setup
import YamlCheck.Run

/-!
# Executing a command line

`execute` takes the words of a command line, given a file system and a working directory, and gives
the exit code, the output, the log and the file system afterwards.  A run sets up logging first; it
exits with 0 if all is well, with 1 after a failure, with 2 after a mistake on the command line and
with 3 after an incident that is no failure.
-/

namespace YamlCheck.CommandLine

open YamlCheck.Text YamlCheck.Yaml

structure Outcome where
  exitCode : Nat
  out : String := ""
  err : String := ""
  log : List (Logging.Level × String) := []
  after : FileSystem

structure RunOptions where
  recursive : Option Bool := none
  allowDuplicates : Option Bool := none
  parser : Option Dialect := none
  config : Option Path := none
  projectDir : Option Path := none
  verbose : Bool := false

/-- What the value of an option has to be a path of. -/
structure PathRule where
  label : String
  kind : String
  mustExist : Bool
  allowsFile : Bool
  allowsDirectory : Bool

def configRule : PathRule := ⟨"'--config' / '-c'", "file", false, true, false⟩

def projectDirRule : PathRule := ⟨"'--project-dir' / '-d'", "dir", true, false, true⟩

namespace PathRule

/-- The canonical path that a value stands for, if it keeps the rule. -/
def read (rule : PathRule) (fs : FileSystem) (directory : Location) (value : String) :
    Except UsageError Path :=
  let refuse {α : Type} (text : String) : Except UsageError α :=
    .error (.invalidValue rule.label (rule.kind ++ " " ++ quoted value ++ " " ++ text))
  match fs.canonicalFrom directory value with
  | .error r =>
    .error (.invalidValue rule.label ("Value error, " ++ (r.incident (.ofText value)).text.printed))
  | .ok loc =>
    let p := FileSystem.pathOf loc
    match fs.lookUp true p with
    | .error _ => if rule.mustExist then refuse "does not exist." else .ok p
    | .ok n =>
      if !rule.allowsFile && n.isFile then refuse "is a file."
      else if !rule.allowsDirectory && n.isDirectory then refuse "is a directory."
      else if !n.mode.read then refuse "is not readable."
      else .ok p

end PathRule

def readParserName (name : String) : Except UsageError Dialect :=
  match Dialect.ofName? name with
  | some d => .ok d
  | none =>
    .error (.invalidValue "'--parser'" ("Value error, " ++ quoted name ++ " is not one of "
      ++ ", ".intercalate (Dialect.all.map fun d => quoted d.name) ++ "."))

namespace RunOptions

def withTopic (fs : FileSystem) (directory : Location) (v : Invocation) (o : RunOptions)
    (t : Topic) : Except UsageError RunOptions :=
  match t, v.taken? t with
  | .recursive, _ => .ok { o with recursive := v.said? t }
  | .allowDuplicates, _ => .ok { o with allowDuplicates := v.said? t }
  | .verbose, _ => .ok { o with verbose := (v.said? t).getD false }
  | .parser, some name => do return { o with parser := some (← readParserName name) }
  | .config, some value => do
    return { o with config := some (← configRule.read fs directory value) }
  | .projectDir, some value => do
    return { o with projectDir := some (← projectDirRule.read fs directory value) }
  | _, _ => .ok o

/-- The options of an invocation; of several mistakes the one on the topic that comes first
counts. -/
def ofInvocation (fs : FileSystem) (directory : Location) (v : Invocation) :
    Except UsageError RunOptions :=
  v.topics.foldlM (withTopic fs directory v) {}

def values (o : RunOptions) (searchPaths : List String) : List (String × Given) :=
  let paths := if searchPaths.isEmpty then [] else
    [(Field.searchPaths.name, .ofTexts (searchPaths.map Letters.ofText))]
  let truth (f : Field) (b : Option Bool) : List (String × Given) :=
    (b.map fun b => (f.name, Given.ofBool b)).toList
  paths ++ truth .searchRecursive o.recursive ++ truth .allowDuplicates o.allowDuplicates
    ++ (o.parser.map fun d => (Field.parser.name, Given.ofText d.name)).toList

end RunOptions

structure Performance where
  notices : List Notice
  reports : List Report
  stop : Option Stop

/-- The configuration that a run is based on: a file that is asked for, or the default one. -/
def baseConfig (limits : Limits) (fs : FileSystem) (directory : Path) (asked : Option Path) :
    List Notice × Except Stop (Option Config) :=
  let load (p : Path) : List Notice × Except Stop (Option Config) :=
    let (notices, c) := Config.load limits fs p
    (notices, c.map some)
  match asked with
  | some p => load p
  | none =>
    match Config.findDefault fs directory with
    | .error i => ([], .error (.incident i))
    | .ok none => ([], .ok none)
    | .ok (some p) => load p

def perform (limits : Limits) (fs : FileSystem) (workingDirectory : Location) (o : RunOptions)
    (searchPaths : List String) : Performance :=
  let directory := o.projectDir.getD (FileSystem.pathOf workingDirectory)
  let (notices, base) := baseConfig limits fs directory o.config
  match base with
  | .error s => ⟨notices, [], some s⟩
  | .ok base =>
    match Config.buildOver base (o.values searchPaths) with
    | .error s => ⟨notices, [], some s⟩
    | .ok c =>
      let n := c.run limits fs directory
      ⟨notices ++ [.usingParser c.parser], n.reports, n.stop⟩

def stopText : Stop → String × Nat
  | .failure f =>
    ("Error: " ++ f.message.printed ++ "\n"
      ++ (match f.causeText? with
        | some t => "Caused by: " ++ t.printed ++ "\n"
        | none => ""), 1)
  | .incident i => ("An unexpected error occurred during run: " ++ i.text.printed ++ "\n", 3)

/-- The logger that a notice is given to. -/
def loggerOf : Notice → Letters
  | .emptyConfig _ | .loadedConfig .. => Logging.configName
  | .usingParser _ => Logging.parsingName

/-- The lines of a performance that its loggers let through. -/
def Performance.log (p : Performance) (s : Logging.State) : List (Logging.Level × String) :=
  let notices := p.notices.filter fun n => s.isEnabled (loggerOf n) .debug
  let reports := p.reports.filter fun _ => s.isEnabled Logging.reporterName .info
  notices.map (fun n => (.debug, n.text)) ++ reports.map fun r => (.info, r.text)

/-- What a performance comes to, after logging has been set up. -/
def Performance.outcome (p : Performance) (setup : Logging.Setup) (fs : FileSystem) : Outcome :=
  let said := "".intercalate (setup.lines.map (· ++ "\n"))
  let log := p.log setup.state
  match p.stop with
  | none =>
    { exitCode := 0, out := "All YAML files are valid.\n", err := said, log := log, after := fs }
  | some s =>
    let (text, code) := stopText s
    { exitCode := code, err := said ++ text, log := log, after := fs }

def initialConfig : String :=
  "# yamlv configuration\nsearchPaths:\n  - src/main/resources/\nsearchRecursive: false\n"
    ++ "allowDuplicates: false\n"

/-- Writes a configuration file into the working directory, unless there is one. -/
def writeInitial (fs : FileSystem) (workingDirectory : Location) : Except Incident Outcome := do
  let path := (FileSystem.pathOf workingDirectory).child Config.defaultFileName
  let name := "'" ++ path.name ++ "'"
  if ← fs.isThere path then
    return { exitCode := 0, out := name ++ " already exists. Nothing to do.\n", after := fs }
  match fs.write path (Utf8.encode initialConfig) with
  | .ok fs => return { exitCode := 0, out := "Created " ++ name ++ ".\n", after := fs }
  | .error r =>
    match r.incident path with
    | .system e =>
      let text := "Error writing " ++ path.text ++ ": " ++ e.text ++ "\n"
      return { exitCode := 2, err := text, after := fs }
    | i => throw i

def mistake (fs : FileSystem) (c : Command) (e : UsageError) (commands : List String) : Outcome :=
  { exitCode := 2, err := c.complaint e commands, after := fs }

/-- The outcome of asking for the version or for help; of both the first one counts. -/
def information? (fs : FileSystem) (c : Command) (v : Invocation) : Option Outcome :=
  v.topics.findSome? fun
    | .help => some { exitCode := 0, out := c.help, after := fs }
    | .version => some { exitCode := 0, out := versionText, after := fs }
    | _ => none

/-- What logging is set up with: the declaration that belongs to the program is far from any
limit. -/
def ownWorld : Logging.World := .bundled .usual

def executeRun (limits : Limits) (fs : FileSystem) (directory : Location) (words : List String) :
    Except Incident Outcome :=
  match readWords Command.run.grammar words with
  | .error e => .ok (mistake fs .run e [])
  | .ok v =>
    match information? fs .run v, RunOptions.ofInvocation fs directory v with
    | some o, _ => .ok o
    | none, .error e => .ok (mistake fs .run e [])
    | none, .ok o => do
      let setup ← Logging.setUp ownWorld fs .packaged o.verbose .initial
      return (perform limits fs directory o v.arguments).outcome setup fs

def executeInit (fs : FileSystem) (directory : Location) (words : List String) :
    Except Incident Outcome :=
  match readWords Command.init.grammar words with
  | .error e => .ok (mistake fs .init e [])
  | .ok v =>
    match information? fs .init v with
    | some o => .ok o
    | none =>
      if v.arguments.isEmpty then writeInitial fs directory
      else .ok (mistake fs .init (.extraArguments v.arguments) [])

/-- What becomes of a word that is no command: perhaps it is an option after all. -/
def unknownCommand (fs : FileSystem) (name : String) (rest : List String) : Outcome :=
  let similar := Similarity.closest name Command.names
  match readWords Command.whole.grammar (name :: rest) with
  | .error e => mistake fs .whole e similar
  | .ok v => (information? fs .whole v).getD (mistake fs .whole (.noSuchCommand name) similar)

def execute (limits : Limits) (fs : FileSystem) (directory : Location) (words : List String) :
    Except Incident Outcome :=
  if words.isEmpty then .ok { exitCode := 2, err := Command.whole.help, after := fs }
  else match readWords Command.whole.grammar words with
    | .error e => .ok (mistake fs .whole e [])
    | .ok v =>
      match information? fs .whole v, v.arguments with
      | some o, _ => .ok o
      | none, [] => .ok (mistake fs .whole .missingCommand [])
      | none, name :: rest =>
        match Command.ofName? name with
        | some .run => executeRun limits fs directory rest
        | some .init => executeInit fs directory rest
        | _ => .ok (unknownCommand fs name rest)

end YamlCheck.CommandLine
