import YamlCheck.Config.Problem
import YamlCheck.Path
import YamlCheck.SystemError
import YamlCheck.Yaml.LoadError

/-!
# Failures

A `Failure` is what the checker reports in its own words; it may be traced back to an `Incident`,
an error of the operating system, of a document or of a value.  An incident that nothing accounts
for stops the checker by itself.
-/

namespace YamlCheck

open YamlCheck.Text YamlCheck.Yaml

inductive Incident
  | document (d : Dialect) (o : Origin) (e : LoadError)
  | system (e : SystemError)
  /-- Links that lead back to one of them. -/
  | linkLoop (path : Letters)
  /-- A text with a character that no file name can have. -/
  | nulInName
  /-- A text with letters that no file name can have; positions are counted from zero. -/
  | unencodable (start stop : Nat) (first : Letter)
  | unknownParser (name : String)
  | problems (ps : List Problem)
  | undecodable (f : EncodingFault)
  | badValue (message : Letters)
  | missingKey (key : Tree)
  | missingItem (message : String)
  | endlessReference
  /-- An error of a kind that only something outside knows of. -/
  | outside (kind : String) (message : Letters)

def Incident.text : Incident → Letters
  | .document d o e => e.text d o
  | .system e => e.text
  | .linkLoop path => "Symlink loop from " ++ quoted path
  | .nulInName => "embedded null byte"
  | .unencodable start stop first =>
    "'utf-8' codec can't encode " ++ positionsText start stop first ++ ": surrogates not allowed"
  | .unknownParser name =>
    "Unknown YAML parser '" ++ name ++ "'. Choose one of: "
      ++ ", ".intercalate (Dialect.all.map Dialect.name)
  | .problems ps => Problem.report ps
  | .undecodable f => f.utf8Message
  | .badValue message => message
  | .missingKey key => shown key
  | .missingItem message => message
  | .endlessReference => "maximum recursion depth exceeded"
  | .outside _ message => message

inductive ConfigFailure
  | notFound (path : Path)
  | malformed (path : Path) (cause : Incident)
  | unreadable (path : Path) (e : SystemError)
  | notMapping (path : Path) (kind : String)
  /-- The values are wrong; they come from a file or are laid over others. -/
  | invalid (path : Option Path) (ps : List Problem)
  | stated (message : String)

namespace ConfigFailure

def message : ConfigFailure → Letters
  | .notFound path => "Configuration file not found: " ++ path.text
  | .malformed path cause =>
    "Could not parse configuration file " ++ path.text ++ ": " ++ cause.text
  | .unreadable path e => "Could not read configuration file " ++ path.text ++ ": " ++ e.text
  | .notMapping path kind =>
    "Configuration file " ++ path.text ++ " must contain a mapping, got " ++ kind ++ "."
  | .invalid (some path) ps =>
    "Invalid configuration in " ++ path.text ++ ":\n" ++ Problem.report ps
  | .invalid none ps => "Invalid configuration:\n" ++ Problem.report ps
  | .stated message => message

def cause : ConfigFailure → Option Incident
  | .malformed _ cause => some cause
  | .unreadable _ e => some (.system e)
  | .invalid _ ps => some (.problems ps)
  | _ => none

end ConfigFailure

inductive FileFailure
  | malformed (diagnostic : Letters) (path : Path) (line column : Option Int)
      (cause : Option Incident)
  | unreadable (path : Path) (reason : String) (cause : Option Incident)

namespace FileFailure

/-- Where in a file a diagnostic belongs, if a line is known. -/
def placeText (line column : Option Int) : String :=
  match line with
  | none => ""
  | some l =>
    " (line " ++ toString l ++ ", column " ++ (column.map toString).getD SystemError.unknown ++ ")"

def message : FileFailure → Letters
  | .malformed diagnostic path line column _ =>
    "Malformed YAML in " ++ path.text ++ placeText line column ++ ": " ++ diagnostic
  | .unreadable path reason _ => "Could not read " ++ path.text ++ ": " ++ reason

def cause : FileFailure → Option Incident
  | .malformed _ _ _ _ cause => cause
  | .unreadable _ _ cause => cause

end FileFailure

inductive Failure
  | config (f : ConfigFailure)
  | resolution (path reason : Letters) (cause : Option Incident)
  | classification (path : Path)
  | file (f : FileFailure)
  /-- A run has come to an end at this file. -/
  | validation (message : String) (path : Path) (cause : Option FileFailure)

def Failure.message : Failure → Letters
  | .config f => f.message
  | .resolution path reason _ =>
    "Could not resolve search path '" ++ path ++ "': " ++ reason
  | .classification path =>
    "File at path " ++ path.text ++ " is neither a file nor a directory."
  | .file f => f.message
  | .validation message _ _ => message

def Failure.causeText? : Failure → Option Letters
  | .config f => f.cause.map Incident.text
  | .resolution _ _ cause => cause.map Incident.text
  | .classification _ => none
  | .file f => f.cause.map Incident.text
  | .validation _ _ cause => cause.map FileFailure.message

/-- What ends an activity before its time. -/
inductive Stop
  | failure (f : Failure)
  | incident (i : Incident)

def Stop.message : Stop → Letters
  | .failure f => f.message
  | .incident i => i.text

namespace FileFailure

def ofSystem (path : Path) (e : SystemError) : FileFailure :=
  .unreadable path e.reason (some (.system e))

/-- A directory cannot be listed; the error may name another directory than the one asked for. -/
def ofListing (directory : Path) (e : SystemError) : FileFailure :=
  match e.file? with
  | some f => ofSystem (Path.ofText f.printed) e
  | none => ofSystem directory e

end FileFailure

end YamlCheck
