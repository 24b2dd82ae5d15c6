import YamlCheck.Config.Reading
import YamlCheck.FileSystem.Access
import YamlCheck.Yaml.Load

/-!
# Configuration files

A configuration file holds one document in the classic dialect: a mapping, or nothing at all for
the defaults.
-/

namespace YamlCheck

open YamlCheck.Text YamlCheck.Yaml

/-- What is said, to those who want to know, about how a run is set up. -/
inductive Notice
  | emptyConfig (path : Path)
  | loadedConfig (path : Path) (c : Config)
  | usingParser (d : Dialect)
  deriving Repr, DecidableEq

def Notice.text : Notice → String
  | .emptyConfig path => "Configuration file " ++ path.text ++ " is empty. Using defaults."
  | .loadedConfig path c => "Loaded configuration from " ++ path.text ++ ": " ++ c.text
  | .usingParser d => "Using '" ++ d.name ++ "' YAML parser backend."

namespace Config

def defaultFileName : String := ".yamlvalidator.yaml"

def failed {α : Type} (f : ConfigFailure) : Except Stop α := .error (.failure (.config f))

/-- How an error in a configuration file ends its reading: as a failure if the document is at
fault, by itself if one of its values or its bytes are. -/
def loadStop (path : Path) (e : LoadError) : Stop :=
  let incident : Incident := .document .classic { name := path.text } e
  let malformed : Stop := .failure (.config (.malformed path incident))
  match e with
  | .complaint .. | .unreadable (.encoding ..) | .unreadable (.control ..) => malformed
  | _ => .incident incident

/-- The configuration that a document describes; an empty document leaves the defaults. -/
def ofDocument (limits : Limits) (path : Path) (doc : Option Document) :
    List Notice × Except Stop Config :=
  let finish (notices : List Notice) (es : Entries) : List Notice × Except Stop Config :=
    match read es with
    | .ok c => (notices ++ [.loadedConfig path c], .ok c)
    | .error ps => (notices, failed (.invalid (some path) ps))
  match doc with
  | none | some ⟨.scalar .null, _⟩ => finish [.emptyConfig path] []
  | some d =>
    match d.entries? limits with
    | some es => finish [] es
    | none => ([], failed (.notMapping path (d.root.shallow limits d.cells).kindName))

def load (limits : Limits) (fs : FileSystem) (path : Path) : List Notice × Except Stop Config :=
  match fs.isFile path with
  | .error i => ([], .error (.incident i))
  | .ok false => ([], failed (.notFound path))
  | .ok true =>
    match fs.read path with
    | .error r =>
      match r.incident path with
      | .system e => ([], failed (.unreadable path e))
      | i => ([], .error (.incident i))
    | .ok bytes =>
      match loadSingle limits (Source.ofTextFile bytes) with
      | .error e => ([], .error (loadStop path e))
      | .ok doc => ofDocument limits path doc

/-- The configuration file of a project directory that is used unasked, if there is one. -/
def findDefault (fs : FileSystem) (directory : Path) : Except Incident (Option Path) :=
  let candidate := directory.child defaultFileName
  match fs.isFile candidate with
  | .ok true => .ok (some candidate)
  | .ok false => .ok none
  | .error i => .error i

/-- The name that the base of a configuration is handed over by; no value can be. -/
def baseName : String := "base"

def buildOver (base : Option Config) (values : List (String × Given)) : Except Stop Config :=
  if values.any (·.1 == baseName) then
    .error (.incident (.outside "TypeError"
      ("build_config() got multiple values for argument " ++ quoted baseName)))
  else match build base values with
    | .ok c => .ok c
    | .error ps => failed (.invalid none ps)

end Config

end YamlCheck
