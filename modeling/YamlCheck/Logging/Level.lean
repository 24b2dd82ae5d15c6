import YamlCheck.Yaml.Value

/-!
# Levels

The weight of a log line, and the least weight that is let through.  Six levels have names; any
other number is a level too.
-/

namespace YamlCheck.Logging

open YamlCheck.Text YamlCheck.Yaml

structure Level where
  number : Int
  /-- The number as it was written. -/
  spelling : String := toString number
  deriving Repr, DecidableEq

namespace Level

def names : List (Letters × Int) := [
  ("CRITICAL", 50), ("ERROR", 40), ("WARNING", 30), ("INFO", 20), ("DEBUG", 10), ("NOTSET", 0)]

/-- Further names that a level may be written by. -/
def synonyms : List (Letters × Int) := [("FATAL", 50), ("WARN", 30)]

/-- The level that leaves the decision to others. -/
def notSet : Level := ⟨0, "0"⟩

def debug : Level := ⟨10, "10"⟩

def info : Level := ⟨20, "20"⟩

def warning : Level := ⟨30, "30"⟩

def text (l : Level) : Letters :=
  match names.find? (·.2 == l.number) with
  | some (name, _) => name
  | none => "Level " ++ l.spelling

/-- The level that a value denotes, if these are the names that levels can be written by. -/
def ofTree? (known : List (Letters × Int)) : Tree → Option Level
  | .scalar (.int i) => some { number := i }
  | .scalar (.bool b) => some ⟨Scalar.intOfBool b, if b then "True" else "False"⟩
  | .scalar (.text s) => (known.find? (·.1 == s)).map fun e => { number := e.2 }
  | _ => none

end Level

end YamlCheck.Logging
