import YamlCheck.Logging.Level
import YamlCheck.Logging.Template

/-!
# The state of logging

Loggers form a tree by their names, with a root above all of them.  A logger lets a line through
unless it is disabled, if the level of the line reaches its own level or, where that is not set,
the level of the nearest logger above it.  Lines that are let through end at handlers, and a
formatter gives them their text.
-/

namespace YamlCheck.Logging

open YamlCheck.Text YamlCheck.Yaml

inductive FormatterKind
  | standard
  /-- Knows the name of the host too. -/
  | basic
  | coloured
  | other (name : String)
  deriving Repr, DecidableEq

def FormatterKind.text : FormatterKind → String
  | .standard => "Formatter"
  | .basic => "BasicFormatter"
  | .coloured => "ColoredFormatter"
  | .other name => name

structure Formatter where
  kind : FormatterKind
  /-- A text, unless it was accepted unseen. -/
  template : Tree
  dateTemplate : Tree
  deriving Repr

inductive HandlerKind
  /-- Does nothing by itself. -/
  | plain
  /-- Drops all lines. -/
  | null
  | stream
  | standardError
  | other (name : String)
  deriving Repr, DecidableEq

def HandlerKind.text : HandlerKind → String
  | .plain => "Handler"
  | .null => "NullHandler"
  | .stream => "StreamHandler"
  | .standardError => "StandardErrorHandler"
  | .other name => name

structure Handler where
  /-- Tells handlers of one root apart. -/
  id : Nat := 0
  kind : HandlerKind
  level : Level := .notSet
  formatter : Option Formatter := none
  deriving Repr

def truth (b : Bool) : Tree := .scalar (.bool b)

def absent : Tree := .scalar .null

/-- A logger below the root.  Whether it is disabled and whether it passes lines on is kept as it
was declared; any value can stand for a truth value. -/
structure Logger where
  level : Level := .notSet
  disabled : Tree := truth false
  propagates : Tree := truth true
  deriving Repr

structure State where
  rootLevel : Level
  rootHandlers : List Handler
  loggers : List (Letters × Logger)
  distinct : (loggers.map (·.1)).Nodup
  /-- No logger lets a line up to this level through. -/
  cutoff : Int := 0
  /-- The names that levels can be written by. -/
  levels : List (Letters × Int) := Level.names ++ Level.synonyms
  deriving Repr

def packageName : Letters := "yaml_validator"

def reporterName : Letters := "yaml_validator.reporter"

/-- The logger of what is said on configurations. -/
def configName : Letters := "yaml_validator.config"

/-- The logger of what is said on backends. -/
def parsingName : Letters := "yaml_validator.parsing"

/-- The logger of what is said while logging is set up. -/
def setupName : Letters := "yaml_validator.logging_config"

/-- Whether a value stands for yes. -/
def holds : Tree → Bool
  | .scalar .null => false
  | .scalar (.bool b) => b
  | .scalar (.int i) => i != 0
  | .scalar (.float x _) => !x.eqInt 0
  | .scalar (.text s) => !s.isEmpty
  | .scalar (.bytes bs) => !bs.isEmpty
  | .scalar (.date _) | .scalar (.dateTime _) | .cycle _ | .deep => true
  | .tuple xs | .list xs | .set xs => !xs.isEmpty
  | .map es | .orderedMap es => !es.isEmpty

namespace State

def initial : State where
  rootLevel := .warning
  rootHandlers := []
  loggers := [packageName, reporterName, configName, parsingName, setupName].map fun n => (n, {})
  distinct := by decide

/-- A logger; one that nobody has mentioned is like a new one. -/
def logger (s : State) (name : Letters) : Logger :=
  ((s.loggers.find? (·.1 == name)).map (·.2)).getD {}

def putLogger (loggers : List (Letters × Logger)) (name : Letters) (l : Logger) :
    List (Letters × Logger) :=
  match loggers with
  | [] => [(name, l)]
  | e :: rest => if e.1 == name then (name, l) :: rest else e :: putLogger rest name l

theorem names_putLogger (loggers : List (Letters × Logger)) (name : Letters) (l : Logger) :
    (putLogger loggers name l).map (·.1) =
      if name ∈ loggers.map (·.1) then loggers.map (·.1) else loggers.map (·.1) ++ [name] := by
  induction loggers with
  | nil => rfl
  | cons e rest ih =>
      unfold putLogger
      by_cases he : e.1 = name
      · simp [he]
      · have hother : (e.1 == name) = false := by simpa using he
        simp only [hother, Bool.false_eq_true, if_false, List.map_cons, ih, List.mem_cons,
          Ne.symm he, false_or]
        split <;> rfl

theorem nodup_putLogger {loggers : List (Letters × Logger)} (h : (loggers.map (·.1)).Nodup)
    (name : Letters) (l : Logger) : ((putLogger loggers name l).map (·.1)).Nodup := by
  rw [names_putLogger]
  split
  · exact h
  · rename_i hnew
    refine List.nodup_append.mpr ⟨h, by simp, ?_⟩
    rintro a ha b hb rfl
    exact hnew (List.mem_singleton.mp hb ▸ ha)

/-- Changes a logger, which is made if it does not exist. -/
def modifyLogger (s : State) (name : Letters) (f : Logger → Logger) : State :=
  { s with
    loggers := putLogger s.loggers name (f (s.logger name))
    distinct := nodup_putLogger s.distinct name _ }

/-- Whether one logger is below another one. -/
def isBelow (name upper : Letters) : Bool := (upper ++ ".").list.isPrefixOf name.list

/-- The length of the longest name above a logger, whose level is set. -/
def nearest (s : State) (name : Letters) : List (Letters × Logger) → Option (Letters × Logger)
  | [] => none
  | e :: rest =>
    let best := nearest s name rest
    if isBelow name e.1 && e.2.level.number != 0 then
      match best with
      | some b => if b.1.list.length < e.1.list.length then some e else some b
      | none => some e
    else best

def effectiveLevel (s : State) (name : Letters) : Int :=
  let own := (s.logger name).level.number
  if own != 0 then own
  else match s.nearest name s.loggers with
    | some (_, l) => l.level.number
    | none => s.rootLevel.number

def isEnabled (s : State) (name : Letters) (level : Level) : Bool :=
  !holds (s.logger name).disabled && s.cutoff < level.number
    && s.effectiveLevel name ≤ level.number

def hostTemplate : String :=
  "%(asctime)s %(hostname)s %(name)s[%(process)d] %(levelname)s %(message)s"

/-- Lines from level INFO on go to the standard error stream. -/
def installed (s : State) : State :=
  { s with
    rootLevel := .info
    rootHandlers := s.rootHandlers ++ [{
      kind := .standardError
      level := .info
      formatter := some ⟨.basic, .scalar (.text hostTemplate),
        .scalar (.text "%Y-%m-%d %H:%M:%S")⟩ }] }

def fallbackTemplate : String := "%(levelname)s:%(name)s:%(message)s"

/-- The handler that the root is given if nothing better can be had. -/
def fallbackHandler : Handler where
  kind := .stream
  formatter := some ⟨.standard, .scalar (.text fallbackTemplate), absent⟩

/-- Sets the root up anew, unless a handler has stayed. -/
def fallback (s : State) : State :=
  if s.rootHandlers.isEmpty then
    { s with rootLevel := .info, rootHandlers := [fallbackHandler] }
  else s

def withoutHandler (s : State) (h : Handler) : State :=
  { s with rootHandlers := s.rootHandlers.eraseP (·.id == h.id) }

def withVerbosity (s : State) (verbose : Bool) : State :=
  s.modifyLogger packageName fun l => { l with level := if verbose then .debug else .info }

end State

end YamlCheck.Logging
