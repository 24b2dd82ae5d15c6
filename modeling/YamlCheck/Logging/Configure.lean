import YamlCheck.Logging.World

/-!
# Carrying out declarations

A declaration says how to log: formatters, filters, handlers that use them, loggers that use the
handlers, and the root.  It is carried out in this order.  What has been changed before a flaw is
found stays changed.
-/

namespace YamlCheck.Logging.Configure

open YamlCheck.Text YamlCheck.Yaml

variable (w : World) (t : Tree)

/-- Reports any flaw as the one that `flaw` comes to; the wish to end the program is no flaw. -/
def attempt {α : Type} (flaw : Configure Flaw) (act : Configure α) : Configure α :=
  tryCatch act fun
    | .exit kind message => throw (.exit kind message)
    | _ => do throw (← flaw)

/-- The flaw of something under a key. -/
def unable (what : String) (key : Tree) : Configure Flaw :=
  return .rejected ("Unable to configure " ++ what ++ " " ++ (← w.shown key))

def makeFormatters (made : Made) : List Tree → Configure Made
  | [] => return made
  | key :: rest => do
    let f ← attempt (unable w "formatter" key) (w.formatter t made key)
    makeFormatters { made with formatters := made.formatters ++ [(key, f)] } rest

def makeFilters (made : Made) : List Tree → Configure Made
  | [] => return made
  | key :: rest => do
    attempt (unable w "filter" key) (w.filter t made key)
    makeFilters { made with filters := made.filters ++ [(key, ())] } rest

/-- Makes handlers, and tells which ones wait for others. -/
def makeHandlers (made : Made) (waiting : List Tree) : List Tree → Configure (Made × List Tree)
  | [] => return (made, waiting)
  | key :: rest => do
    match ← attempt (unable w "handler" key) (w.handler t made key) with
    | some h => makeHandlers { made with handlers := made.handlers ++ [(key, h)] } waiting rest
    | none => makeHandlers made (waiting ++ [key]) rest

/-- Makes the handlers that have waited; they cannot wait again. -/
def makeWaiting (made : Made) : List Tree → Configure Made
  | [] => return made
  | key :: rest => do
    match ← attempt (unable w "handler" key) (w.handler t made key) with
    | some h => makeWaiting { made with handlers := made.handlers ++ [(key, h)] } rest
    | none => throw (← unable w "handler" key)

inductive Target
  | root
  | logger (name : Letters)
  deriving Repr, DecidableEq

/-- The logger with a name; the root answers to no name and to its own. -/
def Target.ofName? (key : Tree) : Option Target :=
  match key with
  | .scalar (.text s) => if s.isEmpty || s == "root" then some .root else some (.logger s)
  | t => if holds t then none else some .root

def setLevel (target : Target) (l : Level) : Configure Unit :=
  modify fun s => match target with
    | .root => { s with rootLevel := l }
    | .logger name => s.modifyLogger name fun x => { x with level := l }

/-- Changes the handlers of the root; those of other loggers are not kept track of. -/
def changeHandlers (target : Target) (change : List Handler → List Handler) : Configure Unit :=
  modify fun s => match target with
    | .root => { s with rootHandlers := change s.rootHandlers }
    | .logger _ => s

/-- What the root and other loggers have in common. -/
def common (made : Made) (target : Target) (part : Part) (incremental : Bool) :
    Configure Unit := do
  if let some l := ← w.level t made part then setLevel target l
  if !incremental then
    changeHandlers target fun _ => []
    let (hs, missing) ← w.handlersOf t made part
    changeHandlers target (· ++ hs)
    if let some f := missing then throw f
    w.filtersOf t made part

def configureLogger (made : Made) (incremental : Bool) (key : Tree) : Configure Unit :=
  attempt (unable w "logger" key) do
    w.described t made key
    match Target.ofName? key with
    | none => throw (.rejected "A logger name must be a string")
    | some .root =>
      common w t made .root (.logger key) incremental
      let _ ← w.propagates t made (.logger key)
    | some (.logger name) =>
      modify fun s => s.modifyLogger name id
      common w t made (.logger name) (.logger key) incremental
      modify fun s => s.modifyLogger name fun l => { l with disabled := truth false }
      if let some p := ← w.propagates t made (.logger key) then
        modify fun s => s.modifyLogger name fun l => { l with propagates := p }

/-- The loggers that were there before and have not been mentioned, and those of them that were
below one that has been. -/
structure Survey where
  unmentioned : List Letters
  below : List Letters := []

def Survey.mention (s : Survey) (key : Tree) : Survey :=
  match key with
  | .scalar (.text name) =>
    if s.unmentioned.contains name then
      { unmentioned := s.unmentioned.filter (· != name)
        below := s.below ++ s.unmentioned.filter fun other => State.isBelow other name }
    else s
  | _ => s

/-- What becomes of the loggers that were not mentioned: one below a logger that was mentioned
starts afresh, any other is marked. -/
def Survey.settle (s : Survey) (mark : Tree) (state : State) : State :=
  s.unmentioned.foldl (fun state name => state.modifyLogger name fun l =>
    if s.below.contains name then { l with level := .notSet, propagates := truth true }
    else { l with disabled := mark }) state

def configureRoot (made : Made) (incremental : Bool) : Configure Unit := do
  if ← w.root t made then
    attempt (pure (.rejected "Unable to configure root logger"))
      (common w t made .root .root incremental)

/-- What is settled before any logger is configured. -/
structure Plan where
  made : Made
  /-- The loggers that were there before. -/
  present : List Letters
  /-- The keys of the loggers that are described. -/
  keys : List Tree
  /-- What loggers that are not mentioned are marked with, unless they are left alone. -/
  mark : Option Tree

/-- Whether nothing but levels and passing on is to be changed. -/
def Plan.isIncrement (p : Plan) : Bool := p.mark.isNone

def planIncrement : Configure Plan := do
  let made : Made := { levels := (← get).levels }
  if let key :: _ := ← w.handlers t made then
    throw (.rejected ("No handler found with name " ++ (← w.shown key)))
  return { made := made, present := [], keys := ← w.loggers t made, mark := none }

/-- Makes formatters, filters and handlers. -/
def makeAll : Configure Made := do
  let nothing : Made := { levels := (← get).levels }
  let made ← makeFormatters w t nothing (← w.formatters t nothing)
  let made ← makeFilters w t made (← w.filters t made)
  let (made, waiting) ← makeHandlers w t made [] (← w.handlers t made)
  let made ← makeWaiting w t made waiting
  return { made with levels := (← get).levels }

def planRenewal : Configure Plan := do
  let mark ← w.disabling t
  w.clear
  let made ← makeAll w t
  return {
    made := made, present := (← get).loggers.map (·.1), keys := ← w.loggers t made
    mark := some mark }

def checkVersion : Configure Unit := do
  match ← w.version t with
  | .missing => throw (.rejected "dictionary doesn't specify a version")
  | .right => pure ()
  | .wrong shown => throw (.rejected ("Unsupported version: " ++ shown))

/-- All of a declaration but its loggers and its root. -/
def plan : Configure Plan := do
  w.accepts t
  checkVersion w t
  if ← w.incremental t then planIncrement w t else planRenewal w t

def Plan.survey (p : Plan) : Survey := p.keys.foldl Survey.mention { unmentioned := p.present }

def Plan.settle (p : Plan) (state : State) : State :=
  match p.mark with
  | some mark => p.survey.settle mark state
  | none => state

/-- Configures the loggers, settles what becomes of the others, and configures the root. -/
def carryOutPlan (p : Plan) : Configure Unit := do
  p.keys.forM (configureLogger w t p.made p.isIncrement)
  modify p.settle
  configureRoot w t p.made p.isIncrement

def carryOut : Configure Unit := do carryOutPlan w t (← plan w t)

end YamlCheck.Logging.Configure
