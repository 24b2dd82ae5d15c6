import YamlCheck.Logging.State

/-!
# What a declaration depends on

A declaration of logging names things that lie outside of it, and what these are, how a value is
read and what comes of calling something is not for this program to say.  A `World` gives the
answers.  Whatever is asked may run code from outside, so it may change the state of logging in any
way, also on the way to a flaw.
-/

namespace YamlCheck.Logging

open YamlCheck.Text YamlCheck.Yaml

/-- Why a declaration cannot be carried out. -/
inductive Flaw
  /-- A flaw of a kind that the setup of logging reckons with. -/
  | rejected (message : Letters)
  | missingKey (key : Tree)
  | missingItem (message : String)
  /-- A reference leads back to itself, or a value is nested too deeply to be shown. -/
  | endless
  /-- An error of any other kind that something outside has ended with. -/
  | foreign (kind : String) (message : Letters)
  /-- Something outside has asked for the whole program to end. -/
  | exit (kind : String) (message : Letters)
  deriving Repr

/-- Changes of the state of logging that may come upon a flaw. -/
abbrev Configure := ExceptT Flaw (StateM State)

/-- What has been made so far, by the keys that it was declared under, and the names that levels
can be written by. -/
structure Made where
  formatters : List (Tree × Formatter) := []
  filters : List (Tree × Unit) := []
  handlers : List (Tree × Handler) := []
  levels : List (Letters × Int)

/-- The part of a declaration that is about the root or about one of the other loggers. -/
inductive Part
  | root
  | logger (key : Tree)
  deriving Repr

/-- The version that a declaration gives itself. -/
inductive Version
  | missing
  | right
  | wrong (shown : Letters)
  deriving Repr

/-- The answers to what a declaration leaves open.  The first argument of a question is the value
that declares all. -/
structure World where
  limits : Limits
  /-- What comes of installing colours. -/
  install : Configure Unit
  /-- Whether a value is a declaration at all. -/
  accepts : Tree → Configure Unit
  version : Tree → Configure Version
  incremental : Tree → Configure Bool
  /-- What loggers that are not mentioned are to be marked with. -/
  disabling : Tree → Configure Tree
  /-- What comes of closing all handlers before new ones are made. -/
  clear : Configure Unit
  /-- The keys of the sections, in the order in which they are gone through. -/
  formatters : Tree → Made → Configure (List Tree)
  filters : Tree → Made → Configure (List Tree)
  handlers : Tree → Made → Configure (List Tree)
  loggers : Tree → Made → Configure (List Tree)
  /-- Whether there is a description of the root. -/
  root : Tree → Made → Configure Bool
  formatter : Tree → Made → Tree → Configure Formatter
  filter : Tree → Made → Tree → Configure Unit
  /-- A handler may have to wait for another one that has not been made. -/
  handler : Tree → Made → Tree → Configure (Option Handler)
  /-- Whether there is a value for a logger. -/
  described : Tree → Made → Tree → Configure Unit
  level : Tree → Made → Part → Configure (Option Level)
  /-- The handlers of a logger up to the first that cannot be found. -/
  handlersOf : Tree → Made → Part → Configure (List Handler × Option Flaw)
  filtersOf : Tree → Made → Part → Configure Unit
  propagates : Tree → Made → Part → Configure (Option Tree)
  /-- How a key is shown in a message. -/
  shown : Tree → Configure Letters
  /-- What comes of a line that the setup says and its logger lets through. -/
  line : Configure Unit
  /-- What comes of closing a handler of the root. -/
  close : Handler → Configure Unit

def textKey (key : Letters) : Tree := .scalar (.text key)

def isNull : Tree → Bool
  | .scalar .null => true
  | _ => false

/-- Whether two values are the same key. -/
def sameKey : Tree → Tree → Bool
  | .scalar a, .scalar b => a.same b
  | _, _ => false

namespace Made

def find? {α : Type} (made : List (Tree × α)) (key : Tree) : Option α :=
  (made.find? fun e => sameKey e.1 key).map (·.2)

end Made

end YamlCheck.Logging
