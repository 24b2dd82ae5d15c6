import YamlCheck.Text.Quoted
import YamlCheck.Text.Similarity

/-!
# Arguments of a command

The words after a command are options, values of options and arguments.  A long option may carry
its value after an equals sign; short options may be run together, and what follows one that takes
a value is its value.  Two dashes end the options.
-/

namespace YamlCheck.CommandLine

open YamlCheck.Text

inductive Topic
  | help
  | version
  | recursive
  | allowDuplicates
  | parser
  | config
  | projectDir
  | verbose
  deriving Repr, DecidableEq

/-- What a spelling of an option does: it says yes or no, or it takes a value. -/
inductive Effect
  | sets (topic : Topic) (value : Bool)
  | takes (topic : Topic)
  deriving Repr, DecidableEq

inductive Setting
  | said (topic : Topic) (value : Bool)
  | taken (topic : Topic) (value : String)
  deriving Repr, DecidableEq

def Setting.topic : Setting → Topic
  | .said topic _ | .taken topic _ => topic

inductive UsageError
  | noSuchOption (word : String) (possible : List String)
  | noSuchCommand (name : String)
  | missingCommand
  | extraArguments (words : List String)
  | invalidValue (option text : String)
  /-- The last word is an option that wants a value. -/
  | noValue (word : String)
  /-- A value is given to an option that takes none. -/
  | unwantedValue (word : String)
  deriving Repr, DecidableEq

def insertText (text : String) : List String → List String
  | [] => [text]
  | t :: rest => if t < text then t :: insertText text rest else text :: t :: rest

def sortTexts (texts : List String) : List String := texts.foldr insertText []

namespace UsageError

def message : UsageError → String
  | .noSuchOption word _ => "No such option: " ++ word
  | .noSuchCommand name => "No such command " ++ quoted name ++ "."
  | .missingCommand => "Missing command."
  | .extraArguments words =>
    "Got unexpected extra argument(s) (" ++ " ".intercalate words ++ ")"
  | .invalidValue option text => "Invalid value for " ++ option ++ ": " ++ text
  | .noValue word => "Option " ++ quoted word ++ " requires an argument."
  | .unwantedValue word => "Option " ++ quoted word ++ " does not take a value."

def possibleText : UsageError → String
  | .noSuchOption _ (o :: os) =>
    " (Possible options: " ++ ", ".intercalate (sortTexts (o :: os)) ++ ")"
  | _ => ""

def messageWith (e : UsageError) (commands : List String) : String :=
  if commands.isEmpty then e.message
  else
    let kept := (e.message.toList.reverse.dropWhile (· == '.')).reverse
    let shown := commands.map fun command : String => quoted command
    String.ofList kept ++ ". Did you mean " ++ ", ".intercalate shown ++ "?"

def showsUsage : UsageError → Bool
  | .noValue _ | .unwantedValue _ => false
  | _ => true

end UsageError

/-- The spellings of a command's options, and whether options may follow arguments. -/
structure Grammar where
  long : List (String × Effect)
  short : List (Char × Effect)
  mixed : Bool

structure Invocation where
  settings : List Setting
  arguments : List String
  deriving Repr, DecidableEq

namespace Invocation

def withSetting (s : Setting) (g : Invocation) : Invocation :=
  { g with settings := s :: g.settings }

def withSettings (ss : List Setting) (g : Invocation) : Invocation :=
  { g with settings := ss ++ g.settings }

def withArgument (a : String) (g : Invocation) : Invocation :=
  { g with arguments := a :: g.arguments }

end Invocation

/-- The part of a word before the first equals sign, and the part after it if there is one. -/
def splitEquals : List Char → List Char × Option (List Char)
  | [] => ([], none)
  | '=' :: rest => ([], some rest)
  | c :: rest =>
    let (before, after) := splitEquals rest
    (c :: before, after)

/-- Short options that are run together: the settings they make, and the option that wants the
next word for its value. -/
def readShort (g : Grammar) : List Char → Except UsageError (List Setting × Option (Char × Topic))
  | [] => .ok ([], none)
  | c :: rest =>
    match g.short.find? (·.1 == c) with
    | none => .error (.noSuchOption (String.ofList ['-', c]) [])
    | some (_, .sets topic value) => do
      let (settings, wanting) ← readShort g rest
      return (.said topic value :: settings, wanting)
    | some (_, .takes topic) =>
      if rest.isEmpty then .ok ([], some (c, topic))
      else .ok ([.taken topic (String.ofList rest)], none)

def isOption (word : String) : Bool :=
  match word.toList with
  | '-' :: _ :: _ => true
  | _ => false

/-- What an option comes to: settings, or an option that takes the next word. -/
inductive Reading
  | settings (ss : List Setting)
  | wanting (before : List Setting) (topic : Topic) (word : String)

def readOption (g : Grammar) (word : String) : Except UsageError Reading :=
  let (name, value) := splitEquals word.toList
  let name := String.ofList name
  match g.long.find? (·.1 == name), value with
  | some (_, .sets topic b), none => .ok (.settings [.said topic b])
  | some (_, .sets ..), some _ => .error (.unwantedValue name)
  | some (_, .takes topic), some v => .ok (.settings [.taken topic (String.ofList v)])
  | some (_, .takes topic), none => .ok (.wanting [] topic name)
  | none, _ =>
    match word.toList with
    | '-' :: '-' :: _ => .error (.noSuchOption name (Similarity.closest name (g.long.map (·.1))))
    | _ =>
      match readShort g (word.toList.drop 1) with
      | .error e => .error e
      | .ok (before, some (c, topic)) => .ok (.wanting before topic (String.ofList ['-', c]))
      | .ok (before, none) => .ok (.settings before)

def readWords (g : Grammar) : List String → Except UsageError Invocation
  | [] => .ok ⟨[], []⟩
  | word :: rest =>
    if word == "--" then .ok ⟨[], rest⟩
    else if isOption word then
      match readOption g word with
      | .error e => .error e
      | .ok (.settings ss) => do return (← readWords g rest).withSettings ss
      | .ok (.wanting before topic name) =>
        match rest with
        | [] => .error (.noValue name)
        | value :: rest => do
          return ((← readWords g rest).withSetting (.taken topic value)).withSettings before
    else if g.mixed then do return (← readWords g rest).withArgument word
    else .ok ⟨[], word :: rest⟩

namespace Invocation

/-- The topics that were given, each once, in the order in which they first occur. -/
def topics (g : Invocation) : List Topic := (g.settings.map Setting.topic).eraseDups

/-- What was last said about a topic. -/
def said? (g : Invocation) (t : Topic) : Option Bool :=
  g.settings.reverse.findSome? fun
    | .said topic value => if topic == t then some value else none
    | _ => none

/-- The value that was last given for a topic. -/
def taken? (g : Invocation) (t : Topic) : Option String :=
  g.settings.reverse.findSome? fun
    | .taken topic value => if topic == t then some value else none
    | _ => none

end Invocation

end YamlCheck.CommandLine
