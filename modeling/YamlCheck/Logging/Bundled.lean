import YamlCheck.Logging.Reference
import YamlCheck.Path

/-!
# A world with little in it

A declaration is a mapping that says how to log.  Here it is answered from what declarations are
usually made of: handlers that write to streams, formatters and filters.  Nothing else can be
imported, and colours can be installed.
-/

namespace YamlCheck.Logging

open YamlCheck.Text YamlCheck.Yaml

def items? : Tree → Option (List Tree)
  | .list ts | .tuple ts | .set ts => some ts
  | .map es | .orderedMap es => some (es.map (·.1))
  | .scalar (.text s) => some (letterKeys s)
  | .scalar (.bytes bs) => some (bs.map fun b => .scalar (.int b.toNat))
  | _ => none

def withoutItems (t : Tree) : Flaw :=
  .rejected ("'" ++ typeName t ++ "' object is not iterable")

def stands : Referent → Bool
  | .value t => holds t
  | .outside _ => true

namespace Formatter

/-- A formatter, if the style is known and the template has a field.  A template that is not to be
looked at may be any value. -/
def make? (k : FormatterKind) (template date style : Tree) (strict : Bool) : Option Formatter := do
  let s ← match style with
    | .scalar (.text mark) => mark.text?.bind Style.ofMark?
    | _ => none
  let otherwise := if k == .coloured then State.hostTemplate else s.default
  let isValid (text : Letters) : Bool := Template.isValid s (String.ofList text.faces)
  match if holds template then template else textKey otherwise, k with
  | .scalar (.text text), .coloured =>
    let text := (text.text?.map fun plain => (Template.coloured s plain : Letters)).getD text
    if isValid text then some ⟨k, textKey text, date⟩ else none
  | .scalar (.text text), _ =>
    if !strict || isValid text then some ⟨k, textKey text, date⟩ else none
  | _, .coloured => none
  | t, _ => if strict then none else some ⟨k, t, date⟩

end Formatter

structure Declaration where
  entries : List (Tree × Tree)

inductive Listing
  | entries (es : List (Tree × Tree))
  /-- Names with nothing behind them. -/
  | bare (names : List Tree)

def isKey : Tree → Bool
  | .scalar _ | .tuple _ => true
  | _ => false

/-- The entries that a row of pairs stands for; `i` pairs have been passed. -/
def pairs (i : Nat) : List Tree → Except Flaw (List (Tree × Tree))
  | [] => .ok []
  | t :: rest =>
    let element := "dictionary update sequence element #" ++ toString i
    match items? t with
    | none => .error (.rejected ("cannot convert " ++ element ++ " to a sequence"))
    | some [k, v] =>
      if isKey k then (pairs (i + 1) rest).map ((k, v) :: ·)
      else .error (.rejected ("unhashable type: '" ++ typeName k ++ "'"))
    | some ts =>
      .error (.rejected (element ++ " has length " ++ toString ts.length ++ "; 2 is required"))

def incomparable (a b : Tree) : Flaw :=
  .rejected ("'<' not supported between instances of '" ++ typeName a ++ "' and '"
    ++ typeName b ++ "'")

def lettersBefore (s t : Letters) : Bool := s.list.map Letter.code < t.list.map Letter.code

def nameBefore (a b : Tree) : Except Flaw Bool :=
  let number? : Tree → Option Int
    | .scalar (.int i) => some i
    | .scalar (.bool b) => some (Scalar.intOfBool b)
    | _ => none
  match a, b, number? a, number? b with
  | .scalar (.text s), .scalar (.text t), _, _ => .ok (lettersBefore s t)
  | _, _, some i, some j => .ok (i < j)
  | _, _, _, _ => .error (incomparable a b)

/-- Puts a name into a sorted list, behind those that it is not before. -/
def insertByName (name : Tree) : List Tree → Except Flaw (List Tree)
  | [] => .ok [name]
  | other :: rest => do
    if ← nameBefore name other then return name :: other :: rest
    else return other :: (← insertByName name rest)

def sortByName (names : List Tree) : Except Flaw (List Tree) :=
  names.foldlM (fun sorted name => insertByName name sorted) []

namespace Declaration

/-- The declaration that a value is: a mapping, or pairs in a row. -/
def ofTree (t : Tree) : Except Flaw Declaration :=
  match t with
  | .map es | .orderedMap es => .ok ⟨es⟩
  | t =>
    match items? t with
    | some ts => (pairs 0 ts).map Declaration.mk
    | none => .error (withoutItems t)

def read (d : Declaration) (t : Tree) : Except Flaw Referent :=
  replace d.entries referenceLimit t

def get? (d : Declaration) (key : String) : Except Flaw (Option Referent) :=
  match lookUp? d.entries (textKey key) with
  | some t => (d.read t).map some
  | none => .ok none

def without (d : Declaration) (key : String) : Declaration :=
  ⟨d.entries.filter fun e => !sameKey e.1 (textKey key)⟩

def isIncremental (d : Declaration) : Except Flaw Bool := do
  return ((← d.get? "incremental").map stands).getD false

/-- A declaration without what has been taken out of it before its sections are looked at. -/
def remaining (d : Declaration) : Except Flaw Declaration := do
  let rest := d.without "incremental"
  return if ← d.isIncremental then rest else rest.without "disable_existing_loggers"

/-- The listing under a key; one that is not there is empty. -/
def listing (d : Declaration) (key : String) : Except Flaw Listing := do
  match ← d.get? key with
  | none => return .entries []
  | some (.value (.map es)) | some (.value (.orderedMap es)) => return .entries es
  | some (.value t) =>
    match items? t with
    | some ts => return .bare ts
    | none => throw (withoutItems t)
  | some (.outside _) => throw (.rejected "'type' object is not iterable")

def namesOf (d : Declaration) (key : String) : Except Flaw (List Tree) :=
  (d.listing key).map fun
    | .entries es => es.map (·.1)
    | .bare names => names

/-- What a listing has under a name. -/
def entry (d : Declaration) (key : String) (name : Tree) : Except Flaw Referent := do
  match ← d.listing key with
  | .entries es =>
    match lookUp? es name with
    | some t => d.read t
    | none => throw (.missingKey name)
  | .bare _ => throw (.rejected "object is not subscriptable")

def mapping? : Referent → Option (List (Tree × Tree))
  | .value (.map es) | .value (.orderedMap es) => some es
  | _ => none

/-- The value of a key among some entries; a key that is not there has a null. -/
def part? (d : Declaration) (es : List (Tree × Tree)) (key : String) : Option Referent :=
  match lookUp? es (textKey key) with
  | none => some (.value absent)
  | some t => (d.read t).toOption

def valuePart? (d : Declaration) (es : List (Tree × Tree)) (key : String) : Option Tree :=
  match d.part? es key with
  | some (.value t) => some t
  | _ => none

def has (es : List (Tree × Tree)) (key : String) : Bool := (lookUp? es (textKey key)).isSome

def isAllowed (d : Declaration) (allowed : List Letters) (e : Tree × Tree) : Bool :=
  match e.1 with
  | .scalar (.text key) => allowed.contains key && (d.read e.2).toOption.isSome
  | _ => false

/-- Whether all keys are allowed, besides that of the maker and that of further attributes. -/
def areAllowed (d : Declaration) (allowed : List String) (es : List (Tree × Tree)) : Bool :=
  es.all fun e => d.isAllowed ((["()", "."] ++ allowed).map Letters.ofText) e

def named? : Referent → Option Outside
  | .value (.scalar (.text name)) => (Outside.resolve name).toOption
  | _ => none

def maker? (d : Declaration) (es : List (Tree × Tree)) : Option Outside := do
  match ← d.part? es "()" with
  | .outside o => some o
  | r => named? r

/-- Whether further attributes are a mapping, or nothing. -/
def attributesFit (d : Declaration) (es : List (Tree × Tree)) : Bool :=
  match d.part? es "." with
  | some (.value (.map _)) => true
  | some r => !stands r
  | none => false

/-- Whether a value is a mapping, or nothing. -/
def isMappingOrNull (d : Declaration) (t : Tree) : Bool :=
  isNull t || ((d.read t).toOption.bind mapping?).isSome

def customFormatter? (d : Declaration) (es : List (Tree × Tree)) : Option Formatter := do
  let k ← match ← d.maker? es with
    | .formatter k => some k
    | _ => none
  let own := if k == .coloured then ["level_styles", "field_styles"] else ["validate", "defaults"]
  let allowed := ["fmt", "format", "datefmt", "style"] ++ own
  if !d.areAllowed allowed es || !d.attributesFit es then none
  let template ← d.valuePart? es (if has es "format" then "format" else "fmt")
  let style ← if has es "style" then d.valuePart? es "style" else some (textKey "%")
  let strict ← if has es "validate" then (d.part? es "validate").map stands else some true
  if !d.isMappingOrNull (← d.valuePart? es "level_styles") then none
  if isNull (← d.valuePart? es "field_styles") then
    Formatter.make? k template (← d.valuePart? es "datefmt") style strict
  else none

/-- A formatter of a class; the class is the standard one if none is given. -/
def classFormatter? (d : Declaration) (es : List (Tree × Tree)) : Option Formatter := do
  let named ← d.part? es "class"
  let k ← if stands named then
      match named? named with
      | some (.formatter k) => some k
      | _ => none
    else some .standard
  let style ← if has es "style" then d.valuePart? es "style" else some (textKey "%")
  let strict ← if has es "validate" then (d.part? es "validate").map stands else some true
  if k == .coloured && !d.isMappingOrNull (← d.valuePart? es "validate") then none
  Formatter.make? k (← d.valuePart? es "format") (← d.valuePart? es "datefmt") style strict

def formatter? (d : Declaration) (r : Referent) : Option Formatter := do
  let es ← mapping? r
  if has es "()" then d.customFormatter? es else d.classFormatter? es

def filter? (d : Declaration) (r : Referent) : Option Unit := do
  let es ← mapping? r
  if has es "()" then
    match ← d.maker? es with
    | .filter => if !d.areAllowed ["name"] es || !d.attributesFit es then none
    | _ => none
  if has es "name" then
    let name ← d.valuePart? es "name"
    if (items? name).isNone then none

/-- The names in a value; none in a value that stands for no. -/
def chosen? (r : Referent) : Option (List Tree) :=
  if !stands r then some []
  else match r with
    | .value t => items? t
    | .outside _ => none

/-- The level that a value denotes, if it is not a null. -/
def level? (made : Made) : Referent → Option (Option Level)
  | .value t => if isNull t then some none else (Level.ofTree? made.levels t).map some
  | .outside _ => none

def handler? (d : Declaration) (made : Made) (r : Referent) : Option Handler := do
  let es ← mapping? r
  let k ← match if has es "()" then d.maker? es else (d.part? es "class").bind named? with
    | some (.handler k) => some k
    | _ => none
  let shared := ["formatter", "level", "filters"] ++ if has es "()" then [] else ["class"]
  let own := if k == .stream then ["stream"] else []
  if !d.areAllowed (shared ++ own) es || !d.attributesFit es then none
  let name ← d.part? es "formatter"
  let formatter ← if !stands name then some none else
    match name with
    | .value name => (Made.find? made.formatters name).map some
    | .outside _ => none
  let level ← level? made (← d.part? es "level")
  let filters ← chosen? (← d.part? es "filters")
  if filters.all fun name => (Made.find? made.filters name).isSome then
    some ⟨made.handlers.length + 1, k, level.getD .notSet, formatter⟩
  else none

/-- The entries of the root or of another logger. -/
def entriesOf (d : Declaration) (part : Part) : Except Flaw (List (Tree × Tree)) := do
  let r ← match part with
    | .root => pure ((← d.get? "root").getD (.value absent))
    | .logger key => d.entry "loggers" key
  match mapping? r with
  | some es => return es
  | none => throw (.rejected "object has no attribute 'get'")

end Declaration

/-- A flaw whose kind is of no interest, since it is reported as a whole. -/
def orFlaw {α : Type} : Option α → Except Flaw α
  | some a => .ok a
  | none => .error (.rejected "")

/-- Adds the handlers with some names to others, up to the first that was not made. -/
def addHandlers (made : Made) (added : List Tree) : List Tree → List Handler × Option Flaw
  | [] => ([], none)
  | name :: rest =>
    match Made.find? made.handlers name with
    | none => ([], some (.rejected "Unable to add handler"))
    | some h =>
      let (hs, missing) := addHandlers made (name :: added) rest
      (if added.any (sameKey name) then hs else h :: hs, missing)

/-- The text of a value within a longer text: as it is displayed or as it is.  A tuple is taken for
a list of values to be written into that text. -/
def formatted (limits : Limits) (show? : Tree → Except LoadError Letters) (t : Tree) :
    Except Flaw Letters :=
  let text (t : Tree) : Except Flaw Letters :=
    match show? (t.cut (limits.showing + 1)) with
    | .ok s => .ok s
    | .error (.badValue f) => .error (.rejected f.text)
    | .error _ => .error .endless
  match t with
  | .tuple [v] => text v
  | .tuple [] => .error (.rejected "not enough arguments for format string")
  | .tuple _ => .error (.rejected "not all arguments converted during string formatting")
  | t => text t

def displayed (t : Tree) : Except LoadError Letters := t.display.map Letters.ofText

def plainly : Tree → Except LoadError Letters
  | .scalar s => s.plainText
  | t => displayed t

def versionOf (limits : Limits) (d : Declaration) : Except Flaw Version := do
  match ← d.get? "version" with
  | none => return .missing
  | some (.value t) =>
    if sameKey t (.scalar (.int 1)) then return .right
    else return .wrong (← formatted limits plainly t)
  | some (.outside _) => return .wrong "<class 'type'>"

def disablingOf (d : Declaration) : Except Flaw Tree := do
  match ← (d.without "incremental").get? "disable_existing_loggers" with
  | some (.value t) => return t
  | _ => return truth true

def propagatesOf (d : Declaration) (part : Part) : Except Flaw (Option Tree) := do
  match ← orFlaw (d.part? (← d.entriesOf part) "propagate") with
  | .value t => return if isNull t then none else some t
  | .outside _ => return some (truth true)

/-- A line that gets to a handler which does nothing by itself is an error. -/
def sayLine : Configure Unit := do
  let s ← get
  let passes := holds (s.logger setupName).propagates && holds (s.logger packageName).propagates
  let isIdle (h : Handler) : Bool := h.kind == .plain && h.level.number ≤ Level.debug.number
  if passes && s.rootHandlers.any isIdle then
    throw (.foreign "NotImplementedError" "emit must be implemented by Handler subclasses")

/-- The answer to a question that changes nothing. -/
def answered {α : Type} (e : Except Flaw α) : Configure α := ExceptT.mk (pure e)

namespace World

/-- A question on what remains of a declaration. -/
def asked {α : Type} (t : Tree) (question : Declaration → Except Flaw α) : Configure α :=
  answered do question (← (← Declaration.ofTree t).remaining)

def bundled (limits : Limits) : World where
  limits := limits
  install := modify State.installed
  accepts t := answered do let _ ← Declaration.ofTree t
  version t := answered do versionOf limits (← Declaration.ofTree t)
  incremental t := answered do (← Declaration.ofTree t).isIncremental
  disabling t := answered do disablingOf (← Declaration.ofTree t)
  clear := pure ()
  formatters t _ := asked t fun d => d.namesOf "formatters"
  filters t _ := asked t fun d => d.namesOf "filters"
  handlers t _ := answered do
    let d ← Declaration.ofTree t
    let names ← (← d.remaining).namesOf "handlers"
    if ← d.isIncremental then return names else sortByName names
  loggers t _ := asked t fun d => d.namesOf "loggers"
  root t _ := asked t fun d => do return ((← d.get? "root").map stands).getD false
  formatter t _ key := asked t fun d => do orFlaw (d.formatter? (← d.entry "formatters" key))
  filter t _ key := asked t fun d => do orFlaw (d.filter? (← d.entry "filters" key))
  handler t made key := asked t fun d => do
    return some (← orFlaw (d.handler? made (← d.entry "handlers" key)))
  described t _ key := asked t fun d => do let _ ← d.entry "loggers" key
  level t made part := asked t fun d => do
    orFlaw ((d.part? (← d.entriesOf part) "level").bind (Declaration.level? made))
  handlersOf t made part := asked t fun d => do
    let names ← orFlaw ((d.part? (← d.entriesOf part) "handlers").bind Declaration.chosen?)
    return addHandlers made [] names
  filtersOf t made part := asked t fun d => do
    let names ← orFlaw ((d.part? (← d.entriesOf part) "filters").bind Declaration.chosen?)
    let _ ← names.mapM fun name => orFlaw (Made.find? made.filters name)
  propagates t _ part := asked t fun d => propagatesOf d part
  shown key := answered (formatted limits displayed key)
  line := sayLine
  close _ := pure ()

end World

end YamlCheck.Logging
