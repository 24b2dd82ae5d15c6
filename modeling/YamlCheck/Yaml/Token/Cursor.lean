import YamlCheck.Yaml.Source
import YamlCheck.Yaml.Token

/-!
# Reading characters

A reader stands at a place in a source and keeps what is needed to turn characters into tokens.
Here are its movements: looking at a character, stepping over characters, and taking a run of
them.  Looking beyond the readable characters raises the fault of the source, or shows the end.
-/

namespace YamlCheck.Yaml

/-- A token that may turn out to be the key of a mapping once a colon follows it. -/
structure CandidateKey where
  /-- How many brackets are open around it. -/
  depth : Nat
  /-- Its number among all tokens. -/
  number : Nat
  /-- Whether nothing but a key is possible here. -/
  required : Bool
  mark : Mark
  deriving Repr, DecidableEq

inductive Bracket
  | sequence
  | mapping
  deriving Repr, DecidableEq

structure Reader where
  dialect : Dialect
  /-- What stands behind the readable characters. -/
  fault : Option ReadFault
  rest : List Char
  /-- More than the number of characters in the source, which bounds every loop over them. -/
  bound : Nat
  mark : Mark := ⟨0, 0, 0⟩
  /-- The version that the last directive named. -/
  version : Option Version := none
  pending : List Token := []
  taken : Nat := 0
  ended : Bool := false
  /-- The open brackets, innermost first. -/
  brackets : List Bracket := []
  /-- The indentation of the innermost block collection, or -1. -/
  indent : Int := -1
  /-- The indentations around it, innermost first. -/
  outerIndents : List Int := []
  candidates : List CandidateKey := []
  keyAllowed : Bool := true
  deriving Repr

abbrev Scan := StateT Reader (Except LoadError)

namespace Reader

def inFlow (r : Reader) : Bool := !r.brackets.isEmpty

def rules (r : Reader) : Version := r.version.getD .v12

def oldRules (r : Reader) : Bool := r.dialect == .classic || r.rules == .v11

def markAfter (d : Dialect) (m : Mark) (c next : Char) : Mark :=
  if d.countsLine c next then ⟨m.index + 1, m.line + 1, 0⟩
  else if c.toNat == 0xfeff then { m with index := m.index + 1 }
  else { m with index := m.index + 1, column := m.column + 1 }

def markAfterMany (d : Dialect) : Nat → Mark → List Char → Mark
  | n + 1, m, c :: rest => markAfterMany d n (markAfter d m c (rest.headD endChar)) rest
  | _, m, _ => m

end Reader

namespace Scan

def fail {α : Type} (e : LoadError) : Scan α := throw e

def complain {α : Type} (context : Option (Context × Mark)) (p : Problem) : Scan α := do
  let r ← get
  fail (.complaint .scanning {
    context := context.map (·.1), contextMark := context.map (·.2),
    problem := some p, problemMark := some r.mark })

/-- Makes sure that `n` characters can be looked at, if the source has so many. -/
def need (n : Nat) : Scan Unit := do
  let r ← get
  match r.fault with
  | none => return ()
  | some f => if r.rest.length < n then fail (.unreadable f) else return ()

def peek (k : Nat) : Scan Char := do
  let r ← get
  match r.rest[k]?, r.fault with
  | some c, _ => return c
  | none, none => return endChar
  | none, some f => fail (.unreadable f)

def look (n : Nat) : Scan (List Char) := do
  need n
  return (← get).rest.take n

def skip (n : Nat) : Scan Unit := do
  need (n + 1)
  modify fun r => { r with
    rest := r.rest.drop n, mark := Reader.markAfterMany r.dialect n r.mark r.rest }

def here : Scan Mark := return (← get).mark

/-- A bound on the rounds of a loop each of which takes a character. -/
def fuelLeft : Scan Nat := return (← get).bound

/-- Takes characters as long as they satisfy `p`, which the end must not. -/
def takeRun (p : Char → Bool) : Scan (List Char) := do
  let run := (← get).rest.takeWhile p
  need (run.length + 1)
  skip run.length
  return run

def skipRun (p : Char → Bool) : Scan Unit := do
  let _ ← takeRun p

/-- Steps over a line break, if there is one, and gives the break that it stands for. -/
def lineBreak : Scan (Option Char) := do
  let c ← peek 0
  if c == '\r' || c == '\n' || isNextLine c then
    if (← look 2) == ['\r', '\n'] then skip 2 else skip 1
    return some '\n'
  else if isSeparator c then
    skip 1
    return some c
  else return none

/-- Whether the next three characters are `marker` and end a word. -/
def atMarker (marker : List Char) : Scan Bool := do
  if (← look 3) == marker then
    return (← get).dialect.endsWord (← peek 3)
  else return false

/-- Whether three hyphens or three points that stand alone come next. -/
def atSeparator : Scan Bool := do
  if ← atMarker ['-', '-', '-'] then return true else atMarker ['.', '.', '.']

def skipComment : Scan Unit := do
  if (← peek 0) == '#' then
    let d := (← get).dialect
    skipRun fun c => !d.endsLine c

/-- Steps over the spaces, the comment and the break that may end a line of markup. -/
def finishLine (context : Context) (start : Mark) : Scan Unit := do
  skipRun (· == ' ')
  skipComment
  let c ← peek 0
  if !(← get).dialect.endsLine c then complain (some (context, start)) (.expectedLineEnd c)
  let _ ← lineBreak

end Scan

end YamlCheck.Yaml
