import YamlCheck.Text.Quoted

/-!
# Errors of the operating system

What the operating system says when it refuses a request: a code, its wording and the file it is
about, as far as they are known.
-/

namespace YamlCheck

open YamlCheck.Text

inductive SystemError
  /-- A report that has no code. -/
  | note (text : String)
  | coded (code : Option Int) (wording : Option String) (file : Option Letters)
  deriving Repr, DecidableEq

namespace SystemError

/-- How a part of a report is shown that is not known. -/
def unknown : String := "None"

def text : SystemError → String
  | .note t => t
  | .coded code wording file =>
    "[Errno " ++ (code.map toString).getD unknown ++ "] " ++ wording.getD unknown
      ++ match file with
        | some f => ": " ++ quoted f
        | none => ""

/-- The wording alone, or the whole report if there is none. -/
def reason (e : SystemError) : String :=
  match e with
  | .coded _ (some w) _ => if w == "" then e.text else w
  | _ => e.text

def file? : SystemError → Option Letters
  | .note _ => none
  | .coded _ _ file => file

end SystemError

end YamlCheck
