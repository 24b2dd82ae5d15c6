import YamlCheck.Path

/-!
# Progress lines

What a run says while it goes on.
-/

namespace YamlCheck

inductive Report
  | startingDirectory (directory : Path) (recursive : Bool)
  | startingFile (file : Path)
  /-- One more document is fine; documents are counted from one. -/
  | documentSuccess (index : Nat) (file : Path)
  | fileSuccess (file : Path)
  deriving Repr, DecidableEq

def Report.text : Report → String
  | .startingDirectory directory recursive =>
    "Starting validation of YAML files in directory '" ++ directory.text ++ "'"
      ++ (if recursive then " recursively." else ".")
  | .startingFile file => "Starting validation of YAML file '" ++ file.text ++ "'."
  | .documentSuccess index file =>
    "Validation of document #" ++ toString index ++ " in file " ++ file.text ++ " successful."
  | .fileSuccess file => "Validation of YAML file '" ++ file.text ++ "' successful."

def failureText (file : Path) : String :=
  "Validation of YAML file '" ++ file.text ++ "' failed."

end YamlCheck
