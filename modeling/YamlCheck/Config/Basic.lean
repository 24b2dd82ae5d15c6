import YamlCheck.Text.Quoted
import YamlCheck.Yaml.Dialect

/-!
# Configurations

What a run is told to do.  A setting has two spellings: its name, and the key that configuration
files use.
-/

namespace YamlCheck

open YamlCheck.Text YamlCheck.Yaml

structure Config where
  searchPaths : List Letters := ["src/main/resources/"]
  searchRecursive : Bool := false
  allowDuplicates : Bool := false
  parser : Dialect := .classic
  deriving Repr, DecidableEq

inductive Field
  | searchPaths
  | searchRecursive
  | allowDuplicates
  | parser
  deriving Repr, DecidableEq

namespace Field

def name : Field → String
  | .searchPaths => "search_paths"
  | .searchRecursive => "search_recursive"
  | .allowDuplicates => "allow_duplicates"
  | .parser => "parser"

/-- The spelling that is looked up first. -/
def fileKey : Field → String
  | .searchPaths => "searchPaths"
  | .searchRecursive => "searchRecursive"
  | .allowDuplicates => "allowDuplicates"
  | .parser => "parser"

/-- The settings in the order in which they are read. -/
def all : List Field := [.searchPaths, .searchRecursive, .allowDuplicates, .parser]

end Field

namespace Config

def truthText (b : Bool) : String := if b then "True" else "False"

def text (c : Config) : String :=
  "search_paths=[" ++ ", ".intercalate (c.searchPaths.map quoted) ++ "] search_recursive="
    ++ truthText c.searchRecursive ++ " allow_duplicates=" ++ truthText c.allowDuplicates
    ++ " parser=" ++ quoted c.parser.name

end Config

end YamlCheck
