import YamlCheck.CommandLine.Arguments

/-!
# Commands and their help

The spellings of all options and the texts that explain them.
-/

namespace YamlCheck.CommandLine

inductive Command
  | whole
  | run
  | init
  deriving Repr, DecidableEq

namespace Command

def ofName? : String → Option Command
  | "run" => some .run
  | "init" => some .init
  | _ => none

def names : List String := ["run", "init"]

def path : Command → String
  | .whole => "yamlv"
  | .run => "yamlv run"
  | .init => "yamlv init"

def usage : Command → String
  | .whole => "Usage: yamlv [OPTIONS] COMMAND [ARGS]..."
  | .run => "Usage: yamlv run [OPTIONS] [search_paths]..."
  | .init => "Usage: yamlv init [OPTIONS]"

def grammar : Command → Grammar
  | .whole => {
      long := [("--version", .sets .version true), ("--help", .sets .help true)]
      short := [('v', .sets .version true)]
      mixed := false }
  | .run => {
      long := [
        ("--recursive", .sets .recursive true), ("--no-recursive", .sets .recursive false),
        ("--allow-duplicates", .sets .allowDuplicates true),
        ("--no-allow-duplicates", .sets .allowDuplicates false),
        ("--parser", .takes .parser), ("--config", .takes .config),
        ("--project-dir", .takes .projectDir), ("--verbose", .sets .verbose true),
        ("--help", .sets .help true)]
      short := [('r', .sets .recursive true), ('c', .takes .config), ('d', .takes .projectDir)]
      mixed := true }
  | .init => {
      long := [("--help", .sets .help true)]
      short := []
      mixed := true }

/-- The lines of a command's help below its usage. -/
def helpLines : Command → List String
  | .whole => [
    "  Checks that configured files and directories contain only syntactically valid",
    "  YAML.",
    "",
    "Options:",
    "  -v, --version  Show the application's version and exit.",
    "  --help         Show this message and exit.",
    "",
    "Commands:",
    "  run   Validates every .yaml/.yml file found on the search paths and stops...",
    "  init  Writes a default configuration file into the current directory."]
  | .run => [
    "  Validates every .yaml/.yml file found on the search paths and stops at the",
    "  first failure.",
    "",
    "Arguments:",
    "  search_paths... <list[str]>  Files or directories to validate. Defaults to the",
    "                               configured searchPaths, or 'src/main/resources/'.",
    "",
    "Options:",
    "  -r, --recursive / --no-recursive",
    "                                  Search directories recursively. Overrides",
    "                                  searchRecursive from the config file.",
    "  --allow-duplicates / --no-allow-duplicates",
    "                                  Tolerate repeated mapping keys. Overrides",
    "                                  allowDuplicates from the config file.",
    "  --parser <pyyaml|ruamel>        YAML parser backend to use.",
    "  -c, --config <file>             Path to a YAML configuration file. Defaults to",
    "                                  '.yamlvalidator.yaml' in the project directory",
    "                                  if present.",
    "  -d, --project-dir <dir>         Base directory for relative search paths.",
    "                                  Defaults to the current directory.",
    "  --verbose                       Show debug logging.",
    "  --help                          Show this message and exit."]
  | .init => [
    "  Writes a default configuration file into the current directory. Leaves an",
    "  existing file untouched.",
    "",
    "Options:",
    "  --help  Show this message and exit."]

def help (c : Command) : String :=
  "\n".intercalate (c.usage :: "" :: c.helpLines) ++ "\n"

def complaint (c : Command) (e : UsageError) (commands : List String) : String :=
  (if e.showsUsage then
    c.usage ++ "\nTry '" ++ c.path ++ " --help' for help.\n\n"
  else "") ++ "Error: " ++ e.messageWith commands ++ e.possibleText ++ "\n"

end Command

def versionText : String := "yamlv version: 0.1.0\n"

end YamlCheck.CommandLine
