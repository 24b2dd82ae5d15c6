import YamlCheck.CommandLine.Execution

/-!
# The program

The outermost layer: it takes a picture of the part of the file system that the command line may
be about, executes the command line on the picture, and prints and writes what has come of it.
-/

namespace YamlCheck.Main

open YamlCheck.Text YamlCheck.CommandLine

/-- A picture of a part of the file system, and the places that have been looked at. -/
structure Picture where
  files : FileSystem
  seen : List String

/-- The target that a link is given if it leads nowhere: no file has such a name. -/
def nowhere : String := "\x00"

def mayBeRead (asked : List String) (place : String) : Bool :=
  let name := (Path.ofText place).name
  isYamlName name || name == Config.defaultFileName || asked.contains place

def Picture.put (p : Picture) (place : String) (n : Node) : Picture :=
  let names := (Path.ofText place).names
  match names.getLast?, p.files.makeDirectory ⟨.slash, names.dropLast⟩ with
  | some name, .ok files => { p with files := files.put names.dropLast name n }
  | _, _ => p

def Picture.open (p : Picture) (place : String) : Picture :=
  match p.files.makeDirectory (Path.ofText place) with
  | .ok files => { p with files := files }
  | .error _ => p

/-- The place that another one stands for, links followed, if there is something. -/
def realPlace? (place : String) : IO (Option String) := do
  try return some (← IO.FS.realPath place).toString catch _ => return none

partial def explore (asked : List String) (p : Picture) (place : String) : IO Picture := do
  if p.seen.contains place then return p
  let p := { p with seen := place :: p.seen }
  match ← realPlace? place with
  | none => return p.put place (.link nowhere)
  | some target =>
    if target != place then return ← explore asked (p.put place (.link target)) target
    let real ← IO.FS.realPath place
    match (← real.metadata).type with
    | .dir =>
      let p := p.open place
      let names ← try pure (some ((← real.readDir).map (·.fileName))) catch _ => pure none
      match names with
      | none => return p.put place (.directory { Mode.ofDirectory with read := false } [])
      | some names =>
        let below := if place == "/" then "/" else place ++ "/"
        names.foldlM (fun p name => explore asked p (below ++ name)) p
    | .file =>
      if mayBeRead asked place then
        let node ← try pure (Node.file .ofFile (← IO.FS.readBinFile place).toList)
          catch _ => pure (Node.file { Mode.ofFile with read := false } [])
        return p.put place node
      else return p.put place (.file .ofFile [])
    | _ => return p.put place (.pipe .ofFile)

/-- Looks at a place that is written in a directory, if there is something. -/
def exploreFrom (asked : List String) (directory : String) (p : Picture) (text : String) :
    IO Picture := do
  match ← realPlace? ((Path.ofText directory).join (Path.ofText text)).text with
  | some place => explore asked p place
  | none => return p

/-- The values that words may carry. -/
def valuesOf (words : List String) : List String :=
  words.flatMap fun word =>
    match splitEquals word.toList with
    | (_, some value) => [word, String.ofList value]
    | (_, none) => [word, String.ofList (word.toList.drop 2)]

def takePicture (directory : String) (words : List String) : IO Picture := do
  let values := valuesOf words
  let places ← values.filterMapM fun v =>
    realPlace? ((Path.ofText directory).join (Path.ofText v)).text
  let start : Picture := ⟨⟨.directory .ofDirectory []⟩, []⟩
  let p ← explore places start directory
  let p ← values.foldlM (exploreFrom places directory) p
  -- The search paths of a configuration file may lead elsewhere.
  let configs := (Path.ofText directory).child Config.defaultFileName :: places.map Path.ofText
  let searched := configs.flatMap fun c =>
    match (Config.load .usual p.files c).2 with
    | .ok c => c.searchPaths.filterMap Letters.text?
    | .error _ => []
  searched.foldlM (exploreFrom places directory) p

/-- Writes the file that a command line has made, if it has made one. -/
def writeMade (directory : String) (before after : FileSystem) : IO Unit := do
  let path := (Path.ofText directory).child Config.defaultFileName
  match before.read path, after.read path with
  | .error _, .ok bytes => IO.FS.writeBinFile path.text (ByteArray.mk bytes.toArray)
  | _, _ => return

end YamlCheck.Main

open YamlCheck in
def main (words : List String) : IO UInt32 := do
  let directory := (← IO.FS.realPath (← IO.currentDir)).toString
  let picture ← Main.takePicture directory words
  match CommandLine.execute .usual picture.files (Path.ofText directory).names words with
  | .error i =>
    IO.eprintln i.text.printed
    return 1
  | .ok o =>
    for (level, message) in o.log do
      IO.eprintln (level.text.printed ++ " " ++ message)
    Main.writeMade directory picture.files o.after
    IO.print o.out
    IO.eprint o.err
    return o.exitCode.toUInt32
