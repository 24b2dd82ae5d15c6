import YamlCheck.Proofs.Config.Loading
import YamlCheck.Proofs.Logging.Fallback

/-!
# What keeps logging from being set up

Nearly all that can be wrong with the file of a declaration leads to the fallback.  What does not
is a value of the file that its reader foresees as little as its author did, and a flaw that is met
outside of the parts of the declaration, or that nobody reckons with.  Each ends the setup as it
is, and the level of this program's loggers is not set then.
-/

namespace YamlCheck.Logging

open YamlCheck.Text YamlCheck.Yaml Configure

namespace SetUp

variable {w : World} {fs : FileSystem} {source : DeclarationSource} {s : State} {path : Path}

end SetUp

/-- The text in which a declaration is looked for, if it can be read. -/
def DeclarationSource.text? (fs : FileSystem) : DeclarationSource → Option (List Char)
  | .packaged => some packagedText
  | .file path =>
    match fs.isFile path, fs.read path with
    | .ok true, .ok bytes =>
      let d := Utf8.decode bytes
      if d.fault.isSome then none else some (Source.unifyLineEnds (d.chars.toList.map (·.1)))
    | _, _ => none

namespace SetUp

variable {w : World} {fs : FileSystem} {source : DeclarationSource} {s : State} {path : Path}

/-- The ways in which the setup is stopped by an incident: the program is to end while colours are
installed, or the file cannot be used and that is not reckoned with, or it is reckoned with and a
handler of the root cannot be closed for the fallback. -/
inductive Escapes (w : World) (fs : FileSystem) (source : DeclarationSource) (s : State) :
    Incident → Prop
  | installing {kind : String} {message : Letters} {s' : State}
      (run : (w.install *> announce w).run.run s = (.error (.exit kind message), s')) :
      Escapes w fs source s (.outside kind message)
  | unreckoned {i : Incident} {s' : State} (starts : (starting w s).1 = .ok ⟨⟩)
      (fails : Fails w fs source (starting w s).2.state i s')
      (unreckoned : complaint? source.path i = none) : Escapes w fs source s i
  | closing {i : Incident} {f : Flaw} {before left : State} (starts : (starting w s).1 = .ok ⟨⟩)
      (fails : Fails w fs source (starting w s).2.state i before)
      (reckoned : (complaint? source.path i).isSome)
      (run : (closeHandlers w before.rootHandlers).run.run before = (.error f, left)) :
      Escapes w fs source s f.incident

end SetUp

/-- A text that is tagged as a truth value and is none. -/
def unknownWord : List UInt8 := "!!bool x\n".toUTF8.toList

end YamlCheck.Logging
