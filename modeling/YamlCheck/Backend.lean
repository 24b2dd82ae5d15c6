import YamlCheck.Failure
import YamlCheck.Yaml.Load

/-!
# Backends

A backend goes through the documents of a byte stream.  The checker only needs to know how many
there are and how they end, so that any way to read documents can stand in for another.
-/

namespace YamlCheck

open YamlCheck.Yaml

/-- How a byte stream went: the number of documents, and what stopped them before the end. -/
structure Passage where
  documents : Nat
  stop : Option Stop

abbrev Backend := Path → Duplicates → List UInt8 → Passage

namespace Backend

/-- How an error in a document of a file ends a passage: as a failure with its place if it is an
error of the document or of one of its values, by itself otherwise. -/
def stopOf (d : Dialect) (o : Origin) (file : Path) (e : LoadError) : Stop :=
  let incident : Incident := .document d o e
  match e with
  | .breakdown _ | .stalled => .incident incident
  | e =>
    let place (f : Mark → Nat) : Option Int := e.mark?.map fun m => Int.ofNat (f m + 1)
    .failure (.file (.malformed incident.text file (place Mark.line) (place Mark.column)
      (some incident)))

/-- The backend of a dialect; messages speak of a stream by the path of its file. -/
def ofDialect (limits : Limits) (d : Dialect) : Backend := fun file duplicates bytes =>
  let l := load limits d duplicates bytes
  ⟨l.documents.length, l.error.map (stopOf d { name := file.text } file)⟩

def ofName (limits : Limits) (name : String) : Except Incident Backend :=
  match Dialect.ofName? name with
  | some d => .ok (ofDialect limits d)
  | none => .error (.unknownParser name)

end Backend

end YamlCheck
