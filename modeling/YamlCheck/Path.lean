/-!
# Paths

A path is a root and a list of names.  Reading a path drops empty names and `.`, so two texts
that differ only in repeated or trailing slashes are one path; `..` is kept, for it cannot be
dropped without looking at the file system.
-/

namespace YamlCheck

inductive Root
  /-- At a directory that is given elsewhere. -/
  | here
  | slash
  /-- Exactly two slashes, which are kept apart from one. -/
  | twoSlashes
  deriving Repr, DecidableEq

structure Path where
  root : Root
  names : List String
  deriving Repr, DecidableEq

def Root.text : Root → String
  | .here => ""
  | .slash => "/"
  | .twoSlashes => "//"

namespace Path

/-- The pieces of a text between slashes: the first one and the others. -/
def pieces : List Char → List Char × List (List Char)
  | [] => ([], [])
  | c :: rest =>
    let (first, others) := pieces rest
    if c == '/' then ([], first :: others) else (c :: first, others)

def allPieces (text : List Char) : List String :=
  let (first, others) := pieces text
  (first :: others).map String.ofList

def isName (piece : String) : Bool := piece != "" && piece != "."

/-- Where a path with this text starts: three slashes or more count as one. -/
def rootOf : List Char → Root
  | '/' :: '/' :: '/' :: _ => .slash
  | '/' :: '/' :: _ => .twoSlashes
  | '/' :: _ => .slash
  | _ => .here

def ofText (text : String) : Path :=
  ⟨rootOf text.toList, (allPieces text.toList).filter isName⟩

/-- The written form of a path; a path without root and names is the directory itself. -/
def text (p : Path) : String :=
  match p.root, p.names with
  | .here, [] => "."
  | r, ns => r.text ++ "/".intercalate ns

def isAbsolute (p : Path) : Bool := p.root != .here

/-- A path as seen from a directory: an absolute one stays what it is. -/
def join (directory p : Path) : Path :=
  if p.isAbsolute then p else { directory with names := directory.names ++ p.names }

def child (directory : Path) (name : String) : Path :=
  { directory with names := directory.names ++ [name] }

def name (p : Path) : String := p.names.getLast?.getD ""

/-- What paths are compared by: the names from the outermost on, led by the root. -/
def sortKey (p : Path) : List String :=
  match p.root with
  | .here => p.names
  | r => r.text :: p.names

/-- The order of two texts by the codes of their characters. -/
def textBefore : List Char → List Char → Bool
  | _, [] => false
  | [], _ :: _ => true
  | a :: as, b :: bs => a < b || (a == b && textBefore as bs)

def namesBefore : List String → List String → Bool
  | _, [] => false
  | [], _ :: _ => true
  | a :: as, b :: bs => textBefore a.toList b.toList || (a == b && namesBefore as bs)

def before (p q : Path) : Bool := namesBefore p.sortKey q.sortKey

/-- Puts a path into a sorted list, before those that it is not after. -/
def insert (p : Path) : List Path → List Path
  | [] => [p]
  | q :: rest => if q.before p then q :: insert p rest else p :: q :: rest

def sort : List Path → List Path
  | [] => []
  | p :: rest => insert p (sort rest)

end Path

end YamlCheck
