import YamlCheck.FileSystem.Lookup

/-!
# Canonical paths

The canonical form of a path names its object without links, `.` and `..`.  It is found by looking
at one name after the other and putting the canonical form of a link's target in its place; so `..`
after a link leads out of the directory that the link leads to.

The strict form wants every name to exist.  The lenient form takes what it cannot look at for an
ordinary name, and where a link leads back to itself it keeps the rest of the path as it is.
-/

namespace YamlCheck.FileSystem

inductive Tracing
  | done (loc : Location)
  /-- The link leads back to itself; what has become of the path so far are these pieces. -/
  | looping (link : Location) (pieces : List String)
  | refused (r : Refusal) (loc : Location)
  deriving Repr, DecidableEq

/-- The pieces of a path, and behind them those of another one.  If that starts with a slash then it
stands alone. -/
def joinPieces (pieces : List String) : List String → List String
  | "" :: piece :: rest => piece :: rest
  | rest => pieces ++ rest

def pathOf (loc : Location) : Path := ⟨.slash, loc⟩

/-- Traces the pieces of a path from a canonical location.  `into` traces the target of a link that
is not among the links `inside` whose targets are being traced already. -/
def traceWith (fs : FileSystem) (strict : Bool)
    (into : List Location → Location → List String → Tracing) (inside : List Location) :
    Location → List String → Tracing
  | loc, [] => .done loc
  | loc, piece :: rest =>
    if !Path.isName piece then traceWith fs strict into inside loc rest
    else if piece == ".." then traceWith fs strict into inside loc.dropLast rest
    else
      let here := loc ++ [piece]
      match fs.lookUp false (pathOf here) with
      | .error r =>
        if strict || r == .nulInName then .refused r here
        else traceWith fs strict into inside here rest
      | .ok (.link target) =>
        if inside.contains here then .looping here (joinPieces here rest)
        else match into (here :: inside) (startOf loc target) (Path.allPieces target.toList) with
          | .done loc => traceWith fs strict into inside loc rest
          | .looping link pieces => .looping link (joinPieces pieces rest)
          | .refused r loc => .refused r loc
      | .ok _ => traceWith fs strict into inside here rest

def traceIn (fs : FileSystem) (strict : Bool) :
    Nat → List Location → Location → List String → Tracing
  | 0 => traceWith fs strict fun inside _ _ => .looping (inside.headD []) []
  | links + 1 => traceWith fs strict (traceIn fs strict links)

/-- Traces the pieces of a path.  No more links can lie inside each other than there are. -/
def trace (fs : FileSystem) (strict : Bool) (loc : Location) (pieces : List String) : Tracing :=
  fs.traceIn strict (fs.root.countLinks + linkLimit) [] loc pieces

/-- Drops `.` and goes back for `..`, without looking at anything. -/
def tidy : Location → List String → Location
  | loc, [] => loc
  | loc, piece :: rest =>
    if !Path.isName piece then tidy loc rest
    else if piece == ".." then tidy loc.dropLast rest
    else tidy (loc ++ [piece]) rest

def canonical (fs : FileSystem) (p : Path) : Except (Refusal × Location) Location :=
  match fs.trace true [] p.names with
  | .done loc => .ok loc
  | .refused r loc => .error (r, loc)
  | .looping link _ =>
    match fs.lookUp true (pathOf link) with
    | .error r => .error (r, link)
    | .ok _ => .error (.tooManyLinks, link)

/-- The canonical form, as far as there is one, of a path that is written in a directory. -/
def canonicalFrom (fs : FileSystem) (directory : Location) (text : String) :
    Except Refusal Location :=
  match fs.trace false (startOf directory text) (Path.allPieces text.toList) with
  | .done loc => .ok loc
  | .refused r _ => .error r
  | .looping _ pieces => .ok (tidy [] pieces)

end YamlCheck.FileSystem
