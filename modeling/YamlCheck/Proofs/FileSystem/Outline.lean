import YamlCheck.Proofs.FileSystem.Tracing

/-!
# Outlines

The outline of a file system is what remains of it if the bytes of its files are forgotten.  No
request but the reading of a file depends on more than the outline.
-/

namespace YamlCheck

namespace Node

mutual

/-- A tree without the bytes of its files. -/
def outline : Node → Node
  | .file mode _ => .file mode []
  | .directory mode entries => .directory mode (outlineIn entries)
  | .link target => .link target
  | .pipe mode => .pipe mode

def outlineIn : List (String × Node) → List (String × Node)
  | [] => []
  | (name, n) :: rest => (name, outline n) :: outlineIn rest

end

theorem entryNamed?_outlineIn (entries : List (String × Node)) (name : String) :
    entryNamed? (outlineIn entries) name = (entryNamed? entries name).map outline := by
  induction entries with
  | nil => rfl
  | cons e rest ih =>
      rw [outlineIn, entryNamed?_cons, entryNamed?_cons, ih]
      split <;> rfl

theorem map_fst_outlineIn (entries : List (String × Node)) :
    (outlineIn entries).map (·.1) = entries.map (·.1) := by
  induction entries with
  | nil => rfl
  | cons e rest ih => rw [outlineIn, List.map_cons, List.map_cons, ih]

theorem get?_outline (n : Node) (loc : Location) :
    n.outline.get? loc = (n.get? loc).map outline := by
  induction loc generalizing n with
  | nil => simp [get?]
  | cons name loc ih =>
      cases n with
      | directory mode entries =>
          simp only [outline, get?, entryNamed?_outlineIn]
          cases entryNamed? entries name with
          | none => rfl
          | some m => exact ih m
      | _ => rfl

@[simp] theorem isDirectory_outline (n : Node) : n.outline.isDirectory = n.isDirectory := by
  cases n <;> rfl

@[simp] theorem isFile_outline (n : Node) : n.outline.isFile = n.isFile := by
  cases n <;> rfl

theorem outlineIn_eq_map (entries : List (String × Node)) :
    outlineIn entries = entries.map fun e => (e.1, e.2.outline) := by
  induction entries with
  | nil => rfl
  | cons e rest ih => rw [outlineIn, ih, List.map_cons]

/-! ## Changing the bytes of a file -/

theorem outlineIn_putEntry {entries : List (String × Node)} {name : String} {n m : Node}
    (h : entryNamed? entries name = some n) (hm : m.outline = n.outline) :
    outlineIn (putEntry entries name m) = outlineIn entries := by
  induction entries with
  | nil => simp [entryNamed?] at h
  | cons e rest ih =>
      rw [entryNamed?_cons] at h
      by_cases hname : e.1 = name
      · rw [if_pos hname] at h
        cases h
        simp [putEntry, hname, outlineIn, hm]
      · rw [if_neg hname] at h
        simp [putEntry, hname, outlineIn, ih h]

theorem entryNamed?_putEntry (entries : List (String × Node)) (name other : String) (n : Node) :
    entryNamed? (putEntry entries name n) other =
      if name = other then some n else entryNamed? entries other := by
  induction entries with
  | nil => simp only [putEntry, entryNamed?_cons]
  | cons e rest ih =>
      rw [putEntry]
      by_cases hname : e.1 = name
      · simp only [hname, beq_self_eq_true, ↓reduceIte, entryNamed?_cons]
        split <;> rfl
      · simp only [beq_iff_eq, hname, ↓reduceIte, entryNamed?_cons, ih]
        by_cases hother : name = other
        · subst hother
          simp [hname]
        · simp [hother]

/-- A change below an entry, seen through the names. -/
theorem entryNamed?_map (entries : List (String × Node)) (name other : String) (f : Node → Node) :
    entryNamed? (entries.map fun e => if e.1 == name then (e.1, f e.2) else e) other =
      (entryNamed? entries other).map (if other = name then f else id) := by
  induction entries with
  | nil => rfl
  | cons e rest ih =>
      rw [List.map_cons, entryNamed?_cons, entryNamed?_cons, ih]
      by_cases hname : e.1 = name <;> by_cases hother : e.1 = other
      · simp [hname, hother ▸ hname]
      · simp [hname, hname ▸ hother]
      · simp [hother, hother ▸ hname]
      · simp [hname, hother]

section Changing

variable {name : String} {mode : Mode} {bytes bytes' : List UInt8}

/-- Other bytes in one file leave the outline as it is. -/
theorem outline_changeEntries {n : Node} {directory : Location} (hn : n.wellFormed = true)
    (h : n.get? (directory ++ [name]) = some (.file mode bytes)) :
    (n.changeEntries (fun es => putEntry es name (.file mode bytes')) directory).outline =
      n.outline := by
  induction directory generalizing n with
  | nil =>
      cases n with
      | directory m entries =>
          simp only [List.nil_append, get?] at h
          cases hentry : entryNamed? entries name with
          | none => simp [hentry] at h
          | some found =>
              obtain rfl : found = .file mode bytes := by simpa [hentry] using h
              have hput := outlineIn_putEntry hentry (show outline (.file mode bytes') = _ from rfl)
              simp only [changeEntries, outline, hput]
      | _ => simp [get?] at h
  | cons first rest ih =>
      cases n with
      | directory m entries =>
          have hentries : wellFormedIn entries = true := by simpa [wellFormed] using hn
          simp only [List.cons_append, get?] at h
          cases hentry : entryNamed? entries first with
          | none => simp [hentry] at h
          | some found =>
              simp only [hentry] at h
              have hfound := wellFormed_of_mem hentries (mem_of_entryNamed? hentry)
              have hsame := ih hfound.2 h
              simp only [changeEntries, outline, outlineIn_eq_map, List.map_map]
              congr 1
              apply List.map_congr_left
              intro e he
              by_cases hfirst : e.1 = first
              · -- The names are different, so this is the entry that the location leads to.
                have hself := entryNamed?_eq_of_mem hentries he
                rw [hfirst, hentry] at hself
                cases hself
                simp [hfirst, hsame]
              · simp [hfirst]
      | _ => simp [get?] at h

/-- Other bytes in one file leave the bytes of all others as they are. -/
theorem get?_changeEntries {n : Node} {directory loc : Location} {mode' : Mode}
    {others : List UInt8} (h : n.get? (directory ++ [name]) = some (.file mode bytes))
    (hloc : loc ≠ directory ++ [name]) (hother : n.get? loc = some (.file mode' others)) :
    (n.changeEntries (fun es => putEntry es name (.file mode bytes')) directory).get? loc =
      some (.file mode' others) := by
  induction directory generalizing n loc with
  | nil =>
      cases n with
      | directory m entries =>
          cases loc with
          | nil => simp [get?] at hother
          | cons first rest =>
              simp only [List.nil_append, get?, changeEntries, entryNamed?_putEntry] at h hother ⊢
              by_cases hname : name = first
              · -- Below a file there is nothing.
                subst hname
                cases hentry : entryNamed? entries name with
                | none => simp [hentry] at h
                | some found =>
                    obtain rfl : found = .file mode bytes := by simpa [hentry] using h
                    cases rest with
                    | nil => exact absurd rfl hloc
                    | cons next rest => simp [hentry, get?] at hother
              · simp only [if_neg hname]
                exact hother
      | _ => simp [get?] at h
  | cons first rest ih =>
      cases n with
      | directory m entries =>
          cases loc with
          | nil => simp [get?] at hother
          | cons step loc =>
              have hmap := entryNamed?_map entries first step fun below =>
                changeEntries (fun es => putEntry es name (.file mode bytes')) below rest
              simp only [List.cons_append, get?, changeEntries] at h hother ⊢
              rw [hmap]
              by_cases hstep : step = first
              · subst hstep
                cases hentry : entryNamed? entries step with
                | none => simp [hentry] at h
                | some found =>
                    simp only [hentry, ↓reduceIte, Option.map_some] at h hother ⊢
                    exact ih h (fun heq => hloc (by rw [heq, List.cons_append])) hother
              · simp only [if_neg hstep, Option.map_id, id]
                exact hother
      | _ => simp [get?] at h

end Changing

mutual

theorem countLinks_outline (n : Node) : n.outline.countLinks = n.countLinks := by
  cases n with
  | directory mode entries =>
      simp only [outline, countLinks]
      exact countLinksIn_outlineIn entries
  | _ => rfl

theorem countLinksIn_outlineIn (entries : List (String × Node)) :
    countLinksIn (outlineIn entries) = countLinksIn entries := by
  match entries with
  | [] => rfl
  | (name, n) :: rest =>
      simp only [outlineIn, countLinksIn]
      rw [countLinks_outline n, countLinksIn_outlineIn rest]

end

end Node

namespace FileSystem

open Node

def outline (fs : FileSystem) : FileSystem := ⟨fs.root.outline⟩

variable (fs : FileSystem)

theorem node?_outline (loc : Location) : fs.outline.node? loc = (fs.node? loc).map Node.outline :=
  get?_outline fs.root loc

theorem turn_outline (loc : Location) (piece : String) :
    fs.outline.turn loc piece = fs.turn loc piece := by
  unfold turn
  rw [node?_outline]
  cases fs.node? loc with
  | none => rfl
  | some n =>
      cases n with
      | directory mode entries =>
          simp only [Option.map_some, Node.outline, entryNamed?_outlineIn]
          cases entryNamed? entries piece with
          | none => rfl
          | some m => cases m <;> rfl
      | _ => rfl

theorem locate_outline (followLast : Bool) (p : Path) :
    fs.outline.locate followLast p = fs.locate followLast p :=
  locate_congr fs.turn_outline followLast p

theorem lookUp_outline (followLast : Bool) (p : Path) :
    fs.outline.lookUp followLast p = (fs.lookUp followLast p).map Node.outline := by
  simp only [lookUp, locate_outline, node?_outline, bind, Except.bind]
  cases fs.locate followLast p with
  | error r => rfl
  | ok loc =>
      cases hnode : fs.node? loc <;>
        simp only [hnode, Except.map, Option.map_none, Option.map_some]

/-- Two file systems that are the same but for the bytes of the file at a location. -/
structure DifferOnlyAt (fs fs' : FileSystem) (f : Location) : Prop where
  outline : fs'.outline = fs.outline
  bytes : ∀ loc ≠ f, ∀ mode bytes, fs.node? loc = some (.file mode bytes) →
    fs'.node? loc = some (.file mode bytes)

/-- Writing other bytes into a file makes no other difference. -/
theorem differOnlyAt_replace {fs : FileSystem} (hfs : fs.WellFormed) {f : Location} {mode : Mode}
    {bytes : List UInt8} (hf : fs.node? f = some (.file mode bytes)) (bytes' : List UInt8) :
    DifferOnlyAt fs (fs.replace f (.file mode bytes')) f := by
  rcases List.eq_nil_or_concat' f with rfl | ⟨directory, name, rfl⟩
  · have hroot : fs.root = .file mode bytes := by simpa [node?, get?] using hf
    refine ⟨by simp [replace, outline, hroot, Node.outline], fun loc hloc m b hb => ?_⟩
    cases loc with
    | nil => exact absurd rfl hloc
    | cons first rest => simp [node?, hroot, get?] at hb
  · have hreplace : fs.replace (directory ++ [name]) (.file mode bytes') =
        fs.put directory name (.file mode bytes') := by simp [replace]
    rw [hreplace]
    refine ⟨?_, fun loc hloc m b hb => get?_changeEntries hf hloc hb⟩
    exact congrArg FileSystem.mk (outline_changeEntries hfs hf)

/-! ## Kinds and listings -/

theorem isKind_outline {kind : Node → Bool} (h : ∀ n, kind n.outline = kind n) (p : Path) :
    fs.outline.isKind kind p = fs.isKind kind p := by
  unfold isKind
  rw [lookUp_outline]
  cases fs.lookUp true p with
  | error r => rfl
  | ok n => simp only [Except.map, h]

theorem isDirectory_outline (p : Path) : fs.outline.isDirectory p = fs.isDirectory p :=
  fs.isKind_outline Node.isDirectory_outline p

theorem isFile_outline (p : Path) : fs.outline.isFile p = fs.isFile p :=
  fs.isKind_outline Node.isFile_outline p

theorem isYaml_outline (p : Path) : fs.outline.isYaml p = fs.isYaml p := by
  simp only [isYaml, isDirectory_outline]

theorem list_outline (p : Path) : fs.outline.list p = fs.list p := by
  simp only [list, lookUp_outline, bind, Except.bind]
  cases fs.lookUp true p with
  | error r => rfl
  | ok n =>
      cases n with
      | directory mode entries => simp only [Except.map, Node.outline, map_fst_outlineIn]
      | _ => rfl

mutual

theorem below_outline (p : Path) (n : Node) : below p n.outline = below p n := by
  cases n with
  | directory mode entries =>
      simp only [Node.outline, below]
      rw [belowEntries_outlineIn p mode.search entries]
  | _ => rfl

theorem belowEntries_outlineIn (p : Path) (searchable : Bool) (entries : List (String × Node)) :
    belowEntries p searchable (outlineIn entries) = belowEntries p searchable entries := by
  match entries with
  | [] => rfl
  | (name, .directory mode es) :: rest =>
      have hinner := below_outline (p.child name) (.directory mode es)
      simp only [Node.outline] at hinner
      simp only [outlineIn, Node.outline, belowEntries]
      rw [hinner, belowEntries_outlineIn p searchable rest]
  | (name, .file mode bytes) :: rest =>
      simp only [outlineIn, Node.outline, belowEntries]
      rw [belowEntries_outlineIn p searchable rest]
  | (name, .link target) :: rest =>
      simp only [outlineIn, Node.outline, belowEntries]
      rw [belowEntries_outlineIn p searchable rest]
  | (name, .pipe mode) :: rest =>
      simp only [outlineIn, Node.outline, belowEntries]
      rw [belowEntries_outlineIn p searchable rest]

end

theorem listAll_outline (p : Path) : fs.outline.listAll p = fs.listAll p := by
  simp only [listAll, lookUp_outline]
  cases fs.lookUp true p with
  | error r => rfl
  | ok n => exact below_outline p n

theorem candidates_outline (directory : Path) (recursive : Bool) :
    fs.outline.candidates directory recursive = fs.candidates directory recursive := by
  simp only [candidates, listAll_outline, list_outline]

theorem ofCandidates_outline (ps : List Path) :
    Discovered.ofCandidates fs.outline ps = Discovered.ofCandidates fs ps := by
  induction ps with
  | nil => rfl
  | cons p rest ih => simp only [Discovered.ofCandidates, isYaml_outline, ih]

theorem discover_outline (directory : Path) (recursive : Bool) :
    fs.outline.discover directory recursive = fs.discover directory recursive := by
  simp only [discover, candidates_outline, ofCandidates_outline]

/-! ## Resolving -/

theorem traceWith_outline (strict : Bool)
    (into : List Location → Location → List String → Tracing) (inside : List Location)
    (loc : Location) (pieces : List String) :
    fs.outline.traceWith strict into inside loc pieces =
      fs.traceWith strict into inside loc pieces := by
  induction pieces generalizing loc with
  | nil => rw [traceWith, traceWith]
  | cons piece rest ih =>
      rw [traceWith, traceWith]
      simp only [lookUp_outline, ih]
      cases fs.lookUp false (pathOf (loc ++ [piece])) with
      | error r => rfl
      | ok n => cases n <;> rfl

theorem traceIn_outline (strict : Bool) (levels : Nat) :
    fs.outline.traceIn strict levels = fs.traceIn strict levels := by
  induction levels with
  | zero =>
      funext inside loc pieces
      exact fs.traceWith_outline ..
  | succ levels ih =>
      funext inside loc pieces
      rw [traceIn, traceIn, ih]
      exact fs.traceWith_outline ..

theorem canonical_outline (p : Path) : fs.outline.canonical p = fs.canonical p := by
  have hcount : fs.outline.root.countLinks = fs.root.countLinks := countLinks_outline fs.root
  simp only [canonical, trace, traceIn_outline, hcount, lookUp_outline]
  cases fs.traceIn true (fs.root.countLinks + linkLimit) [] [] p.names with
  | looping link pieces =>
      cases hlook : fs.lookUp true (pathOf link) <;> simp only [hlook, Except.map]
  | _ => rfl

theorem oddityStop_outline (path candidate : Text.Letters) (loc : Location) (odd : Oddity) :
    fs.outline.oddityStop path candidate loc odd = fs.oddityStop path candidate loc odd := by
  cases odd with
  | unencodable start stop first => rfl
  | foreign size piece =>
    simp only [oddityStop, lookUp_outline]
    cases fs.lookUp false ((pathOf loc).child (standIn size piece)) <;> rfl

theorem resolve_outline (path : Text.Letters) (directory : Path) :
    fs.outline.resolve path directory = fs.resolve path directory := by
  simp only [resolve, canonical_outline, oddityStop_outline]

end FileSystem

end YamlCheck
