import YamlCheck.Proofs.FileSystem.Gained
import YamlCheck.Proofs.Run.Explicit
import YamlCheck.Proofs.Run.Verdict

/-!
# Runs after one more file

A run that has come to its end comes to its end again after a file is added to the file system, if
the backend has nothing against the file and its path is not too long: every search path is resolved
to the same path, and whatever has been accepted is accepted again.
-/

namespace YamlCheck

namespace FileSystem.Gains

open Node YamlCheck.Path

variable {fs fs' : FileSystem} {place : Location} {name : String} {bytes : List UInt8}

/-! ## Tracing -/

/-- A tracing that has come to a location comes to it again, if so do those of links' targets. -/
theorem traceWith_done (h : Gains fs fs' place name bytes)
    {into into' : List Location → Location → List String → Tracing}
    (hinto : ∀ inside start pieces stop, into inside start pieces = .done stop →
      into' inside start pieces = .done stop)
    {inside : List Location} {loc stop : Location} {pieces : List String}
    (hdone : fs.traceWith true into inside loc pieces = .done stop) :
    fs'.traceWith true into' inside loc pieces = .done stop := by
  induction pieces generalizing loc with
  | nil =>
      rw [traceWith_nil] at hdone ⊢
      exact hdone
  | cons piece rest ih =>
      rcases piece_cases piece with hidle | rfl | hplain
      · rw [traceWith_idle hidle] at hdone ⊢
        exact ih hdone
      · rw [traceWith_up] at hdone ⊢
        exact ih hdone
      rw [traceWith_plain hplain] at hdone ⊢
      cases hlook : fs.lookUp false (pathOf (loc ++ [piece])) with
      | error r => simp [hlook] at hdone
      | ok n =>
          obtain ⟨n', hlook', hkin⟩ := h.lookUp_eq_ok hlook
          rw [hlook] at hdone
          rw [hlook']
          cases hkin with
          | directory => exact ih hdone
          | same =>
              cases n with
              | link target =>
                  simp only [traceLink] at hdone ⊢
                  split at hdone
                  · cases hdone
                  rename_i hout
                  rw [if_neg hout]
                  cases htarget : into ((loc ++ [piece]) :: inside) (startOf loc target)
                      (allPieces target.toList) with
                  | done mid =>
                      rw [htarget] at hdone
                      rw [hinto _ _ _ _ htarget]
                      exact ih hdone
                  | looping link pieces => simp [htarget] at hdone
                  | refused r loc => simp [htarget] at hdone
              | _ => exact ih hdone

theorem traceIn_done (h : Gains fs fs' place name bytes) (levels : Nat) {inside : List Location}
    {loc stop : Location} {pieces : List String}
    (hdone : fs.traceIn true levels inside loc pieces = .done stop) :
    fs'.traceIn true levels inside loc pieces = .done stop := by
  induction levels generalizing inside loc stop pieces with
  | zero =>
      rw [traceIn_eq_traceWith] at hdone ⊢
      exact h.traceWith_done (fun _ _ _ _ hloop => hloop) hdone
  | succ levels ih =>
      rw [traceIn_eq_traceWith] at hdone ⊢
      exact h.traceWith_done (fun _ _ _ _ => ih) hdone

theorem canonical_eq_ok (h : Gains fs fs' place name bytes) {p : Path} {loc : Location}
    (hp : fs.canonical p = .ok loc) : fs'.canonical p = .ok loc := by
  unfold canonical trace at hp ⊢
  rw [h.links]
  cases htrace : fs.traceIn true (fs.root.countLinks + linkLimit) [] [] p.names with
  | done stop =>
      rw [htrace] at hp
      rw [h.traceIn_done _ htrace]
      exact hp
  | refused r stop => simp [htrace] at hp
  | looping link pieces =>
      simp only [htrace] at hp
      split at hp <;> cases hp

theorem resolve_eq_ok (h : Gains fs fs' place name bytes) {path : Text.Letters} {directory p : Path}
    (hp : fs.resolve path directory = .ok p) : fs'.resolve path directory = .ok p := by
  obtain ⟨loc, rfl, -, hwhole, hcanonical⟩ := FileSystem.resolve_eq_ok hp
  exact resolve_of_canonical hwhole (h.canonical_eq_ok hcanonical)

/-- A lenient tracing takes no notice of the new file: an ordinary name is passed whether it is
there or not. -/
theorem traceWith_lenient (h : Gains fs fs' place name bytes)
    (into : List Location → Location → List String → Tracing) (inside : List Location)
    (loc : Location) (pieces : List String) :
    fs'.traceWith false into inside loc pieces = fs.traceWith false into inside loc pieces := by
  induction pieces generalizing loc with
  | nil => rfl
  | cons piece rest ih =>
      unfold traceWith
      split
      · exact ih loc
      split
      · exact ih _
      dsimp only
      have hsees := h.lookUp_sees false (pathOf (loc ++ [piece]))
      generalize fs.lookUp false (pathOf (loc ++ [piece])) = r at hsees ⊢
      generalize fs'.lookUp false (pathOf (loc ++ [piece])) = r' at hsees ⊢
      cases hsees with
      | @kin n _ hkin =>
          cases hkin with
          | directory => exact ih _
          | same =>
              cases n with
              | link target => simp only [ih]
              | _ => exact ih _
      | refused r => simp only [ih]
      | found => exact ih _
      | beyond => exact ih _

theorem traceIn_lenient (h : Gains fs fs' place name bytes) (levels : Nat) :
    fs'.traceIn false levels = fs.traceIn false levels := by
  induction levels with
  | zero => exact funext fun _ => funext fun _ => funext fun _ => h.traceWith_lenient _ _ _ _
  | succ levels ih =>
      rw [traceIn, traceIn, ih]
      exact funext fun _ => funext fun _ => funext fun _ => h.traceWith_lenient _ _ _ _

theorem canonicalFrom_eq (h : Gains fs fs' place name bytes) (directory : Location)
    (text : String) : fs'.canonicalFrom directory text = fs.canonicalFrom directory text := by
  unfold canonicalFrom trace
  rw [h.links, h.traceIn_lenient]

/-! ## Directories -/

/-- A directory that could be listed can be listed, and has no other entries than it had, but for
the new file. -/
theorem list_eq_ok (h : Gains fs fs' place name bytes) {d : Path} {names : List String}
    (hd : fs.list d = .ok names) :
    ∃ names', fs'.list d = .ok names' ∧
      ∀ other ∈ names', other ∈ names ∨ fs'.locate true d = .ok place ∧ other = name := by
  obtain ⟨mode, entries, hlook, rfl⟩ := directory_of_list hd
  obtain ⟨loc, hloc, hnode⟩ := locate_of_lookUp hlook
  have hread : mode.read = true := by
    rw [list_eq hlook] at hd
    split at hd
    · assumption
    · cases hd
  obtain ⟨entries', hnode'⟩ := h.node?_directory hnode
  have hloc' := h.locate_eq_ok hloc
  refine ⟨entries'.map (·.1), by rw [list_eq (lookUp_eq hloc' hnode'), if_pos hread], ?_⟩
  intro other hother
  by_cases hnew : loc ++ [other] = place ++ [name]
  · obtain ⟨rfl, hname⟩ := List.append_inj' hnew rfl
    exact .inr ⟨hloc', List.singleton_inj.mp hname⟩
  · left
    have hrel := h.elsewhere _ hnew
    rw [node?_snoc hnode, node?_snoc hnode'] at hrel
    by_contra hnone
    rw [entryNamed?_eq_none_iff.mpr hnone] at hrel
    cases hentry : entryNamed? entries' other with
    | none => exact entryNamed?_eq_none_iff.mp hentry hother
    | some n => simp [hentry] at hrel

/-- No directory has come into the scope of a search. -/
theorem scanned (h : Gains fs fs' place name bytes) {top d : Path} {recursive : Bool} {n : Node}
    (htop : fs.lookUp true top = .ok n) (hd : fs'.Scanned top recursive d) :
    fs.Scanned top recursive d := by
  rw [scanned_iff] at hd ⊢
  refine hd.imp id ?_
  rintro ⟨hrecursive, loc, ds, mode, entries, hloc', hnode', rfl⟩
  obtain ⟨stop, hstop, -⟩ := locate_of_lookUp htop
  cases hloc'.symm.trans (h.locate_eq_ok hstop)
  have hother : loc ++ ds ≠ place ++ [name] := by
    intro heq
    rw [heq, h.there] at hnode'
    cases hnode'
  have hrel := h.elsewhere _ hother
  rw [hnode'] at hrel
  have hnode : ∃ es, fs.node? (loc ++ ds) = some (.directory mode es) := by
    generalize fs.node? (loc ++ ds) = found at hrel ⊢
    cases hrel with
    | some hkin =>
        cases hkin with
        | same => exact ⟨entries, rfl⟩
        | directory => exact ⟨_, rfl⟩
  obtain ⟨es, hnode⟩ := hnode
  exact ⟨hrecursive, loc, ds, mode, es, hstop, hnode, rfl⟩

theorem mem_entries (h : Gains fs fs' place name bytes) {mode : Mode}
    {entries : List (String × Node)} (hnode : fs'.node? place = some (.directory mode entries)) :
    (name, Node.file .ofFile bytes) ∈ entries := by
  have hthere := h.there
  rw [node?_snoc hnode] at hthere
  exact mem_of_entryNamed? hthere

/-- The new file by the path of its directory, if this path is not too long. -/
theorem locate_new (h : Gains fs fs' place name bytes) {d : Path}
    (hd : fs'.locate true d = .ok place) (hshort : byteLength (d.child name).text ≤ pathLimit) :
    fs'.locate true (d.child name) = .ok (place ++ [name]) := by
  obtain ⟨mode, entries, hnode, hsearch⟩ := h.searchable
  obtain ⟨entries', hnode'⟩ := h.node?_directory hnode
  rw [locate_child h.after hd hnode' (h.mem_entries hnode') (by simp) true,
    if_neg (Nat.not_lt.mpr hshort),
    if_pos hsearch]

end FileSystem.Gains

namespace Checker

open FileSystem

variable {c : Checker} {fs fs' : FileSystem} {place : Location} {name : String}
  {bytes : List UInt8}

theorem Accepts.gained (h : fs.Gains fs' place name bytes) {file : Path}
    (hfile : c.Accepts fs file) : c.Accepts fs' file := by
  obtain ⟨content, hread, haccepts⟩ := hfile
  exact ⟨content, h.read_eq_ok hread, haccepts⟩

/-- A file with these bytes is accepted wherever it is found. -/
def Welcomes (c : Checker) (bytes : List UInt8) : Prop :=
  ∀ file, (c.backend file c.duplicates bytes).stop = none

theorem AcceptsDirectory.gained (h : fs.Gains fs' place name bytes) (hwelcome : c.Welcomes bytes)
    {loc : Location} {recursive : Bool} (hloc : Canonical fs loc)
    (hshort : byteLength (pathOf (place ++ [name])).text ≤ pathLimit)
    (haccepts : c.AcceptsDirectory fs recursive (pathOf loc)) :
    c.AcceptsDirectory fs' recursive (pathOf loc) := by
  intro d hd'
  obtain ⟨n, hnode⟩ := hloc.node?_isSome
  have hd := h.scanned (lookUp_eq (hloc.locate_eq true) hnode) hd'
  obtain ⟨names, hnames, hall⟩ := haccepts d hd
  obtain ⟨names', hnames', hsplit⟩ := h.list_eq_ok hnames
  refine ⟨names', hnames', ?_⟩
  intro other hother
  rcases hsplit other hother with hold | ⟨hplace, rfl⟩
  · obtain ⟨directory, hdirectory, hfile⟩ := hall other hold
    exact ⟨directory, h.isDirectory_eq_ok hdirectory, fun hno hyaml => (hfile hno hyaml).gained h⟩
  · -- The directory is searched by the path of its location.
    have hpath : d = pathOf place := by
      rcases (scanned_iff d).mp hd' with rfl | ⟨-, top, ds, mode, entries, htop, hbelow, rfl⟩
      · cases (h.locate_eq_ok (hloc.locate_eq true)).symm.trans hplace
        rfl
      · cases (h.locate_eq_ok (hloc.locate_eq true)).symm.trans htop
        obtain rfl := locate_pathOf h.after hplace hbelow (by simp)
        rfl
    subst hpath
    have hnew := h.locate_new hplace hshort
    have hlook := lookUp_eq hnew h.there
    refine ⟨false, by simp only [isDirectory, isKind, hlook, Node.isDirectory], fun _ _ => ?_⟩
    refine ⟨bytes, ?_, hwelcome _⟩
    simp only [FileSystem.read, hlook, bind, Except.bind]
    rfl

/-- What stops no run still stops no run. -/
theorem targetStop_gained (h : fs.Gains fs' place name bytes) (hwelcome : c.Welcomes bytes)
    (hshort : byteLength (pathOf (place ++ [name])).text ≤ pathLimit) {recursive : Bool}
    {directory : Path} {path : Text.Letters}
    (hpath : c.targetStop fs recursive (fs.target directory path) = none) :
    c.targetStop fs' recursive (fs'.target directory path) = none := by
  rw [targetStop_target_eq_none_iff h.before] at hpath
  rw [targetStop_target_eq_none_iff h.after]
  obtain ⟨p, hresolve, hp⟩ := hpath
  refine ⟨p, h.resolve_eq_ok hresolve, ?_⟩
  obtain ⟨loc, rfl, hloc, -⟩ := resolve_eq_ok hresolve
  rcases hp with ⟨hdirectory, haccepts⟩ | ⟨hfile, haccepts⟩
  · exact .inl ⟨h.isDirectory_eq_ok hdirectory, haccepts.gained h hwelcome hloc hshort⟩
  · rcases h.isFile_or hfile with hsame | ⟨hfalse, -⟩
    · exact .inr ⟨hsame, fun hyaml => (haccepts hyaml).gained h⟩
    · cases hfalse

/-- A search of the directory with the new file stops the run if the path of the file is too
long. -/
theorem targetStop_of_tooLong (h : fs.Gains fs' place name bytes)
    (hlong : pathLimit < byteLength (pathOf (place ++ [name])).text) (hplace : Canonical fs place)
    (recursive : Bool) {directory : Path} {path : Text.Letters}
    (hpath : fs.resolve path directory = .ok (pathOf place)) :
    c.targetStop fs' recursive (fs'.target directory path) ≠ none := by
  obtain ⟨mode, entries, hnode, -⟩ := h.searchable
  obtain ⟨entries', hnode'⟩ := h.node?_directory hnode
  have hlook' := lookUp_eq (h.locate_eq_ok (hplace.locate_eq true)) hnode'
  rw [Ne, targetStop_target_eq_none_iff h.after]
  rintro ⟨p, hp, hverdict⟩
  obtain rfl : pathOf place = p := Except.ok.inj ((h.resolve_eq_ok hpath).symm.trans hp)
  rcases hverdict with ⟨-, haccepts⟩ | ⟨hfile, -⟩
  · obtain ⟨names, hnames, hall⟩ := haccepts _ (.inl rfl)
    obtain ⟨m, es, hlook, rfl⟩ := directory_of_list hnames
    cases hlook'.symm.trans hlook
    have hmem := List.mem_map_of_mem (f := (·.1)) (h.mem_entries hnode')
    obtain ⟨b, hb, -⟩ := hall name hmem
    have hfree : ∀ other ∈ place ++ [name], '\x00' ∉ other.toList := by
      intro other hother
      rcases List.mem_append.mp hother with hother | hother
      · exact hplace.nulFree other hother
      · rw [List.mem_singleton.mp hother]
        simpa using nulFree_of_isEntryName h.isEntryName
    exact Nat.not_lt.mpr (short_of_isDirectory hfree hb) hlong
  · simp [isFile, isKind, hlook', Node.isFile] at hfile

end Checker

/-- A run that has come to its end comes to its end again after a file is added. -/
theorem Config.runWith_gained (config : Config) (backend : Backend) {fs fs' : FileSystem}
    {place : Location} {name : String} {bytes : List UInt8} (h : fs.Gains fs' place name bytes)
    (hwelcome : Checker.Welcomes ⟨backend, config.duplicates⟩ bytes)
    (hshort : FileSystem.byteLength (FileSystem.pathOf (place ++ [name])).text ≤
      FileSystem.pathLimit) (directory : Path)
    (hrun : (config.runWith backend fs directory).stop = none) :
    (config.runWith backend fs' directory).stop = none := by
  simp only [runWith, Checker.checkAll_eq, Narrative.inOrder_stop, List.findSome?_eq_none_iff,
    List.forall_mem_map, Checker.checkTarget_stop] at hrun ⊢
  exact fun path hpath => Checker.targetStop_gained h hwelcome hshort (hrun path hpath)

end YamlCheck
