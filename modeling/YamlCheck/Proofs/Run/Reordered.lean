import YamlCheck.Proofs.Discovery.Failing
import YamlCheck.Proofs.Run.Influence

/-!
# Runs and the order of directory entries

A run over a file system with its directory entries in another order resolves its search paths
alike, says the same and opens the same files.  What it ends with may differ in one case only: a
recursive search to which several directories are barred names the one that it comes to first.
-/

namespace YamlCheck

namespace FileSystem

variable {fs fs' : FileSystem} {top : Path} {recursive : Bool}

/-! ## Resolving -/

theorem Rearranged.traceWith_eq (h : fs.Rearranged fs')
    (into : List Location → Location → List String → Tracing) (inside : List Location)
    (loc : Location) (pieces : List String) :
    fs'.traceWith true into inside loc pieces = fs.traceWith true into inside loc pieces := by
  induction pieces generalizing loc with
  | nil => rw [traceWith_nil, traceWith_nil]
  | cons piece rest ih =>
      rcases piece_cases piece with hidle | rfl | hplain
      · rw [traceWith_idle hidle, traceWith_idle hidle, ih]
      · rw [traceWith_up, traceWith_up, ih]
      rw [traceWith_plain hplain, traceWith_plain hplain]
      rcases h.lookUp false (pathOf (loc ++ [piece])) with
        ⟨r, hlook, hlook'⟩ | ⟨n, n', hlook, hlook', hresembles⟩
      · rw [hlook, hlook']
      rw [hlook, hlook']
      cases hresembles with
      | directory => exact ih _
      | same =>
          cases n with
          | link target => simp only [traceLink, ih]
          | _ => exact ih _

theorem Rearranged.traceIn_eq (h : fs.Rearranged fs') (levels : Nat) :
    fs'.traceIn true levels = fs.traceIn true levels := by
  induction levels with
  | zero =>
      rw [traceIn_eq_traceWith, traceIn_eq_traceWith]
      exact funext fun inside => funext fun loc => funext fun pieces => h.traceWith_eq _ _ _ _
  | succ levels ih =>
      rw [traceIn_eq_traceWith, traceIn_eq_traceWith, inner, inner, ih]
      exact funext fun inside => funext fun loc => funext fun pieces => h.traceWith_eq _ _ _ _

/-- Both may go down as many levels as both together have links. -/
theorem Rearranged.trace_eq (h : fs.Rearranged fs') (pieces : List String) :
    fs'.trace true [] pieces = fs.trace true [] pieces := by
  have hlevels : ∀ (fs : FileSystem) (more : Nat),
      fs.traceIn true (fs.root.countLinks + linkLimit + more) [] [] pieces =
        fs.trace true [] pieces := fun fs more =>
    traceIn_levels more List.nodup_nil (by simp) (by simp) Canonical.nil pieces
  rw [← hlevels fs fs'.root.countLinks, ← hlevels fs' fs.root.countLinks, h.traceIn_eq]
  congr 1
  omega

theorem Rearranged.canonical_eq (h : fs.Rearranged fs') (p : Path) :
    fs'.canonical p = fs.canonical p := by
  unfold canonical
  rw [h.trace_eq]
  cases fs.trace true [] p.names with
  | looping link pieces =>
      rcases h.lookUp true (pathOf link) with ⟨r, hlook, hlook'⟩ | ⟨n, n', hlook, hlook', -⟩
      · simp only [hlook, hlook']
      · simp only [hlook, hlook']
  | _ => rfl

theorem Rearranged.oddityStop_eq (h : fs.Rearranged fs') (path candidate : Text.Letters)
    (loc : Location) (odd : Oddity) :
    fs'.oddityStop path candidate loc odd = fs.oddityStop path candidate loc odd := by
  cases odd with
  | unencodable start stop first => rfl
  | foreign size piece =>
      rcases h.lookUp false ((pathOf loc).child (standIn size piece)) with
        ⟨r, hlook, hlook'⟩ | ⟨n, n', hlook, hlook', -⟩
      · simp only [oddityStop, hlook, hlook']
      · simp only [oddityStop, hlook, hlook']

theorem Rearranged.resolve_eq (h : fs.Rearranged fs') (path : Text.Letters) (directory : Path) :
    fs'.resolve path directory = fs.resolve path directory := by
  simp only [resolve, h.canonical_eq, h.oddityStop_eq]

theorem Rearranged.target_eq (h : fs.Rearranged fs') (directory : Path) (path : Text.Letters) :
    fs'.target directory path = fs.target directory path := by
  simp only [target, h.resolve_eq, h.isDirectory_eq, h.isFile_eq]

end FileSystem

/-! ## Two runs -/

namespace Narrative

/-- Two activities that say the same and open the same, and of which either none is stopped or both
are, in ways that belong together. -/
structure Matches (P : Stop → Stop → Prop) (a b : Narrative) : Prop where
  reports : b.reports = a.reports
  opened : b.opened = a.opened
  stop : Option.Rel P a.stop b.stop

namespace Matches

variable {P : Stop → Stop → Prop}

theorem refl (hP : ∀ s, P s s) (n : Narrative) : n.Matches P n where
  reports := rfl
  opened := rfl
  stop := by
    cases n.stop with
    | none => exact .none
    | some s => exact .some (hP s)

theorem stop_or {a b : Narrative} (h : a.Matches P b) :
    a.stop = none ∧ b.stop = none ∨ ∃ s s', a.stop = some s ∧ b.stop = some s' ∧ P s s' := by
  have hstop := h.stop
  cases ha : a.stop with
  | none =>
      cases hb : b.stop with
      | none => exact .inl ⟨rfl, rfl⟩
      | some s' => simp [ha, hb] at hstop
  | some s =>
      cases hb : b.stop with
      | none => simp [ha, hb] at hstop
      | some s' =>
          rw [ha, hb] at hstop
          cases hstop with
          | some hP => exact .inr ⟨s, s', rfl, rfl, hP⟩

theorem andThen {a a' : Narrative} {b b' : Unit → Narrative} (ha : a.Matches P a')
    (hb : (b ()).Matches P (b' ())) : (a.andThen b).Matches P (a'.andThen b') := by
  rcases ha.stop_or with ⟨h, h'⟩ | ⟨s, s', h, h', -⟩
  · rw [andThen_of_end h, andThen_of_end h']
    exact ⟨by rw [ha.reports, hb.reports], by rw [ha.opened, hb.opened], hb.stop⟩
  · rwa [andThen_of_stop h, andThen_of_stop h']

theorem inOrder {α : Type} {f g : α → Narrative} {xs : List α}
    (h : ∀ x ∈ xs, (f x).Matches P (g x)) : (inOrder f xs).Matches P (inOrder g xs) := by
  induction xs with
  | nil => exact ⟨rfl, rfl, .none⟩
  | cons x xs ih =>
      exact (h x (by simp)).andThen (ih fun y hy => h y (by simp [hy]))

end Matches

end Narrative

namespace FileSystem

variable {fs fs' : FileSystem}

theorem target_eq_directory {directory top : Path} {path : Text.Letters}
    (h : fs.target directory path = .directory top) :
    fs.resolve path directory = .ok top ∧ fs.isDirectory top = .ok true := by
  unfold target at h
  cases hresolve : fs.resolve path directory with
  | error s => simp [hresolve] at h
  | ok p =>
      simp only [hresolve] at h
      split at h <;> cases h
      exact ⟨rfl, ‹_›⟩

theorem target_directory {directory top : Path} {path : Text.Letters}
    (hresolve : fs.resolve path directory = .ok top) (htop : fs.isDirectory top = .ok true) :
    fs.target directory path = .directory top := by
  simp only [target, hresolve, htop]

/-- The end of a run that names a directory which bars a search, with the error of the operating
system as its cause. -/
def EndsBarred (fs : FileSystem) (top : Path) (directories : List String) (s : Stop) : Prop :=
  ∃ r e, fs.Barred top directories r ∧ r.incident (top.under directories) = .system e ∧
    s = .failure (.file (.unreadable (top.under directories) e.reason (some (.system e))))

theorem Barred.endsBarred (hfs : fs.WellFormed) {directory top : Path} {path : Text.Letters}
    {directories : List String} {r : Refusal} (htarget : fs.target directory path = .directory top)
    (h : fs.Barred top directories r) :
    fs.EndsBarred top directories (listingStop r (top.under directories)) := by
  obtain ⟨loc, rfl, hloc⟩ := target_isCanonical (.inl htarget)
  obtain ⟨e, he, hstop⟩ := h.listingStop_eq hfs (hloc.legible hfs) hloc.nulFree
  exact ⟨r, e, h, he, hstop⟩

/-- Two ends of a run are one, or they name two directories that bar one recursive search. -/
def SameEnd (fs : FileSystem) (directory : Path) (config : Config) (s s' : Stop) : Prop :=
  s' = s ∨ config.searchRecursive = true ∧ ∃ path ∈ config.searchPaths, ∃ top ds ds',
    fs.resolve path directory = .ok top ∧ ds ≠ ds' ∧ fs.EndsBarred top ds s ∧
      fs.EndsBarred top ds' s'

end FileSystem

namespace Checker

open FileSystem

variable {fs fs' : FileSystem}

theorem checkFiles_rearranged (c : Checker) (h : fs.Rearranged fs') (files : List Path) :
    c.checkFiles fs' files = c.checkFiles fs files := by
  rw [checkFiles_eq, checkFiles_eq]
  apply Narrative.inOrder_congr
  intro file _
  exact c.checkFile_congr (h.read_eq file)

/-- A directory in which nothing can be searched is only announced. -/
theorem checkDirectory_of_stop (c : Checker) {top : Path} {recursive : Bool} {s : Stop}
    (h : fs.discover top recursive = ⟨[], some s⟩) :
    c.checkDirectory fs top recursive = ⟨[.startingDirectory top recursive], [], some s⟩ := by
  simp only [checkDirectory, h, checkFiles]
  rfl

theorem checkTarget_rearranged (c : Checker) (h : fs.Rearranged fs') (hfs : fs.WellFormed)
    (hfs' : fs'.WellFormed) (config : Config) (directory : Path) {path : Text.Letters}
    (hpath : path ∈ config.searchPaths) :
    (c.checkTarget fs config.searchRecursive (fs.target directory path)).Matches
      (fs.SameEnd directory config)
      (c.checkTarget fs' config.searchRecursive (fs'.target directory path)) := by
  have hrefl : ∀ s, fs.SameEnd directory config s s := fun s => .inl rfl
  rw [h.target_eq]
  cases htarget : fs.target directory path with
  | nothing s => exact .refl hrefl _
  | file p =>
      simp only [checkTarget, c.checkFile_congr (h.read_eq p)]
      exact .refl hrefl _
  | directory top =>
      simp only [checkTarget]
      rcases h.discover_or hfs hfs' top config.searchRecursive with
        hsame | ⟨hrecursive, ds, ds', r, r', hne, hbarred, hbarred', hfound, hfound'⟩
      · simp only [checkDirectory, hsame, c.checkFiles_rearranged h]
        exact .refl hrefl _
      · rw [c.checkDirectory_of_stop hfound, c.checkDirectory_of_stop hfound']
        refine ⟨rfl, rfl, .some (.inr ⟨hrecursive, path, hpath, top, ds, ds', ?_, hne, ?_, ?_⟩)⟩
        · exact (target_eq_directory htarget).1
        · exact hbarred.endsBarred hfs htarget
        · exact hbarred'.endsBarred hfs htarget

end Checker

namespace Config

open FileSystem

variable {fs : FileSystem}

theorem runWith_matches (config : Config) (backend : Backend) (hfs : fs.WellFormed)
    {fs' : FileSystem} (hfs' : fs'.WellFormed) (h : fs.Rearranged fs') (directory : Path) :
    (config.runWith backend fs directory).Matches (fs.SameEnd directory config)
      (config.runWith backend fs' directory) := by
  simp only [runWith, Checker.checkAll_eq, Narrative.inOrder_map]
  apply Narrative.Matches.inOrder
  intro path hpath
  exact Checker.checkTarget_rearranged _ h hfs hfs' config directory hpath

/-- A run ends at the first search path that stops it. -/
theorem runWith_of_front (config : Config) (backend : Backend) (directory : Path)
    {front back : List Text.Letters} {path : Text.Letters} {s : Stop}
    (hpaths : config.searchPaths = front ++ path :: back)
    (hfront : ({ config with searchPaths := front }.runWith backend fs directory).stop = none)
    (hstop : (Checker.checkTarget ⟨backend, config.duplicates⟩ fs config.searchRecursive
      (fs.target directory path)).stop = some s) :
    let before := { config with searchPaths := front }.runWith backend fs directory
    let last := Checker.checkTarget ⟨backend, config.duplicates⟩ fs config.searchRecursive
      (fs.target directory path)
    config.runWith backend fs directory =
      ⟨before.reports ++ last.reports, before.opened ++ last.opened, some s⟩ := by
  simp only [runWith, Checker.checkAll_eq] at hfront ⊢
  rw [hpaths, List.map_append, List.map_cons]
  exact Narrative.inOrder_stopped _ hfront hstop

theorem runWith_stop_of_front (config : Config) (backend : Backend) (directory : Path)
    {front back : List Text.Letters} {path : Text.Letters} {s : Stop}
    (hpaths : config.searchPaths = front ++ path :: back)
    (hfront : ({ config with searchPaths := front }.runWith backend fs directory).stop = none)
    (hstop : (Checker.checkTarget ⟨backend, config.duplicates⟩ fs config.searchRecursive
      (fs.target directory path)).stop = some s) :
    (config.runWith backend fs directory).stop = some s := by
  rw [config.runWith_of_front backend directory hpaths hfront hstop]

/-- Over a file system with its directory entries in another order a run says the same, opens the
same files, and ends the same, unless it ends at a directory that bars a recursive search and is not
the only one: then it names one of these, and the operating system's error there.  And that is no
matter of chance: for each of them there is an order in which it is the one that is named. -/
theorem runWith_reordered (config : Config) (backend : Backend) (hfs : fs.WellFormed)
    (directory : Path) :
    let run := config.runWith backend fs directory
    (∀ fs', FileSystem.WellFormed fs' → fs.Rearranged fs' →
      let run' := config.runWith backend fs' directory
      run'.reports = run.reports ∧ run'.opened = run.opened ∧
        (run'.stop = run.stop ∨ config.searchRecursive = true ∧
          ∃ path ∈ config.searchPaths, ∃ top ds ds' s s', fs.resolve path directory = .ok top ∧
            ds ≠ ds' ∧ fs.EndsBarred top ds s ∧ fs.EndsBarred top ds' s' ∧
              run.stop = some s ∧ run'.stop = some s')) ∧
      ∀ front path back top ds s, config.searchPaths = front ++ path :: back →
        config.searchRecursive = true →
        ({ config with searchPaths := front }.runWith backend fs directory).stop = none →
        fs.resolve path directory = .ok top → fs.isDirectory top = .ok true →
        fs.EndsBarred top ds s →
        ∃ fs', FileSystem.WellFormed fs' ∧ fs.Rearranged fs' ∧
          (config.runWith backend fs' directory).stop = some s := by
  intro run
  constructor
  · intro fs' hfs' h
    have hmatches := config.runWith_matches backend hfs hfs' h directory
    refine ⟨hmatches.reports, hmatches.opened, ?_⟩
    rcases hmatches.stop_or with ⟨hend, hend'⟩ | ⟨s, s', hend, hend', hsame⟩
    · exact .inl (hend'.trans hend.symm)
    rcases hsame with rfl | ⟨hrecursive, path, hpath, top, ds, ds', hresolve, hne, hs, hs'⟩
    · exact .inl (hend'.trans hend.symm)
    · exact .inr ⟨hrecursive, path, hpath, top, ds, ds', s, s', hresolve, hne, hs, hs', hend, hend'⟩
  · rintro front path back top ds s hpaths hrecursive hfront hresolve htop ⟨r, e, hbarred, he, rfl⟩
    obtain ⟨fs', hfs', h, hcandidates⟩ := hbarred.exists_rearranged hfs
    refine ⟨fs', hfs', h, ?_⟩
    have hfront' :
        ({ config with searchPaths := front }.runWith backend fs' directory).stop = none := by
      have hmatches := runWith_matches { config with searchPaths := front } backend hfs hfs' h
        directory
      rcases hmatches.stop_or with ⟨-, hend'⟩ | ⟨s, -, hend, -⟩
      · exact hend'
      · rw [hfront] at hend
        cases hend
    have htarget : fs'.target directory path = .directory top :=
      (h.target_eq directory path).trans (target_directory hresolve htop)
    have hnamed : listingStop r (top.under ds) = .failure (.file (.unreadable (top.under ds)
        e.reason (some (.system e)))) := by
      obtain ⟨r', e', hbarred', he', hstop⟩ :=
        hbarred.endsBarred hfs (target_directory hresolve htop)
      cases hbarred.refused.symm.trans hbarred'.refused
      cases he.symm.trans he'
      exact hstop
    have hfound : fs'.discover top true = ⟨[], some (listingStop r (top.under ds))⟩ := by
      simp only [discover, hcandidates]
    refine runWith_stop_of_front config backend directory hpaths hfront' ?_
    rw [htarget, hrecursive, ← hnamed]
    simp only [Checker.checkTarget, Checker.checkDirectory_of_stop _ hfound]

end Config

/-- A directory with two directories that cannot be listed, in this order. -/
def FileSystem.lockedProject (first second : String) : FileSystem where
  root := .directory .ofDirectory
    [("conf", .directory .ofDirectory
      [(first, .directory (.ofDigit 0) []), (second, .directory (.ofDigit 0) [])])]

def Config.lockedSearch : Config where
  searchPaths := ["conf"]
  searchRecursive := true

theorem FileSystem.rearranged_lockedProject :
    (lockedProject "b" "a").Rearranged (lockedProject "a" "b") := by
  have hfs : (lockedProject "b" "a").WellFormed := by decide +kernel
  have hroot : (lockedProject "a" "b").root = (lockedProject "b" "a").root.hoist ["conf", "a"] := by
    rfl
  intro loc
  rw [node?, node?, hroot]
  exact Node.hoist_resembles hfs _ loc

theorem Config.lockedSearch_reordered :
    (FileSystem.lockedProject "b" "a").WellFormed ∧
      (lockedSearch.runWith (.ofDialect .usual .classic) (.lockedProject "a" "b")
          ⟨.slash, []⟩).reports =
        (lockedSearch.runWith (.ofDialect .usual .classic) (.lockedProject "b" "a")
          ⟨.slash, []⟩).reports := by
  have hfs : (FileSystem.lockedProject "b" "a").WellFormed := by decide +kernel
  have hfs' : (FileSystem.lockedProject "a" "b").WellFormed := by decide +kernel
  obtain ⟨hruns, -⟩ := runWith_reordered lockedSearch (.ofDialect .usual .classic) hfs ⟨.slash, []⟩
  exact ⟨hfs, (hruns _ hfs' FileSystem.rearranged_lockedProject).1⟩

/-- The end of a run does depend on the order of directory entries. -/
theorem Config.lockedSearch_ends_differently :
    ¬ ∀ (config : Config) (backend : Backend) (fs fs' : FileSystem) (directory : Path),
      fs.WellFormed → fs'.WellFormed → fs.Rearranged fs' →
        (config.runWith backend fs' directory).stop =
          (config.runWith backend fs directory).stop := by
  intro h
  have hsame := h lockedSearch (.ofDialect .usual .classic) (.lockedProject "b" "a")
    (.lockedProject "a" "b") ⟨.slash, []⟩ (by decide +kernel) (by decide +kernel)
    FileSystem.rearranged_lockedProject
  have hmessage : (lockedSearch.runWith (.ofDialect .usual .classic) (.lockedProject "a" "b")
        ⟨.slash, []⟩).stop.map Stop.message =
      some "Could not read /conf/a: Permission denied" := by decide +kernel
  rw [hsame] at hmessage
  revert hmessage
  decide +kernel

end YamlCheck
