import YamlCheck.Proofs.Discovery.Failing
import YamlCheck.Proofs.Run.Reordered
import YamlCheck.Proofs.Run.Verdict

/-!
# Searches that fail

A recursive search that cannot list all its directories finds nothing: the run that it belongs to
announces the directory, opens no file of it and ends at the one that cannot be listed.  A search
that has listed all its directories ends before its time only at an entry that cannot be told from
a directory.  This is no failure that the checker speaks of in its own words: the error of the
operating system ends the run.
-/

namespace YamlCheck

namespace FileSystem

variable {fs : FileSystem} {top : Path} {recursive : Bool}

/-- Whether all directories of a search can be listed. -/
def Listed (fs : FileSystem) (top : Path) (recursive : Bool) : Prop :=
  ∀ d, fs.Scanned top recursive d → ∃ names, fs.list d = .ok names

/-- A search that a directory bars finds nothing and names such a directory; one that can list all
its directories ends at the first entry that it cannot tell from a directory. -/
theorem discover_barred_or_listed (hfs : fs.WellFormed) (hlegible : top.Legible)
    (hnul : ∀ name ∈ top.names, '\x00' ∉ name.toList) (recursive : Bool) :
    (∃ ds f, ¬ fs.Listed top recursive ∧ (recursive = false → ds = []) ∧
        fs.EndsBarred top ds (.failure f) ∧
        fs.discover top recursive = ⟨[], some (.failure f)⟩) ∨
      fs.Listed top recursive ∧ ∀ s, (fs.discover top recursive).stop = some s ↔
        ∃ q r, fs.Untold top recursive q r ∧ s = .incident (r.incident q) ∧
          ∀ q' r', fs.Untold top recursive q' r' → q = q' ∨ q.letters < q'.letters := by
  cases hcandidates : fs.candidates top recursive with
  | error s =>
      obtain ⟨ds, r, hbarred, hflat, rfl⟩ := candidates_error hfs hcandidates
      obtain ⟨e, he, hstop⟩ := hbarred.listingStop_eq hfs hlegible hnul
      refine .inl ⟨ds, _, fun hlisted => ?_, hflat, ⟨r, e, hbarred, he, rfl⟩, ?_⟩
      · have hscanned : fs.Scanned top recursive (top.under ds) := by
          cases recursive with
          | true => exact hbarred.scanned
          | false =>
              obtain rfl := hflat rfl
              exact .inl (Path.under_nil top)
        obtain ⟨names, hnames⟩ := hlisted _ hscanned
        cases hnames.symm.trans hbarred.refused
      · rw [discover, hcandidates, hstop]
  | ok ps =>
      exact .inr ⟨(mem_candidates_iff hfs hcandidates).1,
        discover_stop_of_candidates hfs hcandidates⟩

theorem Untold.exists_stop (hfs : fs.WellFormed) {q : Path} {r : Refusal}
    (h : fs.Untold top recursive q r) : ∃ s, (fs.discover top recursive).stop = some s := by
  rw [← Option.ne_none_iff_exists', ne_eq, discover_stop_eq_none_iff hfs]
  intro htold
  obtain ⟨d, names, name, hd, hnames, hname, rfl⟩ := h.listed
  obtain ⟨names', hnames', hall⟩ := htold d hd
  cases hnames.symm.trans hnames'
  obtain ⟨b, hb⟩ := hall name hname
  cases hb.symm.trans h.isDirectory_eq

theorem Untold.exists_system {q : Path} {r : Refusal} (h : fs.Untold top recursive q r) :
    ∃ e, r.incident q = .system e := by
  rcases h.reason with rfl | rfl
  · exact ⟨_, rfl⟩
  · exact ⟨_, rfl⟩

end FileSystem

theorem Checker.targetStop_of_accepts (c : Checker) {fs : FileSystem} {top : Path}
    {recursive : Bool} (h : ∀ file ∈ (fs.discover top recursive).files, c.Accepts fs file) :
    c.targetStop fs recursive (.directory top) = (fs.discover top recursive).stop := by
  have hfiles : (fs.discover top recursive).files.findSome? (c.fileStop fs) = none := by
    rw [List.findSome?_eq_none_iff]
    exact fun file hfile => (fileStop_eq_none_iff file).mpr (h file hfile)
  rw [targetStop, hfiles, Option.none_or]

namespace Config

variable {config : Config} {fs : FileSystem} {directory top : Path} {path : Text.Letters}

/-- A run over one directory whose files are accepted ends as the search of it does. -/
theorem runWith_stop_of_directory {backend : Backend} (hpaths : config.searchPaths = [path])
    (hresolve : fs.resolve path directory = .ok top) (htop : fs.isDirectory top = .ok true)
    (haccepts : ∀ file ∈ (fs.discover top config.searchRecursive).files,
      Checker.Accepts ⟨backend, config.duplicates⟩ fs file) :
    (config.runWith backend fs directory).stop =
      (fs.discover top config.searchRecursive).stop := by
  have htarget : fs.target directory path = .directory top :=
    FileSystem.target_directory hresolve htop
  rw [runWith, Checker.checkAll_eq, Narrative.inOrder_stop, hpaths]
  simp only [List.map_cons, List.map_nil, List.findSome?_cons, List.findSome?_nil, htarget,
    Checker.checkTarget_stop]
  rw [Checker.targetStop_of_accepts _ haccepts]
  cases (fs.discover top config.searchRecursive).stop <;> rfl

/-- A run that comes to a directory in which nothing is found says no more than that it starts with
it. -/
theorem runWith_of_found_nothing (backend : Backend) {front back : List Text.Letters} {s : Stop}
    {recursive : Bool} (hpaths : config.searchPaths = front ++ path :: back)
    (hrecursive : config.searchRecursive = recursive)
    (hfront : ({ config with searchPaths := front }.runWith backend fs directory).stop = none)
    (hresolve : fs.resolve path directory = .ok top) (htop : fs.isDirectory top = .ok true)
    (hfound : fs.discover top recursive = ⟨[], some s⟩) :
    let before := { config with searchPaths := front }.runWith backend fs directory
    config.runWith backend fs directory =
      ⟨before.reports ++ [.startingDirectory top recursive], before.opened, some s⟩ := by
  have hlast : Checker.checkTarget ⟨backend, config.duplicates⟩ fs config.searchRecursive
      (fs.target directory path) = ⟨[.startingDirectory top recursive], [], some s⟩ := by
    rw [FileSystem.target_directory hresolve htop, hrecursive]
    exact Checker.checkDirectory_of_stop _ hfound
  have hrun := config.runWith_of_front backend directory hpaths hfront (by rw [hlast])
  rw [hlast] at hrun
  simpa using hrun

/-- A run that comes to a path which cannot be told from a directory does not even say so. -/
theorem runWith_of_refused (backend : Backend) {front back : List Text.Letters} {i : Incident}
    (hpaths : config.searchPaths = front ++ path :: back)
    (hfront : ({ config with searchPaths := front }.runWith backend fs directory).stop = none)
    (hresolve : fs.resolve path directory = .ok top) (htop : fs.isDirectory top = .error i) :
    let before := { config with searchPaths := front }.runWith backend fs directory
    config.runWith backend fs directory =
      ⟨before.reports, before.opened, some (.incident i)⟩ := by
  have hlast : Checker.checkTarget ⟨backend, config.duplicates⟩ fs config.searchRecursive
      (fs.target directory path) = .stopped (.incident i) := by
    rw [FileSystem.target, hresolve]
    simp only [htop, Checker.checkTarget]
  have hrun := config.runWith_of_front backend directory hpaths hfront (by rw [hlast]; rfl)
  rw [hlast] at hrun
  simpa [Narrative.stopped] using hrun

end Config

/-- A search ends with an error of the operating system as it is, and not as a failure, exactly if
all its directories can be listed but some entry cannot be told from a directory; the error is then
that of the first such entry.  An entry that is no link is one if its directory can be read and not
searched, or if its path is too long.  Any other end before its time is a failure that names a
directory which cannot be listed.  A run over the directory whose files are accepted ends as the
search does. -/
theorem FileSystem.discover_escapes_iff {fs : FileSystem} (hfs : fs.WellFormed) {text : String}
    (hnul : '\x00' ∉ text.toList) (recursive : Bool) :
    let top := Path.ofText text
    let found := fs.discover top recursive
    ((∃ i, found.stop = some (.incident i)) ↔
        fs.Listed top recursive ∧ ∃ q r, fs.Untold top recursive q r) ∧
      (∀ i, found.stop = some (.incident i) → ∃ q r e, fs.Untold top recursive q r ∧
        (∀ q' r', fs.Untold top recursive q' r' → q = q' ∨ q.letters < q'.letters) ∧
        r.incident q = .system e ∧ i = .system e) ∧
      (∀ f, found.stop = some (.failure f) →
        ∃ ds, fs.EndsBarred top ds (.failure f) ∧ (recursive = false → ds = [])) ∧
      (∀ d mode entries name n, fs.Scanned top recursive d →
        fs.lookUp true d = .ok (.directory mode entries) → mode.read = true →
        (name, n) ∈ entries → (∀ target, n ≠ .link target) →
        ((∃ r, fs.Untold top recursive (d.child name) r) ↔
          mode.search = false ∨ pathLimit < byteLength (d.child name).text)) ∧
      ∀ (config : Config) (backend : Backend) (directory : Path) (path : Text.Letters),
        config.searchPaths = [path] → config.searchRecursive = recursive →
        fs.resolve path directory = .ok top → fs.isDirectory top = .ok true →
        (∀ file ∈ found.files, Checker.Accepts ⟨backend, config.duplicates⟩ fs file) →
        (config.runWith backend fs directory).stop = found.stop := by
  intro top found
  have hends := discover_barred_or_listed hfs (Path.legible_ofText text)
    (Path.nulFree_ofText hnul) recursive
  refine ⟨⟨?_, ?_⟩, ?_, ?_, ?_, ?_⟩
  · rintro ⟨i, hi⟩
    rcases hends with ⟨ds, f, -, -, -, hfound⟩ | ⟨hlisted, hstop⟩
    · have hfailure : found.stop = some (.failure f) := by rw [show found = _ from hfound]
      cases hfailure.symm.trans hi
    · obtain ⟨q, r, huntold, -⟩ := (hstop _).mp hi
      exact ⟨hlisted, q, r, huntold⟩
  · rintro ⟨hlisted, q, r, huntold⟩
    rcases hends with ⟨-, -, hnot, -⟩ | ⟨-, hstop⟩
    · exact absurd hlisted hnot
    · obtain ⟨s, hs⟩ := huntold.exists_stop hfs
      obtain ⟨q, r, -, rfl, -⟩ := (hstop s).mp hs
      exact ⟨_, hs⟩
  · intro i hi
    rcases hends with ⟨ds, f, -, -, -, hfound⟩ | ⟨-, hstop⟩
    · have hfailure : found.stop = some (.failure f) := by rw [show found = _ from hfound]
      cases hfailure.symm.trans hi
    · obtain ⟨q, r, huntold, heq, hfirst⟩ := (hstop _).mp hi
      obtain ⟨e, he⟩ := huntold.exists_system
      exact ⟨q, r, e, huntold, hfirst, he, (Stop.incident.inj heq).trans he⟩
  · intro f hf
    rcases hends with ⟨ds, f', -, hflat, hbarred, hfound⟩ | ⟨-, hstop⟩
    · have hfailure : found.stop = some (.failure f') := by rw [show found = _ from hfound]
      cases hfailure.symm.trans hf
      exact ⟨ds, hbarred, hflat⟩
    · obtain ⟨q, r, -, heq, -⟩ := (hstop _).mp hf
      cases heq
  · intro d mode entries name n hd hlook hread hmem hlink
    exact untold_child_iff hfs hd hlook hread hmem hlink
  · rintro config backend directory path hpaths rfl hresolve htop haccepts
    exact Config.runWith_stop_of_directory hpaths hresolve htop haccepts

/-- A directory that can be listed, but in which nothing can be looked up. -/
def FileSystem.unsearchable : FileSystem where
  root := .directory .ofDirectory
    [("conf", .directory (.ofDigit 4) [("a.yaml", .file .ofFile [])])]

theorem FileSystem.unsearchable_escapes :
    unsearchable.WellFormed ∧ '\x00' ∉ "/conf".toList ∧
      unsearchable.isDirectory (Path.ofText "/conf") = .ok true ∧
      ∃ i, (unsearchable.discover (Path.ofText "/conf") false).stop = some (.incident i) := by
  have hfs : unsearchable.WellFormed := by decide +kernel
  have hnul : '\x00' ∉ "/conf".toList := by decide
  have hlist : unsearchable.list (Path.ofText "/conf") = .ok ["a.yaml"] := by decide +kernel
  have hlook : unsearchable.lookUp true (Path.ofText "/conf") =
      .ok (.directory (.ofDigit 4) [("a.yaml", .file .ofFile [])]) := by rfl
  obtain ⟨hescapes, -, -, hrights, -⟩ := discover_escapes_iff hfs hnul false
  refine ⟨hfs, hnul, rfl, hescapes.mpr ⟨?_, (Path.ofText "/conf").child "a.yaml", ?_⟩⟩
  · rintro d (rfl | ⟨hfalse, -⟩)
    · exact ⟨_, hlist⟩
    · cases hfalse
  · have htold := hrights _ _ _ "a.yaml" (.file .ofFile []) (.inl rfl) hlook rfl (by simp) (by simp)
    exact htold.mpr (.inl rfl)

/-- Not all that ends a search of a directory is reported as a failure to read. -/
theorem FileSystem.unsearchable_not_reported :
    ¬ ∀ (fs : FileSystem) (top : Path) (recursive : Bool) (s : Stop), fs.WellFormed →
      fs.isDirectory top = .ok true → (fs.discover top recursive).stop = some s →
        ∃ path reason cause, s = .failure (.file (.unreadable path reason cause)) := by
  intro h
  have hincident : ((unsearchable.discover (Path.ofText "/conf") false).stop.any fun
      | .incident _ => true
      | .failure _ => false) = true := by decide +kernel
  cases hstop : (unsearchable.discover (Path.ofText "/conf") false).stop with
  | none => simp [hstop] at hincident
  | some s =>
      obtain ⟨path, reason, cause, rfl⟩ := h unsearchable _ false s (by decide +kernel) rfl hstop
      simp [hstop] at hincident

/-- A recursive search of a directory fails exactly if that directory, or a directory below it that
listings lead to, cannot be listed.  It has found nothing then, whatever there was to be found in
other directories, and names such a directory with the error of the operating system as the cause.
A run that comes to the directory says that it starts with it and no more, opens no file of it, and
ends there; if the path of the directory is too long to be told as one, it does not even say so. -/
theorem FileSystem.discover_failure_iff {fs : FileSystem} (hfs : fs.WellFormed) {text : String}
    (hnul : '\x00' ∉ text.toList) :
    let top := Path.ofText text
    let found := fs.discover top true
    ((∃ f, found.stop = some (.failure f)) ↔ ∃ ds r, fs.Barred top ds r) ∧
      ∀ f, found.stop = some (.failure f) → found.files = [] ∧
        (∃ ds r e, fs.Barred top ds r ∧ r.incident (top.under ds) = .system e ∧
          f = .file (.unreadable (top.under ds) e.reason (some (.system e)))) ∧
        ∀ (config : Config) (backend : Backend) (directory : Path) (front back : List Text.Letters)
          (path : Text.Letters), config.searchPaths = front ++ path :: back →
          config.searchRecursive = true → fs.resolve path directory = .ok top →
          let before := { config with searchPaths := front }.runWith backend fs directory
          before.stop = none →
            (fs.isDirectory top = .ok true → config.runWith backend fs directory =
              ⟨before.reports ++ [.startingDirectory top true], before.opened,
                some (.failure f)⟩) ∧
            ∀ i, fs.isDirectory top = .error i → config.runWith backend fs directory =
              ⟨before.reports, before.opened, some (.incident i)⟩ := by
  intro top found
  have hends := discover_barred_or_listed hfs (Path.legible_ofText text)
    (Path.nulFree_ofText hnul) true
  refine ⟨⟨?_, ?_⟩, ?_⟩
  · rintro ⟨f, hf⟩
    rcases hends with ⟨ds, -, -, -, ⟨r, -, hbarred, -⟩, -⟩ | ⟨-, hstop⟩
    · exact ⟨ds, r, hbarred⟩
    · obtain ⟨q, r, -, heq, -⟩ := (hstop _).mp hf
      cases heq
  · rintro ⟨ds, r, hbarred⟩
    rcases hends with ⟨-, f, -, -, -, hfound⟩ | ⟨hlisted, -⟩
    · exact ⟨f, by rw [show found = _ from hfound]⟩
    · obtain ⟨names, hnames⟩ := hlisted _ hbarred.scanned
      cases hnames.symm.trans hbarred.refused
  · intro f hf
    rcases hends with ⟨ds, f', -, -, ⟨r, e, hbarred, he, hnamed⟩, hfound⟩ | ⟨-, hstop⟩
    case inr =>
      obtain ⟨q, r, -, heq, -⟩ := (hstop _).mp hf
      cases heq
    have hfound : found = ⟨[], some (.failure f')⟩ := hfound
    obtain rfl : f' = f := by simpa [hfound] using hf
    refine ⟨by rw [hfound], ⟨ds, r, e, hbarred, he, Stop.failure.inj hnamed⟩, ?_⟩
    intro config backend directory front back path hpaths hrecursive hresolve before hbefore
    constructor
    · intro htop
      exact Config.runWith_of_found_nothing backend hpaths hrecursive hbefore hresolve htop hfound
    · intro i htop
      exact Config.runWith_of_refused backend hpaths hbefore hresolve htop

/-- A directory with a YAML file, a malformed one, and a directory with a directory that can be
listed, but not searched, and holds another one. -/
def FileSystem.barredProject : FileSystem where
  root := .directory .ofDirectory
    [("conf", .directory .ofDirectory
      [("a.yaml", .file .ofFile []), ("b.yaml", .file .ofFile "[".toUTF8.toList),
        ("sub", .directory .ofDirectory
          [("listed", .directory (.ofDigit 4) [("inner", .directory .ofDirectory [])])])])]

theorem FileSystem.barredProject_fails :
    barredProject.WellFormed ∧ '\x00' ∉ "/conf".toList ∧
      barredProject.isDirectory (Path.ofText "/conf") = .ok true ∧
      barredProject.Barred (Path.ofText "/conf") ["sub", "listed", "inner"] .denied ∧
      (barredProject.discover (Path.ofText "/conf") true).files = [] ∧
      (Config.runWith { searchPaths := ["conf", "conf/a.yaml"], searchRecursive := true }
        (.ofDialect .usual .classic) barredProject ⟨.slash, []⟩).opened = [] := by
  have hfs : barredProject.WellFormed := by decide +kernel
  have hnul : '\x00' ∉ "/conf".toList := by decide
  have htop : barredProject.isDirectory (Path.ofText "/conf") = .ok true := by rfl
  have hbarred : barredProject.Barred (Path.ofText "/conf") ["sub", "listed", "inner"]
      .denied := by
    refine ⟨.inr ⟨["conf"], .ofDirectory, [], by decide +kernel, rfl⟩, ?_, by decide +kernel⟩
    intro front hfront hne
    simp only [List.prefix_cons_iff, List.prefix_nil] at hfront
    rcases hfront with rfl | ⟨-, rfl, rfl | ⟨-, rfl, rfl | ⟨-, rfl, rfl⟩⟩⟩
    · exact ⟨["a.yaml", "b.yaml", "sub"], by decide +kernel⟩
    · exact ⟨["listed"], by decide +kernel⟩
    · exact ⟨["inner"], by decide +kernel⟩
    · exact absurd rfl hne
  obtain ⟨hfails, hrun⟩ := discover_failure_iff hfs hnul
  obtain ⟨f, hf⟩ := hfails.mpr ⟨_, _, hbarred⟩
  obtain ⟨hfiles, -, hrun⟩ := hrun f hf
  refine ⟨hfs, hnul, htop, hbarred, hfiles, ?_⟩
  have hcanonical : barredProject.canonical ((Path.mk .slash []).join (Path.ofText "conf")) =
      .ok ["conf"] := by decide +kernel
  have hrun := hrun { searchPaths := ["conf", "conf/a.yaml"], searchRecursive := true }
    (.ofDialect .usual .classic) ⟨.slash, []⟩ [] ["conf/a.yaml"] "conf" rfl rfl
    (resolve_ofText hcanonical) rfl
  rw [hrun.1 htop]
  rfl

end YamlCheck
