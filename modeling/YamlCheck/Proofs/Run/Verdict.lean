import YamlCheck.Proofs.Discovery.Scope
import YamlCheck.Proofs.Run.Trace

/-!
# The verdict of a run

A run that comes to its end has passed over nothing: every search path leads somewhere, every
directory in scope has been listed, and every YAML file in scope has been read to its end.
-/

namespace YamlCheck

namespace FileSystem

variable {fs : FileSystem}

theorem isDirectory_of_isFile {p : Path} (h : fs.isFile p = .ok true) :
    fs.isDirectory p = .ok false := by
  unfold isFile isKind at h
  unfold isDirectory isKind
  cases hlook : fs.lookUp true p with
  | ok n => cases n <;> simp_all [Node.isFile, Node.isDirectory]
  | error r =>
      simp only [hlook] at h
      split at h <;> simp at h

end FileSystem

namespace Checker

variable {c : Checker} {fs : FileSystem}

/-- A file can be opened, and the backend comes to the end of its bytes without an error. -/
def Accepts (c : Checker) (fs : FileSystem) (file : Path) : Prop :=
  ∃ bytes, fs.read file = .ok bytes ∧ (c.backend file c.duplicates bytes).stop = none

/-- All is well in a directory: every directory in scope can be listed, every entry can be told from
a directory, and every entry is accepted that has the name of a YAML file and is no directory. -/
def AcceptsDirectory (c : Checker) (fs : FileSystem) (recursive : Bool) (top : Path) : Prop :=
  ∀ d, fs.Scanned top recursive d → ∃ names, fs.list d = .ok names ∧
    ∀ name ∈ names, ∃ directory, fs.isDirectory (d.child name) = .ok directory ∧
      (directory = false → isYamlName name = true → c.Accepts fs (d.child name))

theorem passage_stop_eq_none_iff (file : Path) :
    (c.passage fs file).stop = none ↔ c.Accepts fs file := by
  unfold passage Accepts
  cases fs.read file with
  | error r => simp
  | ok bytes => simp

theorem fileStop_eq_none_iff (file : Path) : c.fileStop fs file = none ↔ c.Accepts fs file := by
  rw [fileStop, Option.map_eq_none_iff, passage_stop_eq_none_iff]

theorem targetStop_directory_eq_none_iff (hfs : fs.WellFormed) (recursive : Bool) (top : Path) :
    c.targetStop fs recursive (.directory top) = none ↔ c.AcceptsDirectory fs recursive top := by
  simp only [targetStop, Option.or_eq_none_iff, List.findSome?_eq_none_iff, fileStop_eq_none_iff]
  constructor
  · rintro ⟨hfiles, hstop⟩ d hd
    have hlisted := (FileSystem.discover_stop_eq_none_iff hfs top recursive).mp hstop
    obtain ⟨names, hnames, hall⟩ := hlisted d hd
    refine ⟨names, hnames, fun name hname => ?_⟩
    obtain ⟨directory, hdirectory⟩ := hall name hname
    refine ⟨directory, hdirectory, ?_⟩
    rintro rfl hyaml
    exact hfiles _ ((FileSystem.mem_discover_files hfs hstop _).mpr
      ⟨d, names, name, hd, hnames, hname, rfl, hdirectory, hyaml⟩)
  · intro h
    have hstop : (fs.discover top recursive).stop = none := by
      rw [FileSystem.discover_stop_eq_none_iff hfs]
      intro d hd
      obtain ⟨names, hnames, hall⟩ := h d hd
      exact ⟨names, hnames, fun name hname => (hall name hname).imp fun _ hb => hb.1⟩
    refine ⟨fun file hfile => ?_, hstop⟩
    obtain ⟨d, names, name, hd, hnames, hname, rfl, hdirectory, hyaml⟩ :=
      (FileSystem.mem_discover_files hfs hstop file).mp hfile
    obtain ⟨names', hnames', hall⟩ := h d hd
    obtain rfl : names = names' := Except.ok.inj (hnames.symm.trans hnames')
    obtain ⟨directory, hdirectory', haccepts⟩ := hall name hname
    obtain rfl : false = directory := Except.ok.inj (hdirectory.symm.trans hdirectory')
    exact haccepts rfl hyaml

/-- What a search path leads to stops no run if it is a directory in which all is well, or a regular
file that is accepted if it has the name of a YAML file. -/
theorem targetStop_target_eq_none_iff (hfs : fs.WellFormed) (recursive : Bool) (directory : Path)
    (path : Text.Letters) :
    c.targetStop fs recursive (fs.target directory path) = none ↔
      ∃ p, fs.resolve path directory = .ok p ∧
        (fs.isDirectory p = .ok true ∧ c.AcceptsDirectory fs recursive p ∨
          fs.isFile p = .ok true ∧ (isYamlName p.name = true → c.Accepts fs p)) := by
  unfold FileSystem.target
  cases fs.resolve path directory with
  | error s => simp [targetStop]
  | ok p =>
      simp only [Except.ok.injEq, exists_eq_left']
      cases hdirectory : fs.isDirectory p with
      | error i =>
          have hfile : fs.isFile p ≠ .ok true := fun h => by
            simp [FileSystem.isDirectory_of_isFile h] at hdirectory
          simp [targetStop, hfile]
      | ok isDirectory =>
          cases isDirectory with
          | true =>
              have hfile : fs.isFile p ≠ .ok true := fun h => by
                simp [FileSystem.isDirectory_of_isFile h] at hdirectory
              simp [targetStop_directory_eq_none_iff hfs, hfile]
          | false =>
              cases hfile : fs.isFile p with
              | error i => simp [targetStop]
              | ok isFile =>
                  cases isFile with
                  | false => simp [targetStop]
                  | true =>
                      cases hyaml : isYamlName p.name <;>
                        simp [targetStop, hyaml, fileStop_eq_none_iff]

end Checker

/-- A run comes to its end exactly if every search path leads to a directory in which all is well,
or to a regular file that is accepted if it has the name of a YAML file.  No pipe makes a run wait
here: nothing comes through it, and it is read as an empty file. -/
theorem Config.runWith_stop_eq_none_iff (config : Config) (backend : Backend) (fs : FileSystem)
    (hfs : fs.WellFormed) (directory : Path) :
    (config.runWith backend fs directory).stop = none ↔
      ∀ path ∈ config.searchPaths, ∃ p, fs.resolve path directory = .ok p ∧
        (fs.isDirectory p = .ok true ∧
            Checker.AcceptsDirectory ⟨backend, config.duplicates⟩ fs config.searchRecursive p ∨
          fs.isFile p = .ok true ∧
            (isYamlName p.name = true → Checker.Accepts ⟨backend, config.duplicates⟩ fs p)) := by
  have hrun : config.runWith backend fs directory = _ :=
    Checker.checkAll_eq ⟨backend, config.duplicates⟩ fs config.searchRecursive directory
      config.searchPaths
  rw [hrun, Narrative.inOrder_stop, List.findSome?_eq_none_iff]
  simp only [List.forall_mem_map, Checker.checkTarget_stop,
    Checker.targetStop_target_eq_none_iff hfs]

def FileSystem.sampleProject : FileSystem where
  root := .directory .ofDirectory
    [("project", .directory .ofDirectory
      [("b.yaml", .file .ofFile "a: 1\n---\nb: 2\n".toUTF8.toList),
        ("notes.txt", .file .ofFile "[".toUTF8.toList),
        ("a.yml", .link "b.yaml"),
        ("more", .directory .ofDirectory [("c.yaml", .file .ofFile "[]".toUTF8.toList)])])]

def Config.sampleSearch : Config where
  searchPaths := ["project", "project/a.yml"]
  searchRecursive := true

/-- The run over the sample project comes to its end, and so all is well in it. -/
theorem Config.sampleSearch_accepts :
    FileSystem.sampleProject.WellFormed ∧
      ∀ path ∈ sampleSearch.searchPaths,
        ∃ p, FileSystem.sampleProject.resolve path ⟨.slash, []⟩ = .ok p ∧
          (FileSystem.sampleProject.isDirectory p = .ok true ∧
              Checker.AcceptsDirectory ⟨.ofDialect .usual .classic, sampleSearch.duplicates⟩
                .sampleProject sampleSearch.searchRecursive p ∨
            FileSystem.sampleProject.isFile p = .ok true ∧
              (isYamlName p.name = true →
                Checker.Accepts ⟨.ofDialect .usual .classic, sampleSearch.duplicates⟩
                  .sampleProject p)) := by
  have hfs : FileSystem.sampleProject.WellFormed := by decide +kernel
  have hrun : (sampleSearch.runWith (.ofDialect .usual .classic) .sampleProject
      ⟨.slash, []⟩).stop = none :=
    Option.isNone_iff_eq_none.mp (by decide +kernel)
  exact ⟨hfs, (runWith_stop_eq_none_iff sampleSearch (.ofDialect .usual .classic) .sampleProject hfs
    ⟨.slash, []⟩).mp hrun⟩

end YamlCheck
