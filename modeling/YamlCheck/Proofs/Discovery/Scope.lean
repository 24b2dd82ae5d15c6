import Mathlib.Data.List.Sort
import YamlCheck.Proofs.FileSystem.Listing

/-!
# What a discovery finds

In a file system that does not change, a discovery comes to its end exactly if every directory in
its scope can be listed and every entry listed can be told from a directory.  It then finds exactly
the entries with the name of a YAML file that are no directories.
-/

namespace YamlCheck

namespace Path

/-- Whether a path may stand in front of another one. -/
abbrev NotAfter (p q : Path) : Prop := q.before p = false

theorem insert_eq_orderedInsert (p : Path) (ps : List Path) :
    insert p ps = ps.orderedInsert NotAfter p := by
  induction ps with
  | nil => rfl
  | cons q rest ih =>
      rw [List.orderedInsert_cons, insert, ih]
      by_cases h : q.before p = true
      · rw [if_pos h, if_neg (by rw [NotAfter, h]; decide)]
      · rw [if_neg h, if_pos (Bool.eq_false_iff.mpr h)]

theorem sort_eq_insertionSort (ps : List Path) : sort ps = ps.insertionSort NotAfter := by
  induction ps with
  | nil => rfl
  | cons p rest ih => rw [sort, ih, insert_eq_orderedInsert, List.insertionSort_cons]

theorem sort_perm (ps : List Path) : (sort ps).Perm ps :=
  sort_eq_insertionSort ps ▸ List.perm_insertionSort NotAfter ps

end Path

namespace Discovered

variable {fs : FileSystem}

theorem ofCandidates_stop_eq_none_iff (ps : List Path) :
    (ofCandidates fs ps).stop = none ↔ ∀ p ∈ ps, ∃ b, fs.isDirectory p = .ok b := by
  induction ps with
  | nil => simp [ofCandidates]
  | cons p rest ih =>
      simp only [ofCandidates, FileSystem.isYaml]
      cases hp : fs.isDirectory p with
      | error i => simp [hp]
      | ok directory =>
          cases hyaml : !directory && isYamlName p.name <;> simp [hp, hyaml, ih]

theorem mem_ofCandidates_files {ps : List Path} (h : (ofCandidates fs ps).stop = none) (q : Path) :
    q ∈ (ofCandidates fs ps).files ↔
      q ∈ ps ∧ fs.isDirectory q = .ok false ∧ isYamlName q.name = true := by
  induction ps with
  | nil => simp [ofCandidates]
  | cons p rest ih =>
      obtain ⟨directory, hp⟩ := (ofCandidates_stop_eq_none_iff (p :: rest)).mp h p (by simp)
      have hrest : (ofCandidates fs rest).stop = none :=
        (ofCandidates_stop_eq_none_iff rest).mpr fun q hq =>
          (ofCandidates_stop_eq_none_iff (p :: rest)).mp h q (by simp [hq])
      have hself : fs.isYaml p = .ok (!directory && isYamlName p.name) := by
        simp [FileSystem.isYaml, hp]
      cases hyaml : !directory && isYamlName p.name with
      | true =>
          simp only [ofCandidates, hself, hyaml, List.mem_cons, ih hrest]
          grind
      | false =>
          simp only [ofCandidates, hself, hyaml, List.mem_cons, ih hrest]
          grind

end Discovered

namespace FileSystem

variable {fs : FileSystem}

/-- The candidates are a survey of the directories in scope, put in order. -/
theorem candidates_eq (hfs : fs.WellFormed) (top : Path) (recursive : Bool) :
    ∃ result, Surveys fs (Scanned fs top recursive) (fun _ => False) result ∧
      fs.candidates top recursive =
        match result with
        | .ok ps => .ok (Path.sort ps)
        | .error (d, r) => .error (listingStop r d) := by
  cases recursive with
  | true =>
      refine ⟨_, surveys_listAll hfs top, ?_⟩
      unfold candidates
      exact if_pos rfl
  | false =>
      refine ⟨_, surveys_list top, ?_⟩
      unfold candidates
      refine (if_neg Bool.false_ne_true).trans ?_
      cases fs.list top <;> rfl

/-- A discovery comes to its end exactly if every directory in scope can be listed and every entry
of it can be told from a directory. -/
theorem discover_stop_eq_none_iff (hfs : fs.WellFormed) (top : Path) (recursive : Bool) :
    (fs.discover top recursive).stop = none ↔
      ∀ d, Scanned fs top recursive d → ∃ names, fs.list d = .ok names ∧
        ∀ name ∈ names, ∃ b, fs.isDirectory (d.child name) = .ok b := by
  obtain ⟨result, hsurvey, hcandidates⟩ := candidates_eq hfs top recursive
  rw [discover, hcandidates]
  cases result with
  | error err =>
      obtain ⟨d, r⟩ := err
      refine iff_of_false (by simp) fun h => ?_
      obtain ⟨names, hnames, -⟩ := h d hsurvey.1
      simp [hsurvey.2] at hnames
  | ok ps =>
      simp only [Discovered.ofCandidates_stop_eq_none_iff, (Path.sort_perm ps).mem_iff, hsurvey.2,
        false_or]
      constructor
      · intro h d hd
        obtain ⟨names, hnames⟩ := hsurvey.1 d hd
        exact ⟨names, hnames, fun name hname => h _ ⟨d, names, name, hd, hnames, hname, rfl⟩⟩
      · rintro h q ⟨d, names, name, hd, hnames, hname, rfl⟩
        obtain ⟨names', hnames', hb⟩ := h d hd
        obtain rfl : names = names' := Except.ok.inj (hnames.symm.trans hnames')
        exact hb name hname

/-- The files that a discovery finds in the end: the entries in scope that have the name of a YAML
file and are no directories. -/
theorem mem_discover_files (hfs : fs.WellFormed) {top : Path} {recursive : Bool}
    (h : (fs.discover top recursive).stop = none) (q : Path) :
    q ∈ (fs.discover top recursive).files ↔
      ∃ d names name, Scanned fs top recursive d ∧ fs.list d = .ok names ∧ name ∈ names ∧
        q = d.child name ∧ fs.isDirectory q = .ok false ∧ isYamlName name = true := by
  obtain ⟨result, hsurvey, hcandidates⟩ := candidates_eq hfs top recursive
  rw [discover, hcandidates] at h ⊢
  cases result with
  | error err => simp at h
  | ok ps =>
      simp only at h ⊢
      simp only [Discovered.mem_ofCandidates_files h, (Path.sort_perm ps).mem_iff, hsurvey.2,
        false_or]
      constructor
      · rintro ⟨⟨d, names, name, hd, hnames, hname, rfl⟩, hdirectory, hyaml⟩
        rw [Path.name_child] at hyaml
        exact ⟨d, names, name, hd, hnames, hname, rfl, hdirectory, hyaml⟩
      · rintro ⟨d, names, name, hd, hnames, hname, rfl, hdirectory, hyaml⟩
        rw [Path.name_child]
        exact ⟨⟨d, names, name, hd, hnames, hname, rfl⟩, hdirectory, hyaml⟩

end FileSystem

end YamlCheck
