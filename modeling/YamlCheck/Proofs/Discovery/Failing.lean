import YamlCheck.Proofs.Discovery.Barred
import YamlCheck.Proofs.FileSystem.Canonical
import YamlCheck.Proofs.FileSystem.Refusals
import YamlCheck.Proofs.FileSystem.Sought

/-!
# How a discovery fails

A discovery lists directories before it finds anything, and asks of each candidate whether it is a
directory only when its turn comes.  If a directory cannot be listed, that is a failure which names
the directory.  If the question about a candidate is refused, the error of the operating system ends
the discovery as it is.
-/

namespace YamlCheck

theorem Path.Legible.under {p : Path} {names : List String} (h : p.Legible)
    (hnames : ∀ name ∈ names, isName name = true ∧ '/' ∉ name.toList) :
    (p.under names).Legible := by
  intro name hname
  rcases List.mem_append.mp hname with hname | hname
  · exact h name hname
  · exact hnames name hname

namespace FileSystem

variable {fs : FileSystem} {top : Path} {recursive : Bool}

/-! ## What bars a search -/

/-- The names that lead to what bars a search are names of entries. -/
theorem Barred.isEntryName (hfs : fs.WellFormed) {directories : List String} {r : Refusal}
    (h : fs.Barred top directories r) {name : String} (hname : name ∈ directories) :
    isEntryName name = true := by
  rcases h.there with rfl | ⟨loc, mode, entries, -, hnode⟩
  · cases hname
  · exact isEntryName_of_mem hfs hnode (List.mem_append_right loc hname)

/-- The end of a search that names a directory, with the error of the operating system as its
cause. -/
theorem Barred.listingStop_eq (hfs : fs.WellFormed) {directories : List String} {r : Refusal}
    (h : fs.Barred top directories r) (hlegible : top.Legible)
    (hnul : ∀ name ∈ top.names, '\x00' ∉ name.toList) :
    ∃ e, r.incident (top.under directories) = .system e ∧
      listingStop r (top.under directories) =
        .failure (.file (.unreadable (top.under directories) e.reason (some (.system e)))) := by
  have hfree : ∀ name ∈ (top.under directories).names, '\x00' ∉ name.toList := by
    intro name hname
    rcases List.mem_append.mp hname with hname | hname
    · exact hnul name hname
    · simpa using nulFree_of_isEntryName (h.isEntryName hfs hname)
  have htext : Path.ofText (top.under directories).text = top.under directories :=
    (hlegible.under fun name hname => isName_of_isEntryName (h.isEntryName hfs hname)).ofText_text
  obtain ⟨e, he, hfile⟩ := (list_refusal hfree h.refused).exists_system (top.under directories)
  refine ⟨e, he, ?_⟩
  have hprinted : (Text.Letters.ofText (top.under directories).text).printed =
      (top.under directories).text := Text.Letters.printed_ofText _
  simp only [listingStop, he, FileFailure.ofListing, hfile, hprinted, htext, FileFailure.ofSystem]

/-! ## What cannot be told from a directory -/

/-- Whether a search comes to an entry and is refused to be told what it leads to. -/
structure Untold (fs : FileSystem) (top : Path) (recursive : Bool) (q : Path) (r : Refusal) :
    Prop where
  listed : ∃ d names name, fs.Scanned top recursive d ∧ fs.list d = .ok names ∧ name ∈ names ∧
    q = d.child name
  reason : r = .denied ∨ r = .nameTooLong
  refused : fs.lookUp true q = .error r

theorem Untold.isDirectory_eq {q : Path} {r : Refusal} (h : fs.Untold top recursive q r) :
    fs.isDirectory q = .error (r.incident q) :=
  isKind_eq_error_iff.mpr ⟨r, h.reason, h.refused, rfl⟩

/-- An entry that is no link is told from a directory by the rights to the directory that it lies
in, unless its path is too long. -/
theorem untold_child_iff (hfs : fs.WellFormed) {d : Path} {mode : Mode}
    {entries : List (String × Node)} {name : String} {n : Node}
    (hd : fs.Scanned top recursive d) (hlook : fs.lookUp true d = .ok (.directory mode entries))
    (hread : mode.read = true) (hmem : (name, n) ∈ entries) (hlink : ∀ target, n ≠ .link target) :
    (∃ r, fs.Untold top recursive (d.child name) r) ↔
      mode.search = false ∨ pathLimit < byteLength (d.child name).text := by
  obtain ⟨loc, hloc, hnode⟩ := locate_of_lookUp hlook
  have hlist : fs.list d = .ok (entries.map (·.1)) := by rw [list_eq hlook, if_pos hread]
  have hlisted : ∃ d' names name', fs.Scanned top recursive d' ∧ fs.list d' = .ok names ∧
      name' ∈ names ∧ d.child name = d'.child name' :=
    ⟨d, _, name, hd, hlist, List.mem_map_of_mem (f := (·.1)) hmem, rfl⟩
  have hgo := locate_child hfs hloc hnode hmem hlink true
  have herror : ∀ r, fs.locate true (d.child name) = .error r →
      fs.lookUp true (d.child name) = .error r := by
    intro r hr
    simp [lookUp, bind, Except.bind, hr]
  split at hgo
  · rename_i hlong
    exact iff_of_true ⟨_, hlisted, .inr rfl, herror _ hgo⟩ (.inr hlong)
  rename_i hshort
  split at hgo
  · rename_i hsearch
    refine iff_of_false ?_ (by simp [hsearch, hshort])
    rintro ⟨r, -, -, hrefused⟩
    rw [lookUp_eq hgo (node?_child hfs hnode hmem)] at hrefused
    cases hrefused
  · rename_i hsearch
    exact iff_of_true ⟨_, hlisted, .inl rfl, herror _ hgo⟩ (.inl (by simpa using hsearch))

end FileSystem

namespace Discovered

variable {fs : FileSystem}

/-- What a candidate ends a discovery with. -/
def stopAt (fs : FileSystem) (p : Path) : Option Stop :=
  match fs.isDirectory p with
  | .ok _ => none
  | .error i => some (.incident i)

theorem stopAt_eq_some_iff {p : Path} {s : Stop} :
    stopAt fs p = some s ↔ ∃ i, fs.isDirectory p = .error i ∧ s = .incident i := by
  unfold stopAt
  cases fs.isDirectory p <;> simp [eq_comm]

theorem stopAt_eq_none_iff {p : Path} : stopAt fs p = none ↔ ∃ b, fs.isDirectory p = .ok b := by
  unfold stopAt
  cases fs.isDirectory p <;> simp

/-- The first candidate that cannot be told from a directory ends a discovery. -/
theorem ofCandidates_stop (ps : List Path) :
    (ofCandidates fs ps).stop = ps.findSome? (stopAt fs) := by
  induction ps with
  | nil => rfl
  | cons p rest ih =>
      unfold ofCandidates
      cases hp : fs.isDirectory p with
      | error i => simp [FileSystem.isYaml, stopAt, hp]
      | ok directory =>
          cases hyaml : !directory && isYamlName p.name <;>
            simp [FileSystem.isYaml, stopAt, hp, hyaml, ih]

end Discovered

namespace FileSystem

variable {fs : FileSystem} {top : Path} {recursive : Bool}

/-- The candidates of a discovery are the entries that it comes to, and all directories that it
comes to can be listed. -/
theorem mem_candidates_iff (hfs : fs.WellFormed) {ps : List Path}
    (h : fs.candidates top recursive = .ok ps) :
    (∀ d, fs.Scanned top recursive d → ∃ names, fs.list d = .ok names) ∧
      ∀ q, q ∈ ps ↔ ∃ d names name, fs.Scanned top recursive d ∧ fs.list d = .ok names ∧
        name ∈ names ∧ q = d.child name := by
  obtain ⟨result, hsurvey, hcandidates⟩ := candidates_eq hfs top recursive
  rw [h] at hcandidates
  cases result with
  | error e => cases hcandidates
  | ok found =>
      cases hcandidates
      refine ⟨hsurvey.1, fun q => ?_⟩
      rw [(Path.sort_perm _).mem_iff, hsurvey.2, false_or]

/-- A discovery whose directories can all be listed ends at the first entry that it cannot tell from
a directory. -/
theorem discover_stop_of_candidates (hfs : fs.WellFormed) {ps : List Path}
    (h : fs.candidates top recursive = .ok ps) (s : Stop) :
    (fs.discover top recursive).stop = some s ↔
      ∃ q r, fs.Untold top recursive q r ∧ s = .incident (r.incident q) ∧
        ∀ q' r', fs.Untold top recursive q' r' → q = q' ∨ q.letters < q'.letters := by
  obtain ⟨-, hmem⟩ := mem_candidates_iff hfs h
  have hsorted := candidates_sorted hfs h
  have hstop : (fs.discover top recursive).stop = ps.findSome? (Discovered.stopAt fs) := by
    rw [discover, h, Discovered.ofCandidates_stop]
  rw [hstop, List.findSome?_eq_some_iff]
  constructor
  · rintro ⟨front, q, back, rfl, hq, hfront⟩
    obtain ⟨i, hi, rfl⟩ := Discovered.stopAt_eq_some_iff.mp hq
    obtain ⟨r, hreason, hrefused, rfl⟩ := isKind_eq_error_iff.mp hi
    refine ⟨q, r, ⟨(hmem q).mp (by simp), hreason, hrefused⟩, rfl, ?_⟩
    intro q' r' huntold
    rcases List.mem_append.mp ((hmem q').mpr huntold.listed) with hq' | hq'
    · -- Whatever comes before has been told from a directory.
      obtain ⟨b, hb⟩ := Discovered.stopAt_eq_none_iff.mp (hfront q' hq')
      cases hb.symm.trans huntold.isDirectory_eq
    · rcases List.mem_cons.mp hq' with rfl | hq'
      · exact .inl rfl
      · exact .inr ((List.pairwise_cons.mp (List.pairwise_append.mp hsorted).2.1).1 q' hq')
  · rintro ⟨q, r, huntold, rfl, hfirst⟩
    obtain ⟨front, back, rfl⟩ := List.append_of_mem ((hmem q).mpr huntold.listed)
    refine ⟨front, q, back, rfl, ?_, ?_⟩
    · rw [Discovered.stopAt_eq_some_iff]
      exact ⟨_, huntold.isDirectory_eq, rfl⟩
    · intro p hp
      cases hstopped : Discovered.stopAt fs p with
      | none => rfl
      | some s =>
          obtain ⟨i, hi, rfl⟩ := Discovered.stopAt_eq_some_iff.mp hstopped
          obtain ⟨r', hreason, hrefused, rfl⟩ := isKind_eq_error_iff.mp hi
          have hbefore : p.letters < q.letters :=
            (List.pairwise_append.mp hsorted).2.2 p hp q (by simp)
          rcases hfirst p r' ⟨(hmem p).mp (by simp [hp]), hreason, hrefused⟩ with rfl | hafter
          · exact absurd hbefore (lt_irrefl _)
          · exact absurd (hbefore.trans hafter) (lt_irrefl _)

end FileSystem

end YamlCheck
