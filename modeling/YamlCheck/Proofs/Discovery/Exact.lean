import YamlCheck.Proofs.Discovery.Order
import YamlCheck.Proofs.FileSystem.Rearranged

/-!
# A discovery is exact

Where every directory in scope can be listed and every entry told from a directory, a discovery
finds each entry with the name of a YAML file that is no directory, once and in order.  What it
finds is decided by the tree alone and not by the order in which directories list their entries.
-/

namespace YamlCheck

theorem isYamlName_iff (name : String) :
    isYamlName name = true ↔
      ".yaml".toList <:+ name.toList ∨ ".yml".toList <:+ name.toList := by
  simp [isYamlName, yamlEndings]

namespace FileSystem

variable {fs fs' : FileSystem} {top : Path} {recursive : Bool}

/-- Whether every directory in scope can be listed, and every entry told from a directory. -/
def Accessible (fs : FileSystem) (top : Path) (recursive : Bool) : Prop :=
  ∀ d, fs.Scanned top recursive d → ∃ names, fs.list d = .ok names ∧
    ∀ name ∈ names, ∃ b, fs.isDirectory (d.child name) = .ok b

/-- Whether a directory has an entry at the end of some names, all others of which are names of
directories and not of links to them. -/
def HasEntry (fs : FileSystem) (top : Path) (directories : List String) (name : String) : Prop :=
  ∃ loc mode entries, fs.locate true top = .ok loc ∧
    fs.node? (loc ++ directories) = some (.directory mode entries) ∧ name ∈ entries.map (·.1)

theorem scanned_iff (d : Path) :
    fs.Scanned top recursive d ↔ d = top ∨ recursive = true ∧ ∃ loc directories mode entries,
      fs.locate true top = .ok loc ∧
      fs.node? (loc ++ directories) = some (.directory mode entries) ∧
      d = top.under directories := by
  constructor
  · rintro (rfl | ⟨hrecursive, n, hlook, directories, mode, entries, hget, rfl⟩)
    · exact .inl rfl
    · obtain ⟨loc, hloc, hnode⟩ := locate_of_lookUp hlook
      refine .inr ⟨hrecursive, loc, directories, mode, entries, hloc, ?_, rfl⟩
      unfold node? at hnode ⊢
      rw [Node.get?_append, hnode]
      exact hget
  · rintro (rfl | ⟨hrecursive, loc, directories, mode, entries, hloc, hnode, rfl⟩)
    · exact .inl rfl
    · unfold node? at hnode
      rw [Node.get?_append] at hnode
      obtain ⟨n, hn, hget⟩ := Option.bind_eq_some_iff.mp hnode
      exact .inr ⟨hrecursive, n, lookUp_eq hloc hn, directories, mode, entries, hget, rfl⟩

/-- Directories that can be listed are found where their names lead. -/
theorem locate_under (hfs : fs.WellFormed) {loc : Location} {directories : List String}
    {mode : Mode} {entries : List (String × Node)} (hloc : fs.locate true top = .ok loc)
    (hnode : fs.node? (loc ++ directories) = some (.directory mode entries))
    (listed : ∀ ds m es, fs.node? (loc ++ ds) = some (.directory m es) →
      ∃ names, fs.list (top.under ds) = .ok names) :
    fs.locate true (top.under directories) = .ok (loc ++ directories) := by
  induction directories generalizing top loc with
  | nil => simpa using hloc
  | cons name rest ih =>
      -- The directory itself holds an entry of that name, which is a directory again.
      have htop : ∃ m es, fs.node? loc = some (.directory m es) ∧
          ∃ m' es', (name, .directory m' es') ∈ es := by
        unfold node? at hnode ⊢
        rw [Node.get?_append] at hnode
        obtain ⟨n, hn, hget⟩ := Option.bind_eq_some_iff.mp hnode
        cases n with
        | directory m es =>
            simp only [Node.get?] at hget
            cases hentry : Node.entryNamed? es name with
            | none => simp [hentry] at hget
            | some n' =>
                simp only [hentry] at hget
                obtain ⟨m', es', rfl⟩ := Node.isDirectory_of_get? hget
                exact ⟨m, es, hn, m', es', Node.mem_of_entryNamed? hentry⟩
        | _ => simp [Node.get?] at hget
      obtain ⟨m, es, hhere, m', es', hmem⟩ := htop
      have hbelow : loc ++ name :: rest = (loc ++ [name]) ++ rest := by simp
      rw [hbelow] at hnode ⊢
      rw [← Path.child_under]
      have hchild : fs.locate true (top.child name) = .ok (loc ++ [name]) := by
        obtain ⟨names, hnames⟩ := listed [name] m' es' (node?_child hfs hhere hmem)
        have hgo := locate_child hfs hloc hhere hmem (by simp) true
        have hunder : top.under [name] = top.child name := rfl
        rw [hunder] at hnames
        split at hgo
        · simp [list_eq_error hgo] at hnames
        · split at hgo
          · exact hgo
          · simp [list_eq_error hgo] at hnames
      apply ih hchild hnode
      intro ds m₁ es₁ hds
      have hmore : (loc ++ [name]) ++ ds = loc ++ (name :: ds) := by simp
      rw [hmore] at hds
      rw [Path.child_under]
      exact listed (name :: ds) m₁ es₁ hds

theorem Accessible.scanned_under {loc : Location} {directories : List String} {mode : Mode}
    {entries : List (String × Node)} (scope : recursive = true ∨ directories = [])
    (hloc : fs.locate true top = .ok loc)
    (hnode : fs.node? (loc ++ directories) = some (.directory mode entries)) :
    fs.Scanned top recursive (top.under directories) := by
  rcases scope with hrecursive | rfl
  · exact (scanned_iff _).mpr (.inr ⟨hrecursive, loc, directories, mode, entries, hloc, hnode, rfl⟩)
  · exact .inl (by simp)

/-- A listing of a directory in scope gives the entries that stand there. -/
theorem Accessible.list_under (access : fs.Accessible top recursive) (hfs : fs.WellFormed)
    {loc : Location} {directories : List String} {mode : Mode}
    {entries : List (String × Node)} (scope : recursive = true ∨ directories = [])
    (hloc : fs.locate true top = .ok loc)
    (hnode : fs.node? (loc ++ directories) = some (.directory mode entries)) :
    fs.list (top.under directories) = .ok (entries.map (·.1)) := by
  obtain ⟨names, hnames, -⟩ := access _ (scanned_under scope hloc hnode)
  have hplace : fs.locate true (top.under directories) = .ok (loc ++ directories) := by
    rcases scope with rfl | rfl
    · apply locate_under hfs hloc hnode
      intro ds m es hds
      obtain ⟨found, hfound, -⟩ := access _ (scanned_under (.inl rfl) hloc hds)
      exact ⟨found, hfound⟩
    · simpa using hloc
  have hlook := lookUp_eq hplace hnode
  rw [list_eq hlook] at hnames ⊢
  split at hnames
  · exact if_pos ‹_›
  · cases hnames

/-- The entries in scope are those of the directories that real directories lead to. -/
theorem Accessible.exists_scanned_iff (access : fs.Accessible top recursive)
    (hfs : fs.WellFormed) (q : Path) (name : String) :
    (∃ d names, fs.Scanned top recursive d ∧ fs.list d = .ok names ∧ name ∈ names ∧
        q = d.child name) ↔
      ∃ directories, (recursive = true ∨ directories = []) ∧ fs.HasEntry top directories name ∧
        q = top.under (directories ++ [name]) := by
  have hunder : ∀ ds : List String, (top.under ds).child name = top.under (ds ++ [name]) := by
    intro ds
    simp [Path.under, Path.child]
  constructor
  · rintro ⟨d, names, hd, hlist, hname, rfl⟩
    obtain ⟨mode, entries, hlook, rfl⟩ := directory_of_list hlist
    obtain ⟨place, hplace, hnode⟩ := locate_of_lookUp hlook
    rcases (scanned_iff d).mp hd with rfl | ⟨hrecursive, loc, ds, m, es, hloc, hds, rfl⟩
    · refine ⟨[], .inr rfl, ⟨place, mode, entries, hplace, ?_, hname⟩, rfl⟩
      simpa using hnode
    · have hsame := access.list_under hfs (.inl hrecursive) hloc hds
      rw [hlist] at hsame
      refine ⟨ds, .inl hrecursive, ⟨loc, m, es, hloc, hds, ?_⟩, hunder ds⟩
      rw [← Except.ok.inj hsame]
      exact hname
  · rintro ⟨ds, scope, ⟨loc, mode, entries, hloc, hnode, hname⟩, rfl⟩
    exact ⟨top.under ds, _, scanned_under scope hloc hnode,
      access.list_under hfs scope hloc hnode, hname, (hunder ds).symm⟩

/-- What is no directory also when links are followed, among the entries that can be told from
one. -/
theorem isDirectory_eq_false_iff {p : Path} (h : ∃ b, fs.isDirectory p = .ok b) :
    fs.isDirectory p = .ok false ↔
      ∀ mode entries, fs.lookUp true p ≠ .ok (.directory mode entries) := by
  obtain ⟨b, hb⟩ := h
  unfold isDirectory isKind at hb ⊢
  cases hlook : fs.lookUp true p with
  | ok n =>
      cases n <;> simp [Node.isDirectory]
  | error r =>
      simp only [hlook] at hb ⊢
      split at hb
      · rename_i habsent
        simp [habsent]
      · cases hb

theorem mem_discover_files_iff (hfs : fs.WellFormed) (access : fs.Accessible top recursive)
    (q : Path) :
    q ∈ (fs.discover top recursive).files ↔
      ∃ directories name, (recursive = true ∨ directories = []) ∧
        fs.HasEntry top directories name ∧ q = top.under (directories ++ [name]) ∧
        isYamlName name = true ∧
        ∀ mode entries, fs.lookUp true q ≠ .ok (.directory mode entries) := by
  have hstop := (discover_stop_eq_none_iff hfs top recursive).mpr access
  rw [mem_discover_files hfs hstop]
  constructor
  · rintro ⟨d, names, name, hd, hlist, hname, rfl, hfile, hyaml⟩
    obtain ⟨ds, scope, hentry, hq⟩ := (access.exists_scanned_iff hfs _ name).mp
      ⟨d, names, hd, hlist, hname, rfl⟩
    exact ⟨ds, name, scope, hentry, hq, hyaml, (isDirectory_eq_false_iff ⟨_, hfile⟩).mp hfile⟩
  · rintro ⟨ds, name, scope, hentry, hq, hyaml, hfile⟩
    obtain ⟨d, names, hd, hlist, hname, rfl⟩ := (access.exists_scanned_iff hfs q name).mpr
      ⟨ds, scope, hentry, hq⟩
    obtain ⟨names', hlist', htold⟩ := access d hd
    obtain rfl : names = names' := Except.ok.inj (hlist.symm.trans hlist')
    exact ⟨d, names, name, hd, hlist, hname, rfl,
      (isDirectory_eq_false_iff (htold name hname)).mpr hfile, hyaml⟩

theorem ofCandidates_sublist (fs : FileSystem) (ps : List Path) :
    (Discovered.ofCandidates fs ps).files.Sublist ps := by
  induction ps with
  | nil => exact .refl _
  | cons p rest ih =>
      unfold Discovered.ofCandidates
      split
      · exact ih.cons_cons p
      · exact ih.cons p
      · exact List.nil_sublist _

theorem discover_sorted (hfs : fs.WellFormed) (top : Path) (recursive : Bool) :
    Path.StrictlySorted (fs.discover top recursive).files := by
  unfold discover
  cases hcandidates : fs.candidates top recursive with
  | error s => exact .nil
  | ok ps => exact (candidates_sorted hfs hcandidates).sublist (ofCandidates_sublist fs ps)

/-! ## Another order of the entries -/

theorem Rearranged.scanned (h : fs.Rearranged fs') {d : Path}
    (hd : fs.Scanned top recursive d) : fs'.Scanned top recursive d := by
  rw [scanned_iff] at hd ⊢
  refine hd.imp id ?_
  rintro ⟨hrecursive, loc, ds, mode, entries, hloc, hnode, rfl⟩
  obtain ⟨entries', hnode', -⟩ := h.directory hnode
  exact ⟨hrecursive, loc, ds, mode, entries', (h.locate_eq true top).trans hloc, hnode', rfl⟩

theorem Rearranged.accessible (h : fs.Rearranged fs') (access : fs.Accessible top recursive) :
    fs'.Accessible top recursive := by
  intro d hd
  obtain ⟨names, hlist, htold⟩ := access d (h.symm.scanned hd)
  obtain ⟨names', hlist', hperm⟩ := h.list hlist
  refine ⟨names', hlist', ?_⟩
  intro name hname
  rw [h.isDirectory_eq]
  exact htold name (hperm.mem_iff.mpr hname)

theorem Rearranged.hasEntry (h : fs.Rearranged fs') {directories : List String} {name : String}
    (hentry : fs.HasEntry top directories name) : fs'.HasEntry top directories name := by
  obtain ⟨loc, mode, entries, hloc, hnode, hname⟩ := hentry
  obtain ⟨entries', hnode', hperm⟩ := h.directory hnode
  exact ⟨loc, mode, entries', (h.locate_eq true top).trans hloc, hnode', hperm.mem_iff.mp hname⟩

theorem Rearranged.lookUp_ne_directory (h : fs.Rearranged fs') {q : Path}
    (hfile : ∀ mode entries, fs.lookUp true q ≠ .ok (.directory mode entries)) (mode : Mode)
    (entries : List (String × Node)) : fs'.lookUp true q ≠ .ok (.directory mode entries) := by
  intro hlook'
  rcases h.lookUp true q with ⟨r, -, hr⟩ | ⟨n, n', hlook, hn', hresembles⟩
  · rw [hr] at hlook'
    cases hlook'
  · rw [hn'] at hlook'
    cases hlook'
    have hsymm := hresembles.symm
    cases hsymm with
    | same => exact hfile _ _ hlook
    | directory => exact hfile _ _ hlook

theorem Rearranged.discover_eq (h : fs.Rearranged fs') (hfs : fs.WellFormed)
    (hfs' : fs'.WellFormed) (access : fs.Accessible top recursive) :
    fs'.discover top recursive = fs.discover top recursive := by
  have access' := h.accessible access
  have hstop := (discover_stop_eq_none_iff hfs top recursive).mpr access
  have hstop' := (discover_stop_eq_none_iff hfs' top recursive).mpr access'
  have hfiles : (fs'.discover top recursive).files = (fs.discover top recursive).files := by
    apply (discover_sorted hfs' top recursive).eq_of_mem_iff (discover_sorted hfs top recursive)
    intro q
    rw [mem_discover_files_iff hfs' access', mem_discover_files_iff hfs access]
    constructor
    · rintro ⟨ds, name, scope, hentry, hq, hyaml, hfile⟩
      exact ⟨ds, name, scope, h.symm.hasEntry hentry, hq, hyaml, h.symm.lookUp_ne_directory hfile⟩
    · rintro ⟨ds, name, scope, hentry, hq, hyaml, hfile⟩
      exact ⟨ds, name, scope, h.hasEntry hentry, hq, hyaml, h.lookUp_ne_directory hfile⟩
  cases hfound : fs.discover top recursive
  cases hfound' : fs'.discover top recursive
  simp_all

/-! ## A flat discovery inside a recursive one -/

theorem Accessible.flat (access : fs.Accessible top recursive) : fs.Accessible top false := by
  intro d hd
  rcases hd with rfl | ⟨hfalse, -⟩
  · exact access _ (.inl rfl)
  · cases hfalse

/-- Whether a path is that of an entry of a directory, and of nothing further below. -/
def isEntryOf (top q : Path) : Bool := q.names.length == top.names.length + 1

theorem discover_flat_eq (hfs : fs.WellFormed) (access : fs.Accessible top true) :
    (fs.discover top false).files = (fs.discover top true).files.filter (isEntryOf top) := by
  have hflat := access.flat
  apply (discover_sorted hfs top false).eq_of_mem_iff
    ((discover_sorted hfs top true).sublist List.filter_sublist)
  intro q
  rw [List.mem_filter, mem_discover_files_iff hfs hflat, mem_discover_files_iff hfs access]
  constructor
  · rintro ⟨ds, name, scope, hentry, rfl, hyaml, hfile⟩
    obtain rfl : ds = [] := by simpa using scope
    exact ⟨⟨[], name, .inl rfl, hentry, rfl, hyaml, hfile⟩, by simp [isEntryOf, Path.under]⟩
  · rintro ⟨⟨ds, name, -, hentry, rfl, hyaml, hfile⟩, hdepth⟩
    obtain rfl : ds = [] := by
      simp only [isEntryOf, Path.under, List.length_append, List.length_cons, List.length_nil,
        beq_iff_eq] at hdepth
      exact List.length_eq_zero_iff.mp (by omega)
    exact ⟨[], name, .inr rfl, hentry, rfl, hyaml, hfile⟩

/-- Where all directories in scope can be listed and all entries told from directories, a discovery
comes to its end.  It finds just those entries, reached through directories and no links to them,
that have the name of a YAML file and do not lead to a directory.  It finds them in strictly
increasing order, a flat discovery finds those of a recursive one that lie in the directory itself,
and no other order of the directory entries changes what is found. -/
theorem discover_exact (hfs : fs.WellFormed) (access : fs.Accessible top recursive) :
    (fs.discover top recursive).stop = none ∧
    (∀ q, q ∈ (fs.discover top recursive).files ↔
      ∃ directories name, (recursive = true ∨ directories = []) ∧
        fs.HasEntry top directories name ∧ q = top.under (directories ++ [name]) ∧
        (".yaml".toList <:+ name.toList ∨ ".yml".toList <:+ name.toList) ∧
        ∀ mode entries, fs.lookUp true q ≠ .ok (.directory mode entries)) ∧
    (fs.discover top recursive).files.Nodup ∧
    (fs.discover top recursive).files.Pairwise (fun p q => p.letters < q.letters) ∧
    (recursive = true →
      (fs.discover top false).files = (fs.discover top recursive).files.filter (isEntryOf top)) ∧
    ∀ fs', FileSystem.WellFormed fs' → fs.Rearranged fs' →
      fs'.discover top recursive = fs.discover top recursive := by
  have hsorted := discover_sorted hfs top recursive
  refine ⟨(discover_stop_eq_none_iff hfs top recursive).mpr access, fun q => ?_, hsorted.nodup,
    hsorted, ?_, fun fs' hfs' h => h.discover_eq hfs hfs' access⟩
  · simp only [← isYamlName_iff]
    exact mem_discover_files_iff hfs access q
  · rintro rfl
    exact discover_flat_eq hfs access

/-- A directory with links to itself and to nowhere, a directory with the name of a YAML file, and
names whose order is not that of the whole paths. -/
def sampleTree : FileSystem where
  root := .directory .ofDirectory
    [("a.yaml", .file .ofFile []), ("loop.yml", .link "loop.yml"), ("again", .link "."),
      ("a", .directory .ofDirectory [("z.yml", .file .ofFile []), ("x.YAML", .file .ofFile [])]),
      ("x.yaml", .directory .ofDirectory []), ("a-b.yml", .link "nowhere")]

theorem sampleTree_exact :
    sampleTree.WellFormed ∧ sampleTree.Accessible ⟨.slash, []⟩ true ∧
      (sampleTree.discover ⟨.slash, []⟩ true).files.Pairwise (fun p q => p.letters < q.letters) ∧
      (sampleTree.discover ⟨.slash, []⟩ true).files =
        [⟨.slash, ["a", "z.yml"]⟩, ⟨.slash, ["a-b.yml"]⟩, ⟨.slash, ["a.yaml"]⟩,
          ⟨.slash, ["loop.yml"]⟩] := by
  have hfs : sampleTree.WellFormed := by decide +kernel
  have hstop : (sampleTree.discover ⟨.slash, []⟩ true).stop = none :=
    Option.isNone_iff_eq_none.mp (by decide +kernel)
  have access : sampleTree.Accessible ⟨.slash, []⟩ true :=
    (discover_stop_eq_none_iff hfs _ _).mp hstop
  obtain ⟨-, -, -, hsorted, -, -⟩ := discover_exact hfs access
  exact ⟨hfs, access, hsorted, by decide +kernel⟩

end FileSystem

end YamlCheck
