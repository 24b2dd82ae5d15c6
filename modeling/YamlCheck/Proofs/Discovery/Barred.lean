import YamlCheck.Proofs.Discovery.Exact

/-!
# Directories that bar a search

A recursive search comes to a directory if all directories above it, up to the one searched, can be
listed.  It fails if it comes to one that cannot be listed, and names such a one: which of several,
is a matter of the order in which directories list their entries.
-/

namespace YamlCheck

namespace FileSystem

variable {fs fs' : FileSystem} {top : Path}

/-- Whether some names lead to a directory that a search comes to and cannot list.  The first one
need not be a directory for that. -/
structure Barred (fs : FileSystem) (top : Path) (directories : List String) (r : Refusal) :
    Prop where
  there : directories = [] ∨ ∃ loc mode entries, fs.locate true top = .ok loc ∧
    fs.node? (loc ++ directories) = some (.directory mode entries)
  listed : ∀ front, front <+: directories → front ≠ directories →
    ∃ names, fs.list (top.under front) = .ok names
  refused : fs.list (top.under directories) = .error r

namespace Barred

variable {directories : List String} {r : Refusal}

theorem nil (h : fs.list top = .error r) : fs.Barred top [] r where
  there := .inl rfl
  listed front hfront hne := absurd (List.prefix_nil.mp hfront) hne
  refused := by simpa using h

/-- What bars a search of an entry bars a search of the directory too. -/
theorem cons (hfs : fs.WellFormed) {loc : Location} {mode m : Mode}
    {entries es : List (String × Node)} {name : String} (hloc : fs.locate true top = .ok loc)
    (hnode : fs.node? loc = some (.directory mode entries)) (hread : mode.read = true)
    (hmem : (name, .directory m es) ∈ entries) (h : fs.Barred (top.child name) directories r) :
    fs.Barred top (name :: directories) r where
  there := by
    refine .inr ⟨loc, ?_⟩
    have hchild := node?_child hfs hnode hmem
    rcases h.there with rfl | ⟨stop, m', es', hstop, hbelow⟩
    · exact ⟨m, es, hloc, hchild⟩
    · rw [locate_child hfs hloc hnode hmem (by simp)] at hstop
      split at hstop
      · cases hstop
      split at hstop
      · cases hstop
        exact ⟨m', es', hloc, by simpa using hbelow⟩
      · cases hstop
  listed front hfront hne := by
    cases front with
    | nil => exact ⟨_, by simpa [hread] using list_eq (lookUp_eq hloc hnode)⟩
    | cons first front =>
        obtain ⟨rfl, hrest⟩ := List.cons_prefix_cons.mp hfront
        rw [← Path.child_under]
        exact h.listed front hrest fun heq => hne (by rw [heq])
  refused := by simpa using h.refused

theorem tail {loc : Location} {name : String} (hloc : fs.locate true top = .ok loc)
    (hchild : fs.locate true (top.child name) = .ok (loc ++ [name]))
    (h : fs.Barred top (name :: directories) r) : fs.Barred (top.child name) directories r where
  there := by
    rcases h.there with hnil | ⟨stop, mode, entries, hstop, hnode⟩
    · cases hnil
    · cases hloc.symm.trans hstop
      exact .inr ⟨_, mode, entries, hchild, by simpa using hnode⟩
  listed front hfront hne := by
    rw [Path.child_under]
    exact h.listed (name :: front) (List.cons_prefix_cons.mpr ⟨rfl, hfront⟩) (by simpa using hne)
  refused := by simpa using h.refused

theorem scanned (h : fs.Barred top directories r) :
    fs.Scanned top true (top.under directories) := by
  rcases h.there with rfl | ⟨loc, mode, entries, hloc, hnode⟩
  · exact .inl (Path.under_nil top)
  · exact (scanned_iff _).mpr (.inr ⟨rfl, loc, directories, mode, entries, hloc, hnode, rfl⟩)

end Barred

/-! ## What a listing of a tree names -/

/-- The error of a listing names a directory that bars it. -/
theorem barred_belowEntries (hfs : fs.WellFormed) {p : Path} {loc : Location} {mode : Mode}
    {all : List (String × Node)} (hloc : fs.locate true p = .ok loc)
    (hnode : fs.node? loc = some (.directory mode all)) (hread : mode.read = true)
    {d : Path} {r : Refusal}
    (trees : ∀ name m es, (name, .directory m es) ∈ all →
      fs.locate true (p.child name) = .ok (loc ++ [name]) →
      below (p.child name) (.directory m es) = .error (d, r) →
      ∃ ds, d = (p.child name).under ds ∧ fs.Barred (p.child name) ds r)
    {entries : List (String × Node)} (hall : ∀ e ∈ entries, e ∈ all)
    (h : belowEntries p mode.search entries = .error (d, r)) :
    ∃ ds, d = p.under ds ∧ fs.Barred p ds r := by
  induction entries with
  | nil => simp [belowEntries] at h
  | cons e rest ih =>
      obtain ⟨name, n⟩ := e
      have hmem : (name, n) ∈ all := hall _ (by simp)
      have hrest := ih fun e he => hall e (by simp [he])
      by_cases hdirectory : ∃ m es, n = .directory m es
      case neg =>
        have hstep : belowEntries p mode.search rest = .error (d, r) := by
          cases n with
          | directory m es => exact absurd ⟨m, es, rfl⟩ hdirectory
          | _ =>
              simp only [belowEntries] at h
              cases hothers : belowEntries p mode.search rest with
              | ok others => simp [hothers, Except.map] at h
              | error e => simpa [hothers, Except.map] using h
        exact hrest hstep
      obtain ⟨m, es, rfl⟩ := hdirectory
      have hgo := locate_child hfs hloc hnode hmem (by simp) true
      have hself : ∀ r', fs.locate true (p.child name) = .error r' → fs.Barred p [name] r' :=
        fun r' herror => .cons hfs hloc hnode hread hmem (.nil (list_eq_error herror))
      simp only [belowEntries] at h
      split at h
      · rename_i hlong
        cases h
        rw [if_pos hlong] at hgo
        exact ⟨[name], rfl, hself _ hgo⟩
      rename_i hshort
      rw [if_neg hshort] at hgo
      split at h
      case isFalse hsearch =>
        cases h
        rw [if_neg hsearch] at hgo
        exact ⟨[name], rfl, hself _ hgo⟩
      rename_i hsearch
      rw [if_pos hsearch] at hgo
      split at h
      · cases h
      · rename_i e hinner
        cases h
        obtain ⟨ds, rfl, hbarred⟩ := trees name m es hmem hgo hinner
        exact ⟨name :: ds, Path.child_under .., .cons hfs hloc hnode hread hmem hbarred⟩
      · rename_i hothers _
        cases h
        exact hrest hothers

theorem barred_below (hfs : fs.WellFormed) (mode : Mode) (entries : List (String × Node))
    {p : Path} {loc : Location} (hloc : fs.locate true p = .ok loc)
    (hnode : fs.node? loc = some (.directory mode entries)) {d : Path} {r : Refusal}
    (h : below p (.directory mode entries) = .error (d, r)) :
    ∃ ds, d = p.under ds ∧ fs.Barred p ds r := by
  have hlist := list_eq (lookUp_eq hloc hnode)
  simp only [below] at h
  split at h
  case isFalse hread =>
    cases h
    exact ⟨[], (Path.under_nil p).symm, .nil (by rw [hlist, if_neg hread])⟩
  rename_i hread
  exact barred_belowEntries hfs hloc hnode hread
    (fun name m es hmem hgo => barred_below hfs m es hgo (node?_child hfs hnode hmem))
    (fun _ he => he) h
termination_by sizeOf entries
decreasing_by
  have := List.sizeOf_lt_of_mem hmem
  simp at this ⊢
  omega

/-- A search in a directory and in all that is below it names a directory that bars it. -/
theorem barred_of_listAll (hfs : fs.WellFormed) {d : Path} {r : Refusal}
    (h : fs.listAll top = .error (d, r)) : ∃ ds, d = top.under ds ∧ fs.Barred top ds r := by
  unfold listAll at h
  cases hlook : fs.lookUp true top with
  | error r' =>
      simp only [hlook, Except.error.injEq, Prod.mk.injEq] at h
      obtain ⟨rfl, rfl⟩ := h
      exact ⟨[], (Path.under_nil _).symm, .nil (by simp [list, hlook, bind, Except.bind])⟩
  | ok n =>
      rw [hlook] at h
      cases n with
      | directory mode entries =>
          obtain ⟨loc, hloc, hnode⟩ := locate_of_lookUp hlook
          exact barred_below hfs mode entries hloc hnode h
      | _ =>
          simp only [below, Except.error.injEq, Prod.mk.injEq] at h
          obtain ⟨rfl, rfl⟩ := h
          exact ⟨[], (Path.under_nil _).symm, .nil (by simp [list, hlook, bind, Except.bind])⟩

/-- A discovery that fails before it comes to its candidates names what bars it; a flat one is
barred by nothing but the directory searched. -/
theorem candidates_error (hfs : fs.WellFormed) {recursive : Bool} {s : Stop}
    (h : fs.candidates top recursive = .error s) :
    ∃ ds r, fs.Barred top ds r ∧ (recursive = false → ds = []) ∧
      s = listingStop r (top.under ds) := by
  unfold candidates at h
  cases recursive with
  | true =>
      simp only [if_true] at h
      cases hall : fs.listAll top with
      | ok ps => simp [hall] at h
      | error e =>
          obtain ⟨d, r⟩ := e
          obtain ⟨ds, rfl, hbarred⟩ := barred_of_listAll hfs hall
          simp only [hall, Except.error.injEq] at h
          exact ⟨ds, r, hbarred, by simp, h.symm⟩
  | false =>
      simp only [Bool.false_eq_true, if_false] at h
      cases hlist : fs.list top with
      | ok names => simp [hlist] at h
      | error r =>
          simp only [hlist, Except.error.injEq] at h
          exact ⟨[], r, .nil hlist, by simp, by simpa using h.symm⟩

/-! ## Another order of the entries -/

theorem Rearranged.barred (h : fs.Rearranged fs') {directories : List String} {r : Refusal}
    (hbarred : fs.Barred top directories r) : fs'.Barred top directories r where
  there := by
    refine hbarred.there.imp id ?_
    rintro ⟨loc, mode, entries, hloc, hnode⟩
    obtain ⟨entries', hnode', -⟩ := h.directory hnode
    exact ⟨loc, mode, entries', (h.locate_eq true top).trans hloc, hnode'⟩
  listed front hfront hne := by
    obtain ⟨names, hnames⟩ := hbarred.listed front hfront hne
    obtain ⟨names', hnames', -⟩ := h.list hnames
    exact ⟨names', hnames'⟩
  refused := h.list_error hbarred.refused

theorem Rearranged.candidates_eq_ok (h : fs.Rearranged fs') (hfs : fs.WellFormed)
    (hfs' : fs'.WellFormed) {recursive : Bool} {ps : List Path}
    (hps : fs.candidates top recursive = .ok ps) : fs'.candidates top recursive = .ok ps := by
  obtain ⟨result, hsurvey, hcandidates⟩ := candidates_eq hfs top recursive
  obtain ⟨result', hsurvey', hcandidates'⟩ := candidates_eq hfs' top recursive
  cases result with
  | error e => simp [hcandidates] at hps
  | ok found =>
      rw [hcandidates] at hps
      cases result' with
      | error e =>
          obtain ⟨names, hnames⟩ := hsurvey.1 e.1 (h.symm.scanned hsurvey'.1)
          obtain ⟨names', hnames', -⟩ := h.list hnames
          rw [hsurvey'.2] at hnames'
          cases hnames'
      | ok found' =>
          simp only [Except.ok.injEq] at hps
          subst hps
          rw [hcandidates', Except.ok.injEq]
          apply (candidates_sorted hfs' hcandidates').eq_of_mem_iff
            (candidates_sorted hfs hcandidates)
          intro q
          rw [(Path.sort_perm _).mem_iff, (Path.sort_perm _).mem_iff, hsurvey.2, hsurvey'.2,
            false_or, false_or]
          constructor
          · rintro ⟨d, names', name, hd, hnames', hname, rfl⟩
            obtain ⟨names, hnames, hperm⟩ := h.symm.list hnames'
            exact ⟨d, names, name, h.symm.scanned hd, hnames, hperm.mem_iff.mp hname, rfl⟩
          · rintro ⟨d, names, name, hd, hnames, hname, rfl⟩
            obtain ⟨names', hnames', hperm⟩ := h.list hnames
            exact ⟨d, names', name, h.scanned hd, hnames', hperm.mem_iff.mp hname, rfl⟩

theorem Rearranged.ofCandidates_eq (h : fs.Rearranged fs') (ps : List Path) :
    Discovered.ofCandidates fs' ps = Discovered.ofCandidates fs ps := by
  induction ps with
  | nil => rfl
  | cons p rest ih => simp only [Discovered.ofCandidates, isYaml, h.isDirectory_eq, ih]

/-- With the entries in another order a discovery is the same, or it finds nothing in both and names
another one of several directories that bar it. -/
theorem Rearranged.discover_or (h : fs.Rearranged fs') (hfs : fs.WellFormed)
    (hfs' : fs'.WellFormed) (top : Path) (recursive : Bool) :
    fs'.discover top recursive = fs.discover top recursive ∨
      recursive = true ∧ ∃ ds ds' r r', ds ≠ ds' ∧ fs.Barred top ds r ∧ fs.Barred top ds' r' ∧
        fs.discover top recursive = ⟨[], some (listingStop r (top.under ds))⟩ ∧
        fs'.discover top recursive = ⟨[], some (listingStop r' (top.under ds'))⟩ := by
  unfold discover
  cases hcandidates : fs.candidates top recursive with
  | ok ps =>
      rw [h.candidates_eq_ok hfs hfs' hcandidates]
      exact .inl (h.ofCandidates_eq ps)
  | error s =>
      cases hcandidates' : fs'.candidates top recursive with
      | ok ps' => simp [h.symm.candidates_eq_ok hfs' hfs hcandidates'] at hcandidates
      | error s' =>
          obtain ⟨ds, r, hbarred, hflat, rfl⟩ := candidates_error hfs hcandidates
          obtain ⟨ds', r', hbarred', hflat', rfl⟩ := candidates_error hfs' hcandidates'
          have hother := h.symm.barred hbarred'
          by_cases heq : ds = ds'
          · subst heq
            cases hbarred.refused.symm.trans hother.refused
            exact .inl rfl
          · refine .inr ⟨?_, ds, ds', r, r', heq, hbarred, hother, rfl, rfl⟩
            cases recursive with
            | true => rfl
            | false => exact absurd ((hflat rfl).trans (hflat' rfl).symm) heq

/-! ## Every directory that bars a search can be the one named -/

end FileSystem

namespace Node

/-- A tree in which the entries on a way are moved to the front of their directories. -/
def hoist : Node → List String → Node
  | .directory mode entries, name :: rest =>
    match entryNamed? entries name with
    | some n => .directory mode ((name, n.hoist rest) :: entries.filter (·.1 != name))
    | none => .directory mode entries
  | n, _ => n

@[simp] theorem hoist_nil (n : Node) : n.hoist [] = n := by
  cases n <;> rfl

theorem hoist_directory (mode : Mode) (entries : List (String × Node)) (names : List String) :
    ∃ entries', hoist (.directory mode entries) names = .directory mode entries' := by
  cases names with
  | nil => exact ⟨entries, rfl⟩
  | cons name rest =>
      simp only [hoist]
      split
      · exact ⟨_, rfl⟩
      · exact ⟨_, rfl⟩

theorem hoist_cons {mode : Mode} {entries : List (String × Node)} {name : String} {n : Node}
    (h : entryNamed? entries name = some n) (rest : List String) :
    hoist (.directory mode entries) (name :: rest) =
      .directory mode ((name, n.hoist rest) :: entries.filter (·.1 != name)) := by
  simp only [hoist, h]

theorem entryNamed?_filter {entries : List (String × Node)} {name other : String}
    (h : name ≠ other) :
    entryNamed? (entries.filter (·.1 != name)) other = entryNamed? entries other := by
  induction entries with
  | nil => rfl
  | cons e rest ih =>
      obtain ⟨first, n⟩ := e
      by_cases hfirst : first = name
      · subst hfirst
        simpa [entryNamed?_cons, h] using ih
      · simp [entryNamed?_cons, hfirst, ih]

theorem wellFormedIn_filter {entries : List (String × Node)} (keep : String × Node → Bool)
    (h : wellFormedIn entries = true) : wellFormedIn (entries.filter keep) = true := by
  induction entries with
  | nil => rfl
  | cons e rest ih =>
      obtain ⟨name, n⟩ := e
      obtain ⟨hname, hfresh, hn, hrest⟩ := wellFormedIn_cons.mp h
      rw [List.filter_cons]
      split
      · refine wellFormedIn_cons.mpr ⟨hname, fun hmem => hfresh ?_, hn, ih hrest⟩
        exact (List.filter_sublist.map _).subset hmem
      · exact ih hrest

theorem wellFormed_hoist {n : Node} (h : n.wellFormed = true) (names : List String) :
    (n.hoist names).wellFormed = true := by
  induction names generalizing n with
  | nil => simpa using h
  | cons name rest ih =>
      cases n with
      | directory mode entries =>
          have hentries : wellFormedIn entries = true := by simpa [wellFormed] using h
          cases hentry : entryNamed? entries name with
          | none => simpa only [hoist, hentry] using h
          | some n =>
              obtain ⟨hname, hn⟩ := wellFormed_of_mem hentries (mem_of_entryNamed? hentry)
              rw [hoist_cons hentry, wellFormed]
              refine wellFormedIn_cons.mpr ⟨hname, ?_, ih hn, wellFormedIn_filter _ hentries⟩
              simp
      | _ => exact h

theorem perm_hoist {entries : List (String × Node)} (h : wellFormedIn entries = true)
    {name : String} (hname : name ∈ entries.map (·.1)) :
    (entries.map (·.1)).Perm (name :: (entries.filter (·.1 != name)).map (·.1)) := by
  induction entries with
  | nil => simp at hname
  | cons e rest ih =>
      obtain ⟨first, n⟩ := e
      obtain ⟨-, hfresh, -, hrest⟩ := wellFormedIn_cons.mp h
      by_cases hfirst : first = name
      · subst hfirst
        have hothers : rest.filter (·.1 != first) = rest := by
          rw [List.filter_eq_self]
          intro e he
          simp only [bne_iff_ne, ne_eq]
          rintro rfl
          exact hfresh (List.mem_map_of_mem he)
        simp [hothers]
      · have hmem : name ∈ rest.map (·.1) := by
          rcases List.mem_cons.mp hname with heq | hmem
          · exact absurd heq.symm hfirst
          · exact hmem
        have hkept : (first != name) = true := by simpa using hfirst
        rw [show ((first, n) :: rest).filter (·.1 != name) =
          (first, n) :: rest.filter (·.1 != name) from List.filter_cons_of_pos hkept]
        exact ((ih hrest hmem).cons first).trans (.swap name first _)

theorem hoist_resembles {n : Node} (h : n.wellFormed = true) (names : List String)
    (loc : Location) : Option.Rel Resembles (n.get? loc) ((n.hoist names).get? loc) := by
  induction names generalizing n loc with
  | nil => simpa using Resembles.rel_refl _
  | cons name rest ih =>
      cases n with
      | directory mode entries =>
          have hentries : wellFormedIn entries = true := by simpa [wellFormed] using h
          cases hentry : entryNamed? entries name with
          | none => simpa only [hoist, hentry] using Resembles.rel_refl _
          | some n =>
              have hmem := mem_of_entryNamed? hentry
              rw [hoist_cons hentry]
              cases loc with
              | nil =>
                  have hname : name ∈ entries.map (·.1) := List.mem_map_of_mem (f := (·.1)) hmem
                  exact .some (.directory (perm_hoist hentries hname))
              | cons first more =>
                  simp only [get?, entryNamed?_cons]
                  by_cases hfirst : name = first
                  · subst hfirst
                    simp only [hentry, if_true]
                    exact ih (wellFormed_of_mem hentries hmem).2 more
                  · simp only [if_neg hfirst, entryNamed?_filter hfirst]
                    exact Resembles.rel_refl _
      | _ => exact Resembles.rel_refl _

/-- The way is moved to the front of a directory by moving all that leads to the directory, too. -/
theorem get?_hoist (n : Node) (front rest : List String) :
    (n.hoist (front ++ rest)).get? front = (n.get? front).map (·.hoist rest) := by
  induction front generalizing n with
  | nil => simp [get?]
  | cons name front ih =>
      cases n with
      | directory mode entries =>
          cases hentry : entryNamed? entries name with
          | none => simp [hoist, get?, hentry]
          | some n =>
              rw [List.cons_append, hoist_cons hentry]
              simp [get?, entryNamed?_cons, hentry, ih]
      | _ => simp [hoist, get?]

end Node

namespace FileSystem

variable {fs fs' : FileSystem} {top : Path}

/-- With what bars a search at the front of all directories on the way, the search names it. -/
theorem Barred.below_hoist (hfs : fs.WellFormed) {directories : List String} {r : Refusal}
    {loc : Location} {mode : Mode} {entries : List (String × Node)}
    (h : fs.Barred top directories r) (hloc : fs.locate true top = .ok loc)
    (hnode : fs.node? loc = some (.directory mode entries)) :
    below top (Node.hoist (.directory mode entries) directories) =
      .error (top.under directories, r) := by
  induction directories generalizing top loc mode entries with
  | nil =>
      have hrefused := h.refused
      rw [Path.under_nil, list_eq (lookUp_eq hloc hnode)] at hrefused
      split at hrefused
      · cases hrefused
      · rename_i hread
        cases hrefused
        simp [below, hread]
  | cons name rest ih =>
      have hread : mode.read = true := by
        obtain ⟨names, hnames⟩ := h.listed [] (List.nil_prefix) (by simp)
        rw [Path.under_nil, list_eq (lookUp_eq hloc hnode)] at hnames
        split at hnames
        · assumption
        · cases hnames
      -- The entry of that name is a directory, for so is what lies at the end of the way.
      obtain ⟨m, es, hentry⟩ : ∃ m es, Node.entryNamed? entries name = some (.directory m es) := by
        rcases h.there with hnil | ⟨stop, m, es, hstop, hbelow⟩
        · cases hnil
        cases hloc.symm.trans hstop
        unfold node? at hnode hbelow
        rw [Node.get?_append, hnode, Option.bind_some, Node.get?] at hbelow
        cases hentry : Node.entryNamed? entries name with
        | none => simp [hentry] at hbelow
        | some n =>
            simp only [hentry] at hbelow
            obtain ⟨m, es, rfl⟩ := Node.isDirectory_of_get? hbelow
            exact ⟨m, es, rfl⟩
      have hmem := Node.mem_of_entryNamed? hentry
      have hgo := locate_child hfs hloc hnode hmem (by simp) true
      obtain ⟨es', hes'⟩ := Node.hoist_directory m es rest
      have hrefused : ∀ r', fs.list (top.child name) = .error r' → rest = [] ∧ r = r' := by
        intro r' herror
        by_cases hrest : rest = []
        · subst hrest
          exact ⟨rfl, Except.error.inj (h.refused.symm.trans herror)⟩
        · obtain ⟨names, hnames⟩ := h.listed [name] (by simp) (by simpa using Ne.symm hrest)
          exact absurd (hnames.symm.trans herror) (by simp)
      rw [Node.hoist_cons hentry, hes']
      simp only [below, hread, if_true, belowEntries]
      split
      · rename_i hlong
        rw [if_pos hlong] at hgo
        obtain ⟨rfl, rfl⟩ := hrefused _ (list_eq_error hgo)
        rfl
      rename_i hshort
      rw [if_neg hshort] at hgo
      split
      case isFalse hsearch =>
        rw [if_neg hsearch] at hgo
        obtain ⟨rfl, rfl⟩ := hrefused _ (list_eq_error hgo)
        rfl
      rename_i hsearch
      rw [if_pos hsearch] at hgo
      have hinner := ih (h.tail hloc hgo) hgo (node?_child hfs hnode hmem)
      rw [hes', Path.child_under, below] at hinner
      rw [hinner]

/-- Whatever bars a search, there is an order of the entries in which the search names it. -/
theorem Barred.exists_rearranged (hfs : fs.WellFormed) {directories : List String} {r : Refusal}
    (h : fs.Barred top directories r) :
    ∃ fs', fs'.WellFormed ∧ fs.Rearranged fs' ∧
      fs'.candidates top true = .error (listingStop r (top.under directories)) := by
  by_cases hthere : ∃ loc mode entries, fs.locate true top = .ok loc ∧
      fs.node? loc = some (.directory mode entries)
  case neg =>
    -- What is searched is no directory, and there are no entries to be put in another order.
    refine ⟨fs, hfs, .refl fs, ?_⟩
    obtain rfl : directories = [] := by
      rcases h.there with hnil | ⟨loc, mode, entries, hloc, hnode⟩
      · exact hnil
      unfold node? at hnode
      rw [Node.get?_append, Option.bind_eq_some_iff] at hnode
      obtain ⟨n, hn, hbelow⟩ := hnode
      obtain ⟨m, es, rfl⟩ := Node.isDirectory_of_get? hbelow
      exact absurd ⟨loc, m, es, hloc, hn⟩ hthere
    have hrefused := h.refused
    rw [Path.under_nil] at hrefused ⊢
    cases hlook : fs.lookUp true top with
    | error r' =>
        have herror : fs.list top = .error r' := by simp [list, hlook, bind, Except.bind]
        obtain rfl := Except.error.inj (hrefused.symm.trans herror)
        simp [candidates, listAll, hlook]
    | ok n =>
        cases n with
        | directory mode entries =>
            obtain ⟨loc, hloc, hnode⟩ := locate_of_lookUp hlook
            exact absurd ⟨loc, mode, entries, hloc, hnode⟩ hthere
        | _ =>
            have herror : fs.list top = .error .notDirectory := by
              simp [list, hlook, bind, Except.bind]
            obtain rfl := Except.error.inj (hrefused.symm.trans herror)
            simp [candidates, listAll, hlook, below]
  obtain ⟨loc, mode, entries, hloc, hnode⟩ := hthere
  have hrearranged : fs.Rearranged ⟨fs.root.hoist (loc ++ directories)⟩ :=
    fun place => Node.hoist_resembles hfs _ place
  refine ⟨_, Node.wellFormed_hoist hfs _, hrearranged, ?_⟩
  have hnode' : node? ⟨fs.root.hoist (loc ++ directories)⟩ loc =
      some (Node.hoist (.directory mode entries) directories) := by
    unfold node? at hnode ⊢
    rw [Node.get?_hoist, hnode, Option.map_some]
  have hlook := lookUp_eq ((hrearranged.locate_eq true top).trans hloc) hnode'
  simp only [candidates, listAll, if_true, hlook, h.below_hoist hfs hloc hnode]

end FileSystem

end YamlCheck
