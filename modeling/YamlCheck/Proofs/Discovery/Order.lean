import Mathlib.Data.Char
import Mathlib.Data.List.Lex
import YamlCheck.Proofs.Discovery.Scope

/-!
# The order of the candidates

Paths are compared name by name, and names character by character.  A listing gives no path twice,
so the candidates of a discovery, once put in order, are strictly increasing.
-/

namespace YamlCheck

namespace Path

/-- The characters of the names of a path, outermost name first. -/
def letters (p : Path) : List (List Char) := p.names.map String.toList

/-- The characters of all that a path is compared by. -/
def key (p : Path) : List (List Char) := p.sortKey.map String.toList

theorem textBefore_iff (as bs : List Char) : textBefore as bs = true ↔ as < bs := by
  induction as generalizing bs with
  | nil => cases bs <;> simp [textBefore]
  | cons a as ih =>
      cases bs with
      | nil => simp [textBefore]
      | cons b bs => simp [textBefore, ih, List.cons_lt_cons_iff]

theorem namesBefore_iff (as bs : List String) :
    namesBefore as bs = true ↔ as.map String.toList < bs.map String.toList := by
  induction as generalizing bs with
  | nil => cases bs <;> simp [namesBefore]
  | cons a as ih =>
      cases bs with
      | nil => simp [namesBefore]
      | cons b bs =>
          simp [namesBefore, ih, textBefore_iff, List.cons_lt_cons_iff, String.toList_inj]

theorem before_iff (p q : Path) : p.before q = true ↔ p.key < q.key :=
  namesBefore_iff p.sortKey q.sortKey

/-- Paths from one root are compared by their names. -/
theorem key_lt_key_iff {p q : Path} (h : p.root = q.root) :
    p.key < q.key ↔ p.letters < q.letters := by
  unfold key sortKey letters
  rw [h]
  cases q.root <;> simp

theorem eq_of_letters {p q : Path} (root : p.root = q.root) (h : p.letters = q.letters) :
    p = q := by
  have hnames : p.names = q.names :=
    (List.map_inj_right fun _ _ => String.toList_inj.mp).mp h
  cases p
  cases q
  simp_all

theorem notAfter_iff (p q : Path) : NotAfter p q ↔ p.key ≤ q.key := by
  rw [NotAfter, Bool.eq_false_iff, ne_eq, before_iff, Std.not_lt]

instance : Std.Total NotAfter where
  total p q := by
    rw [notAfter_iff, notAfter_iff]
    exact Std.le_total

instance : IsTrans Path NotAfter where
  trans p q r hpq hqr := by
    rw [notAfter_iff] at hpq hqr ⊢
    exact Std.le_trans hpq hqr

theorem sort_pairwise (ps : List Path) : (sort ps).Pairwise fun a b => a.key ≤ b.key := by
  rw [sort_eq_insertionSort]
  exact (List.pairwise_insertionSort NotAfter ps).imp fun h => (notAfter_iff _ _).mp h

/-- Whether some paths are listed in strictly increasing order of their names. -/
def StrictlySorted (ps : List Path) : Prop := ps.Pairwise fun p q => p.letters < q.letters

theorem StrictlySorted.nodup {ps : List Path} (h : StrictlySorted ps) : ps.Nodup := by
  refine List.Pairwise.imp ?_ h
  rintro p q hlt rfl
  exact Std.lt_irrefl hlt

/-- Different paths from one root are strictly increasing once they are put in order. -/
theorem strictlySorted_sort {ps : List Path} {r : Root} (nodup : ps.Nodup)
    (root : ∀ p ∈ ps, p.root = r) : StrictlySorted (sort ps) := by
  have hsorted := (sort_pairwise ps).and ((sort_perm ps).nodup_iff.mpr nodup)
  refine hsorted.imp_of_mem ?_
  intro p q hp hq ⟨hle, hne⟩
  have hroot : p.root = q.root := by
    rw [root p ((sort_perm ps).mem_iff.mp hp), root q ((sort_perm ps).mem_iff.mp hq)]
  rw [← key_lt_key_iff hroot]
  apply Std.lt_of_le_of_ne hle
  intro hkey
  have hpq : p.letters ≤ q.letters := by
    rw [← Std.not_lt, ← key_lt_key_iff hroot.symm, hkey]
    exact Std.lt_irrefl
  have hqp : q.letters ≤ p.letters := by
    rw [← Std.not_lt, ← key_lt_key_iff hroot, hkey]
    exact Std.lt_irrefl
  exact hne (eq_of_letters hroot (Std.le_antisymm hpq hqp))

/-- Two lists in strictly increasing order with the same paths are one list. -/
theorem StrictlySorted.eq_of_mem_iff {ps qs : List Path} (hps : StrictlySorted ps)
    (hqs : StrictlySorted qs) (h : ∀ p, p ∈ ps ↔ p ∈ qs) : ps = qs := by
  refine List.Perm.eq_of_pairwise ?_ hps hqs
    ((List.perm_ext_iff_of_nodup hps.nodup hqs.nodup).mpr h)
  intro p q _ _ hpq hqp
  exact absurd (Std.lt_trans hpq hqp) Std.lt_irrefl

/-- Whether a path lies below another one. -/
def Inside (q p : Path) : Prop := ∃ name names, q = p.under (name :: names)

theorem Inside.root_eq {p q : Path} (h : q.Inside p) : q.root = p.root := by
  obtain ⟨name, names, rfl⟩ := h
  rfl

theorem Inside.not_child {p q : Path} {name : String} (h : q.Inside (p.child name)) :
    q ≠ p.child name := by
  rintro rfl
  obtain ⟨name', names, h⟩ := h
  have hlength := congrArg (·.names.length) h
  simp [under] at hlength

end Path

namespace FileSystem

/-- The paths below some of a directory's entries, none of them twice. -/
structure ListsOnce (p : Path) (names : List String) (ps : List Path) : Prop where
  nodup : ps.Nodup
  inside : ∀ q ∈ ps, ∃ name ∈ names, ∃ more, q = p.under (name :: more)

theorem ListsOnce.nil (p : Path) : ListsOnce p [] [] := ⟨.nil, by simp⟩

theorem ListsOnce.cons {p : Path} {name : String} {names : List String} {inner others : List Path}
    (fresh : name ∉ names) (first : inner.Nodup ∧ ∀ q ∈ inner, q.Inside (p.child name))
    (rest : ListsOnce p names others) :
    ListsOnce p (name :: names) (p.child name :: (inner ++ others)) := by
  have hname : ∀ q ∈ others, ∀ more, q ≠ p.under (name :: more) := by
    rintro q hq more rfl
    obtain ⟨name', hmem, more', hsame⟩ := rest.inside _ hq
    simp only [Path.under, Path.mk.injEq, true_and, List.append_cancel_left_eq,
      List.cons.injEq] at hsame
    exact fresh (hsame.1 ▸ hmem)
  constructor
  · refine List.nodup_cons.mpr ⟨?_, List.nodup_append.mpr ⟨first.1, rest.nodup, ?_⟩⟩
    · intro hmem
      rcases List.mem_append.mp hmem with hinner | hothers
      · exact (first.2 _ hinner).not_child rfl
      · exact hname _ hothers [] rfl
    · rintro q hq q' hq' rfl
      obtain ⟨name', names', rfl⟩ := first.2 q hq
      exact hname _ hq' (name' :: names') (Path.child_under ..)
  · intro q hq
    rcases List.mem_cons.mp hq with rfl | hq
    · exact ⟨name, by simp, [], rfl⟩
    rcases List.mem_append.mp hq with hinner | hothers
    · obtain ⟨name', names', rfl⟩ := first.2 q hinner
      exact ⟨name, by simp, name' :: names', Path.child_under ..⟩
    · obtain ⟨name', hmem, more, hq⟩ := rest.inside q hothers
      exact ⟨name', by simp [hmem], more, hq⟩

theorem listsOnce_belowEntries {p : Path} {searchable : Bool} {entries : List (String × Node)}
    (trees : ∀ name m es, (name, .directory m es) ∈ entries → ∀ inner,
      below (p.child name) (.directory m es) = .ok inner →
      inner.Nodup ∧ ∀ q ∈ inner, q.Inside (p.child name))
    (wellFormed : Node.wellFormedIn entries = true) {ps : List Path}
    (h : belowEntries p searchable entries = .ok ps) : ListsOnce p (entries.map (·.1)) ps := by
  induction entries generalizing ps with
  | nil =>
      obtain rfl : [] = ps := by simpa [belowEntries] using h
      exact .nil p
  | cons e rest ih =>
      obtain ⟨name, n⟩ := e
      obtain ⟨-, hfresh, -, hrest⟩ := Node.wellFormedIn_cons.mp wellFormed
      have hothers := fun others => @ih (fun name m es hmem => trees name m es (by simp [hmem]))
        hrest others
      -- A directory is listed before the entries that follow; any other entry is only named.
      have hinner : ∃ inner others, (inner.Nodup ∧ ∀ q ∈ inner, q.Inside (p.child name)) ∧
          belowEntries p searchable rest = .ok others ∧ ps = p.child name :: (inner ++ others) := by
        cases n with
        | directory m es =>
            simp only [belowEntries] at h
            split at h
            · cases h
            split at h
            · split at h
              · rename_i inner others hbelow hbeside
                cases h
                exact ⟨inner, others, trees name m es (by simp) inner hbelow, hbeside, rfl⟩
              · cases h
              · cases h
            · cases h
        | _ =>
            simp only [belowEntries] at h
            cases hbeside : belowEntries p searchable rest with
            | error e => simp [hbeside, Except.map] at h
            | ok others =>
                simp only [hbeside, Except.map, Except.ok.injEq] at h
                exact ⟨[], others, ⟨.nil, by simp⟩, rfl, h.symm⟩
      obtain ⟨inner, others, hfirst, hbeside, rfl⟩ := hinner
      exact .cons hfresh hfirst (hothers others hbeside)

/-- A listing of a tree gives no path twice, and only paths below the tree. -/
theorem below_nodup (mode : Mode) (entries : List (String × Node))
    (wellFormed : Node.wellFormedIn entries = true) {p : Path} {ps : List Path}
    (h : below p (.directory mode entries) = .ok ps) :
    ps.Nodup ∧ ∀ q ∈ ps, q.Inside p := by
  simp only [below] at h
  split at h
  · have honce := listsOnce_belowEntries
      (fun name m es hmem inner hinner => below_nodup m es
        (by simpa [Node.wellFormed] using (Node.wellFormed_of_mem wellFormed hmem).2) hinner)
      wellFormed h
    refine ⟨honce.nodup, ?_⟩
    intro q hq
    obtain ⟨name, -, more, rfl⟩ := honce.inside q hq
    exact ⟨name, more, rfl⟩
  · cases h
termination_by sizeOf entries
decreasing_by
  have := List.sizeOf_lt_of_mem hmem
  simp at this ⊢
  omega

variable {fs : FileSystem}

theorem entries_wellFormed_of_lookUp (hfs : fs.WellFormed) {p : Path} {mode : Mode}
    {entries : List (String × Node)} (h : fs.lookUp true p = .ok (.directory mode entries)) :
    Node.wellFormedIn entries = true := by
  obtain ⟨loc, -, hnode⟩ := locate_of_lookUp h
  simpa [Node.wellFormed] using Node.wellFormed_get? hfs hnode

theorem names_nodup {entries : List (String × Node)} (h : Node.wellFormedIn entries = true) :
    (entries.map (·.1)).Nodup := by
  induction entries with
  | nil => exact .nil
  | cons e rest ih =>
      obtain ⟨-, hfresh, -, hrest⟩ := Node.wellFormedIn_cons.mp h
      exact List.nodup_cons.mpr ⟨hfresh, ih hrest⟩

/-- A directory that can be listed is one. -/
theorem directory_of_list {p : Path} {names : List String} (h : fs.list p = .ok names) :
    ∃ mode entries, fs.lookUp true p = .ok (.directory mode entries) ∧
      names = entries.map (·.1) := by
  cases hlook : fs.lookUp true p with
  | error r => simp [list, hlook, bind, Except.bind] at h
  | ok n =>
      cases n with
      | directory mode entries =>
          rw [list_eq hlook] at h
          split at h
          · exact ⟨mode, entries, rfl, (Except.ok.inj h).symm⟩
          · cases h
      | _ => simp [list, hlook, bind, Except.bind] at h

/-- The candidates of a discovery are strictly increasing. -/
theorem candidates_sorted (hfs : fs.WellFormed) {top : Path} {recursive : Bool} {ps : List Path}
    (h : fs.candidates top recursive = .ok ps) : Path.StrictlySorted ps := by
  unfold candidates at h
  cases recursive with
  | true =>
      simp only [if_true] at h
      cases hall : fs.listAll top with
      | error e => simp [hall] at h
      | ok found =>
          simp only [hall, Except.ok.injEq] at h
          subst h
          unfold listAll at hall
          split at hall
          · rename_i n hlook
            cases n with
            | directory mode entries =>
                obtain ⟨hnodup, hinside⟩ :=
                  below_nodup mode entries (entries_wellFormed_of_lookUp hfs hlook) hall
                exact Path.strictlySorted_sort hnodup fun q hq => (hinside q hq).root_eq
            | _ => simp [below] at hall
          · cases hall
  | false =>
      simp only [Bool.false_eq_true, if_false] at h
      cases hlist : fs.list top with
      | error r => simp [hlist] at h
      | ok names =>
          simp only [hlist, Except.ok.injEq] at h
          subst h
          obtain ⟨mode, entries, hlook, rfl⟩ := directory_of_list hlist
          have hnodup := names_nodup (entries_wellFormed_of_lookUp hfs hlook)
          refine Path.strictlySorted_sort (r := top.root) ?_ ?_
          · refine List.Pairwise.map _ ?_ hnodup
            intro a b hne hsame
            exact hne (by simpa using congrArg Path.name hsame)
          · intro q hq
            obtain ⟨name, -, rfl⟩ := List.mem_map.mp hq
            rfl

end FileSystem

end YamlCheck
