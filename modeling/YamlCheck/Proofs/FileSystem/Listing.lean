import YamlCheck.Discovery
import YamlCheck.Proofs.FileSystem.Lookup

/-!
# Listing directories

Listing all that is below a directory goes through its tree once.  It comes to the same as listing
every directory of the tree by its path: the walk fails exactly if one of them cannot be listed, and
otherwise finds exactly the entries that they list.
-/

namespace YamlCheck

namespace Node

theorem isDirectory_of_get? {n : Node} {loc : Location} {mode : Mode}
    {entries : List (String × Node)} (h : n.get? loc = some (.directory mode entries)) :
    ∃ m es, n = .directory m es := by
  cases n with
  | directory m es => exact ⟨m, es, rfl⟩
  | _ => cases loc <;> simp [get?] at h

end Node

namespace FileSystem

variable {fs : FileSystem}

theorem lookUp_eq {p : Path} {loc : Location} {n : Node} {followLast : Bool}
    (hloc : fs.locate followLast p = .ok loc) (hnode : fs.node? loc = some n) :
    fs.lookUp followLast p = .ok n := by
  simp [lookUp, bind, Except.bind, hloc, hnode]

theorem list_eq {p : Path} {mode : Mode} {entries : List (String × Node)}
    (h : fs.lookUp true p = .ok (.directory mode entries)) :
    fs.list p = if mode.read then .ok (entries.map (·.1)) else .error .denied := by
  simp only [list, h, bind, Except.bind]

theorem list_eq_error {p : Path} {r : Refusal} (h : fs.locate true p = .error r) :
    fs.list p = .error r := by
  simp [list, lookUp, bind, Except.bind, h]

/-- A listing of some directories that also gives some paths of its own: either each of them can be
listed, and it gives their entries, or it names one that cannot be listed, and why. -/
def Surveys (fs : FileSystem) (directories own : Path → Prop) :
    Except (Path × Refusal) (List Path) → Prop
  | .ok ps =>
    (∀ d, directories d → ∃ names, fs.list d = .ok names) ∧
      ∀ q, q ∈ ps ↔ own q ∨
        ∃ d names name, directories d ∧ fs.list d = .ok names ∧ name ∈ names ∧ q = d.child name
  | .error (d, r) => directories d ∧ fs.list d = .error r

theorem Surveys.congr {directories directories' own own' : Path → Prop}
    {result : Except (Path × Refusal) (List Path)} (h : Surveys fs directories own result)
    (hd : ∀ d, directories d ↔ directories' d) (ho : ∀ q, own q ↔ own' q) :
    Surveys fs directories' own' result := by
  obtain rfl : directories = directories' := funext fun d => propext (hd d)
  obtain rfl : own = own' := funext fun q => propext (ho q)
  exact h

theorem Surveys.of_error {directories directories' own own' : Path → Prop} {e : Path × Refusal}
    (h : Surveys fs directories own (.error e)) (sub : ∀ d, directories d → directories' d) :
    Surveys fs directories' own' (.error e) :=
  ⟨sub e.1 h.1, h.2⟩

theorem Surveys.both {directories directories' own own' : Path → Prop} {ps ps' : List Path}
    (h : Surveys fs directories own (.ok ps)) (h' : Surveys fs directories' own' (.ok ps')) :
    Surveys fs (fun d => directories d ∨ directories' d) (fun q => own q ∨ own' q)
      (.ok (ps ++ ps')) := by
  refine ⟨fun d hd => hd.elim (h.1 d) (h'.1 d), fun q => ?_⟩
  rw [List.mem_append, h.2 q, h'.2 q]
  constructor
  · rintro ((hown | ⟨d, names, name, hd, hname⟩) | (hown | ⟨d, names, name, hd, hname⟩))
    · exact .inl (.inl hown)
    · exact .inr ⟨d, names, name, .inl hd, hname⟩
    · exact .inl (.inr hown)
    · exact .inr ⟨d, names, name, .inr hd, hname⟩
  · rintro ((hown | hown) | ⟨d, names, name, hd | hd, hname⟩)
    · exact .inl (.inl hown)
    · exact .inr (.inl hown)
    · exact .inl (.inr ⟨d, names, name, hd, hname⟩)
    · exact .inr (.inr ⟨d, names, name, hd, hname⟩)

theorem Surveys.cons {directories own : Path → Prop} {result : Except (Path × Refusal) (List Path)}
    (h : Surveys fs directories own result) (p : Path) :
    Surveys fs directories (fun q => q = p ∨ own q) (result.map (p :: ·)) := by
  cases result with
  | error e => exact h
  | ok ps => exact ⟨h.1, fun q => by rw [List.mem_cons, h.2 q, or_assoc]⟩

/-- Paths that are the entries of one more directory are no paths of their own any more. -/
theorem Surveys.listed {directories : Path → Prop} {p : Path} {names : List String}
    {result : Except (Path × Refusal) (List Path)}
    (h : Surveys fs directories (fun q => ∃ name ∈ names, q = p.child name) result)
    (hlist : fs.list p = .ok names) :
    Surveys fs (fun d => d = p ∨ directories d) (fun _ => False) result := by
  cases result with
  | error e => exact h.of_error fun d hd => .inr hd
  | ok ps =>
      refine ⟨fun d hd => ?_, fun q => ?_⟩
      · rcases hd with rfl | hd
        · exact ⟨names, hlist⟩
        · exact h.1 d hd
      · rw [h.2 q, false_or]
        constructor
        · rintro (⟨name, hname, rfl⟩ | ⟨d, others, name, hd, hothers⟩)
          · exact ⟨p, names, name, .inl rfl, hlist, hname, rfl⟩
          · exact ⟨d, others, name, .inr hd, hothers⟩
        · rintro ⟨d, others, name, rfl | hd, hothers, hname, rfl⟩
          · obtain rfl : names = others := Except.ok.inj (hlist.symm.trans hothers)
            exact .inl ⟨name, hname, rfl⟩
          · exact .inr ⟨d, others, name, hd, hothers, hname, rfl⟩

/-- The directories of a tree at a path. -/
def DirectoriesOf (p : Path) (n : Node) (d : Path) : Prop :=
  ∃ names mode entries, n.get? names = some (.directory mode entries) ∧ d = p.under names

def DirectoriesIn (p : Path) (entries : List (String × Node)) (d : Path) : Prop :=
  ∃ name n, (name, n) ∈ entries ∧ DirectoriesOf (p.child name) n d

theorem directoriesOf_directory {p : Path} {mode : Mode} {entries : List (String × Node)}
    (h : Node.wellFormedIn entries = true) (d : Path) :
    DirectoriesOf p (.directory mode entries) d ↔ d = p ∨ DirectoriesIn p entries d := by
  constructor
  · rintro ⟨names, m, es, hget, rfl⟩
    cases names with
    | nil => exact .inl (by simp)
    | cons name names =>
        simp only [Node.get?] at hget
        cases hentry : Node.entryNamed? entries name with
        | none => simp [hentry] at hget
        | some n =>
            simp only [hentry] at hget
            exact .inr ⟨name, n, Node.mem_of_entryNamed? hentry, names, m, es, hget, by simp⟩
  · rintro (rfl | ⟨name, n, hmem, names, m, es, hget, rfl⟩)
    · exact ⟨[], mode, entries, rfl, by simp⟩
    · refine ⟨name :: names, m, es, ?_, by simp⟩
      simp only [Node.get?, Node.entryNamed?_eq_of_mem h hmem, hget]

theorem directoriesIn_cons {p : Path} {name : String} {n : Node} {rest : List (String × Node)}
    (d : Path) :
    DirectoriesIn p ((name, n) :: rest) d ↔
      DirectoriesOf (p.child name) n d ∨ DirectoriesIn p rest d := by
  constructor
  · rintro ⟨name', n', hmem, h⟩
    rcases List.mem_cons.mp hmem with heq | hmem
    · cases heq
      exact .inl h
    · exact .inr ⟨name', n', hmem, h⟩
  · rintro (h | ⟨name', n', hmem, h⟩)
    · exact ⟨name, n, by simp, h⟩
    · exact ⟨name', n', by simp [hmem], h⟩

theorem not_directoriesOf {p : Path} {n : Node} (h : ∀ mode entries, n ≠ .directory mode entries)
    (d : Path) : ¬ DirectoriesOf p n d := by
  rintro ⟨names, mode, entries, hget, -⟩
  obtain ⟨m, es, rfl⟩ := Node.isDirectory_of_get? hget
  exact h m es rfl

/-- A listing of the trees of some of a directory's entries surveys the directories of those trees
and gives the entries themselves, if a listing of each tree alone surveys its directories. -/
theorem surveys_belowEntries (hfs : fs.WellFormed) {p : Path} {loc : Location}
    (hloc : fs.locate true p = .ok loc) {mode : Mode} {all : List (String × Node)}
    (hnode : fs.node? loc = some (.directory mode all))
    (htrees : ∀ name m es, (name, .directory m es) ∈ all →
      fs.locate true (p.child name) = .ok (loc ++ [name]) →
      Surveys fs (DirectoriesOf (p.child name) (.directory m es)) (fun _ => False)
        (below (p.child name) (.directory m es)))
    (entries : List (String × Node)) (hall : ∀ e ∈ entries, e ∈ all) :
    Surveys fs (DirectoriesIn p entries) (fun q => ∃ e ∈ entries, q = p.child e.1)
      (belowEntries p mode.search entries) := by
  induction entries with
  | nil => simp [belowEntries, Surveys, DirectoriesIn]
  | cons e rest ih =>
      obtain ⟨name, n⟩ := e
      have hmem : (name, n) ∈ all := hall _ (by simp)
      have hrest := ih fun e he => hall e (by simp [he])
      by_cases hdirectory : ∃ m es, n = .directory m es
      · obtain ⟨m, es, rfl⟩ := hdirectory
        have hself : DirectoriesIn p ((name, .directory m es) :: rest) (p.child name) :=
          (directoriesIn_cons _).mpr (.inl ⟨[], m, es, rfl, by simp⟩)
        have hgo := locate_child hfs hloc hnode hmem (by simp) true
        simp only [belowEntries]
        by_cases hlong : pathLimit < byteLength (p.child name).text
        · simp only [hlong, ↓reduceIte] at hgo ⊢
          exact ⟨hself, list_eq_error hgo⟩
        simp only [hlong, ↓reduceIte] at hgo ⊢
        cases hsearch : mode.search with
        | false =>
            simp only [hsearch, Bool.false_eq_true, ↓reduceIte] at hgo ⊢
            exact ⟨hself, list_eq_error hgo⟩
        | true =>
            simp only [hsearch, ↓reduceIte] at hgo hrest ⊢
            have htree := htrees name m es hmem hgo
            cases hinner : below (p.child name) (.directory m es) with
            | error err =>
                rw [hinner] at htree
                exact htree.of_error fun d hd => (directoriesIn_cons d).mpr (.inl hd)
            | ok inner =>
                cases hothers : belowEntries p true rest with
                | error err =>
                    rw [hothers] at hrest
                    exact hrest.of_error fun d hd => (directoriesIn_cons d).mpr (.inr hd)
                | ok others =>
                    rw [hinner] at htree
                    rw [hothers] at hrest
                    exact ((htree.both hrest).cons (p.child name)).congr
                      (fun d => (directoriesIn_cons d).symm) fun q => by simp
      · have hskip : ∀ d, DirectoriesIn p ((name, n) :: rest) d ↔ DirectoriesIn p rest d := by
          intro d
          have hnot : ¬ DirectoriesOf (p.child name) n d :=
            not_directoriesOf (fun m es h => hdirectory ⟨m, es, h⟩) d
          simp [directoriesIn_cons, hnot]
        have hstep : belowEntries p mode.search ((name, n) :: rest) =
            (belowEntries p mode.search rest).map (p.child name :: ·) := by
          cases n with
          | directory m es => exact absurd ⟨m, es, rfl⟩ hdirectory
          | _ => simp only [belowEntries]
        rw [hstep]
        exact (hrest.cons (p.child name)).congr (fun d => (hskip d).symm) fun q => by simp

theorem surveys_below (hfs : fs.WellFormed) (mode : Mode) (entries : List (String × Node))
    {p : Path} {loc : Location} (hloc : fs.locate true p = .ok loc)
    (hnode : fs.node? loc = some (.directory mode entries)) :
    Surveys fs (DirectoriesOf p (.directory mode entries)) (fun _ => False)
      (below p (.directory mode entries)) := by
  have hentries : Node.wellFormedIn entries = true := by
    simpa [Node.wellFormed] using Node.wellFormed_get? hfs hnode
  have htrees := surveys_belowEntries hfs hloc hnode
    (fun name m es hmem hgo => surveys_below hfs m es hgo (node?_child hfs hnode hmem))
    entries fun _ h => h
  have hlist := list_eq (lookUp_eq hloc hnode)
  simp only [below]
  cases hread : mode.read with
  | false =>
      simp only [hread, Bool.false_eq_true, ↓reduceIte] at hlist ⊢
      exact ⟨(directoriesOf_directory hentries p).mpr (.inl rfl), hlist⟩
  | true =>
      simp only [hread, ↓reduceIte] at hlist ⊢
      have hnames : Surveys fs (DirectoriesIn p entries)
          (fun q => ∃ name ∈ entries.map (·.1), q = p.child name)
          (belowEntries p mode.search entries) := htrees.congr (fun _ => Iff.rfl) (by simp)
      exact (hnames.listed hlist).congr (fun d => (directoriesOf_directory hentries d).symm)
        fun _ => Iff.rfl
termination_by sizeOf entries
decreasing_by
  have := List.sizeOf_lt_of_mem hmem
  simp at this ⊢
  omega

/-- The directories that a search lists: the one that a path leads to, and if the search is
recursive all directories below it that are reached without following a link. -/
def Scanned (fs : FileSystem) (top : Path) (recursive : Bool) (d : Path) : Prop :=
  d = top ∨ recursive = true ∧ ∃ n, fs.lookUp true top = .ok n ∧ DirectoriesOf top n d

theorem locate_of_lookUp {p : Path} {n : Node} (h : fs.lookUp true p = .ok n) :
    ∃ loc, fs.locate true p = .ok loc ∧ fs.node? loc = some n := by
  simp only [lookUp, bind, Except.bind] at h
  cases hloc : fs.locate true p with
  | error r => simp [hloc] at h
  | ok loc =>
      simp only [hloc] at h
      cases hnode : fs.node? loc with
      | none => simp [hnode] at h
      | some m =>
          simp only [hnode, Except.ok.injEq] at h
          exact ⟨loc, rfl, by rw [hnode, h]⟩

theorem surveys_listAll (hfs : fs.WellFormed) (top : Path) :
    Surveys fs (Scanned fs top true) (fun _ => False) (fs.listAll top) := by
  unfold listAll
  cases hlook : fs.lookUp true top with
  | error r => exact ⟨.inl rfl, by simp [list, hlook, bind, Except.bind]⟩
  | ok n =>
      cases n with
      | directory mode entries =>
          obtain ⟨loc, hloc, hnode⟩ := locate_of_lookUp hlook
          refine (surveys_below hfs mode entries hloc hnode).congr (fun d => ?_) fun _ => Iff.rfl
          constructor
          · exact fun hd => .inr ⟨rfl, _, hlook, hd⟩
          · rintro (rfl | ⟨-, n, hn, hd⟩)
            · exact ⟨[], mode, entries, rfl, by simp⟩
            · obtain rfl : _ = n := Except.ok.inj (hlook.symm.trans hn)
              exact hd
      | _ => exact ⟨.inl rfl, by simp [list, hlook, bind, Except.bind]⟩

theorem surveys_list (top : Path) :
    Surveys fs (Scanned fs top false) (fun _ => False)
      (match fs.list top with
        | .ok names => .ok (names.map top.child)
        | .error r => .error (top, r)) := by
  cases hlist : fs.list top with
  | error r => exact ⟨.inl rfl, hlist⟩
  | ok names =>
      simp only [Surveys, Scanned, Bool.false_eq_true, false_and, or_false, forall_eq, false_or,
        hlist, Except.ok.injEq, List.mem_map]
      exact ⟨⟨names, rfl⟩, fun q => by grind⟩

end FileSystem

end YamlCheck
