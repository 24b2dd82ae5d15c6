import YamlCheck.FileSystem.Access

/-!
# Looking up the entries of a directory

In a file system whose directories give each name once, what is found at an entry of a directory is
decided by the directory alone: by its rights, by its entries and by the length of the path.
-/

namespace YamlCheck

namespace Path

def under (p : Path) (names : List String) : Path := { p with names := p.names ++ names }

@[simp] theorem under_nil (p : Path) : p.under [] = p := by simp [under]

@[simp] theorem child_under (p : Path) (name : String) (names : List String) :
    (p.child name).under names = p.under (name :: names) := by simp [under, child]

@[simp] theorem name_child (p : Path) (name : String) : (p.child name).name = name := by
  simp [Path.name, child]

end Path

namespace FileSystem

/-- Whether a directory can hold an entry with this name. -/
def isEntryName (name : String) : Bool :=
  Path.isName name && name != ".." && !name.toList.contains '/' && !name.toList.contains '\x00'
    && decide (byteLength name ≤ nameLimit)

end FileSystem

namespace Node

mutual

/-- Whether every directory of a tree gives each of its entries a name of its own. -/
def wellFormed : Node → Bool
  | .directory _ entries => wellFormedIn entries
  | _ => true

def wellFormedIn : List (String × Node) → Bool
  | [] => true
  | (name, n) :: rest =>
    FileSystem.isEntryName name && !(rest.map (·.1)).contains name && n.wellFormed
      && wellFormedIn rest

end

theorem wellFormedIn_cons {name : String} {n : Node} {rest : List (String × Node)} :
    wellFormedIn ((name, n) :: rest) = true ↔
      FileSystem.isEntryName name = true ∧ name ∉ rest.map (·.1) ∧ n.wellFormed = true ∧
        wellFormedIn rest = true := by
  simp [wellFormedIn, and_assoc]

theorem wellFormed_of_mem {entries : List (String × Node)} (h : wellFormedIn entries = true)
    {name : String} {n : Node} (hmem : (name, n) ∈ entries) :
    FileSystem.isEntryName name = true ∧ n.wellFormed = true := by
  induction entries with
  | nil => simp at hmem
  | cons e rest ih =>
      obtain ⟨hname, _, hn, hrest⟩ := wellFormedIn_cons.mp h
      rcases List.mem_cons.mp hmem with rfl | hmem
      · exact ⟨hname, hn⟩
      · exact ih hrest hmem

theorem entryNamed?_cons (e : String × Node) (entries : List (String × Node)) (name : String) :
    entryNamed? (e :: entries) name =
      if e.1 = name then some e.2 else entryNamed? entries name := by
  by_cases h : e.1 = name <;> simp [entryNamed?, h]

theorem entryNamed?_eq_of_mem {entries : List (String × Node)} (h : wellFormedIn entries = true)
    {name : String} {n : Node} (hmem : (name, n) ∈ entries) :
    entryNamed? entries name = some n := by
  induction entries with
  | nil => simp at hmem
  | cons e rest ih =>
      obtain ⟨_, hfresh, _, hrest⟩ := wellFormedIn_cons.mp h
      rcases List.mem_cons.mp hmem with rfl | hmem
      · simp [entryNamed?]
      · have hne : e.1 ≠ name := by
          rintro rfl
          exact hfresh (List.mem_map_of_mem (f := (·.1)) hmem)
        simpa [entryNamed?, hne] using ih hrest hmem

theorem mem_of_entryNamed? {entries : List (String × Node)} {name : String} {n : Node}
    (h : entryNamed? entries name = some n) : (name, n) ∈ entries := by
  simp only [entryNamed?, Option.map_eq_some_iff] at h
  obtain ⟨e, he, rfl⟩ := h
  have hname : e.1 = name := by simpa using List.find?_some he
  simpa [← hname] using List.mem_of_find?_eq_some he

theorem get?_append (n : Node) (loc rest : Location) :
    n.get? (loc ++ rest) = (n.get? loc).bind (·.get? rest) := by
  induction loc generalizing n with
  | nil => simp [get?]
  | cons name loc ih =>
      cases n with
      | directory mode entries =>
          simp only [List.cons_append, get?]
          cases entryNamed? entries name with
          | none => rfl
          | some m => exact ih m
      | _ => rfl

theorem wellFormed_get? {n m : Node} {loc : Location} (h : n.wellFormed = true)
    (hm : n.get? loc = some m) : m.wellFormed = true := by
  induction loc generalizing n with
  | nil =>
      obtain rfl : n = m := by simpa [get?] using hm
      exact h
  | cons name loc ih =>
      cases n with
      | directory mode entries =>
          simp only [get?] at hm
          cases hentry : entryNamed? entries name with
          | none => simp [hentry] at hm
          | some n =>
              simp only [hentry] at hm
              have hentries : wellFormedIn entries = true := by simpa [wellFormed] using h
              exact ih (wellFormed_of_mem hentries (mem_of_entryNamed? hentry)).2 hm
      | _ => simp [get?] at hm

end Node

namespace FileSystem

/-- A file system in which no directory gives a name twice, or a name that no path can ask for. -/
def WellFormed (fs : FileSystem) : Prop := fs.root.wellFormed = true

instance (fs : FileSystem) : Decidable fs.WellFormed := inferInstanceAs (Decidable (_ = true))

variable {fs : FileSystem}

/-- Whenever `f` comes to a location, `g` comes to it too on a longer way, and goes on from
there. -/
def Continues (fs : FileSystem) (f : Location → List String → Except Refusal Found)
    (g : Bool → Location → List String → Except Refusal Found) : Prop :=
  ∀ loc pieces stop, f loc pieces = .ok (.there stop) →
    ∃ left, ∀ followLast, ∀ rest ≠ [],
      g followLast loc (pieces ++ rest) = fs.walk followLast left stop rest

theorem walkWith_continues (links : Nat)
    {enter : Bool → Location → List String → Except Refusal Found}
    (hwalk : ∀ followLast, fs.walk followLast links = fs.walkWith followLast (enter followLast))
    (henter : Continues fs (enter true) enter) :
    Continues fs (fs.walkWith true (enter true)) fun followLast =>
      fs.walkWith followLast (enter followLast) := by
  intro loc pieces stop h
  induction pieces generalizing loc with
  | nil =>
      simp only [walkWith, Except.ok.injEq, Found.there.injEq] at h
      subst h
      exact ⟨links, fun followLast rest _ => by rw [hwalk]; rfl⟩
  | cons piece more ih =>
      simp only [walkWith, List.cons_append] at h ⊢
      cases hturn : fs.turn loc piece with
      | onward next =>
          simp only [hturn] at h ⊢
          exact ih next h
      | link target =>
          simp only [hturn, Bool.not_true, Bool.and_false, Bool.false_eq_true, ↓reduceIte] at h ⊢
          obtain ⟨left, hleft⟩ := henter _ _ stop h
          refine ⟨left, fun followLast rest hrest => ?_⟩
          rw [← hleft followLast rest hrest]
          simp [hrest]
      | vacant =>
          simp only [hturn] at h
          split at h <;> simp at h
      | refused r => simp [hturn] at h

/-- A path that goes on behind a path is followed from where that one leads to, with the links that
are left. -/
theorem walk_continues (links : Nat) :
    Continues fs (fs.walk true links) fun followLast => fs.walk followLast links := by
  induction links with
  | zero =>
      have hnone : Continues fs (fun _ _ => .error .tooManyLinks)
          fun _ _ _ => .error .tooManyLinks := by
        simp [Continues]
      exact walkWith_continues 0 (fun _ => rfl) hnone
  | succ links ih => exact walkWith_continues (links + 1) (fun _ => rfl) ih

theorem nulFree_of_isEntryName {name : String} (h : isEntryName name = true) :
    name.toList.contains '\x00' = false := by
  simp only [isEntryName, Bool.and_eq_true, Bool.not_eq_true'] at h
  exact h.1.2

/-- A path that leads to a location holds no forbidden character and is followed to it. -/
theorem locate_ok {p : Path} {loc : Location} (h : fs.locate true p = .ok loc) :
    p.names.any (fun name => name.toList.contains '\x00') = false ∧
      fs.walk true linkLimit [] p.names = .ok (.there loc) := by
  unfold locate find at h
  split at h <;> rename_i hfind
  · cases h
    split at hfind
    · simp at hfind
    · rename_i hnul
      split at hfind
      · simp at hfind
      · exact ⟨by simpa using hnul, hfind⟩
  · simp at h
  · simp at h

theorem turn_of_mem (hfs : fs.WellFormed) {loc : Location} {mode : Mode}
    {entries : List (String × Node)} (hnode : fs.node? loc = some (.directory mode entries))
    {name : String} {n : Node} (hmem : (name, n) ∈ entries) (hlink : ∀ target, n ≠ .link target) :
    fs.turn loc name = if mode.search then .onward (loc ++ [name]) else .refused .denied := by
  have hentries : Node.wellFormedIn entries = true := by
    simpa [Node.wellFormed] using Node.wellFormed_get? hfs hnode
  have hname := (Node.wellFormed_of_mem hentries hmem).1
  simp only [isEntryName, Path.isName, Bool.and_eq_true, bne_iff_ne, decide_eq_true_eq] at hname
  obtain ⟨⟨⟨⟨⟨hempty, hdot⟩, hup⟩, _⟩, _⟩, hlong⟩ := hname
  have hshort : ¬ nameLimit < byteLength name := by omega
  simp only [turn, hnode, beq_iff_eq, hempty, hdot, hup, hshort, ↓reduceIte,
    Node.entryNamed?_eq_of_mem hentries hmem]
  cases mode.search <;> cases n <;> simp_all

/-- Where the path of an entry leads that is no link. -/
theorem locate_child (hfs : fs.WellFormed) {p : Path} {loc : Location}
    (hloc : fs.locate true p = .ok loc) {mode : Mode} {entries : List (String × Node)}
    (hnode : fs.node? loc = some (.directory mode entries)) {name : String} {n : Node}
    (hmem : (name, n) ∈ entries) (hlink : ∀ target, n ≠ .link target) (followLast : Bool) :
    fs.locate followLast (p.child name) =
      if pathLimit < byteLength (p.child name).text then .error .nameTooLong
      else if mode.search then .ok (loc ++ [name]) else .error .denied := by
  obtain ⟨hnul, hwalk⟩ := locate_ok hloc
  obtain ⟨left, hleft⟩ := walk_continues linkLimit [] p.names loc hwalk
  have hentries : Node.wellFormedIn entries = true := by
    simpa [Node.wellFormed] using Node.wellFormed_get? hfs hnode
  have hname := nulFree_of_isEntryName (Node.wellFormed_of_mem hentries hmem).1
  have hchild : fs.walk followLast linkLimit [] (p.child name).names =
      if mode.search then .ok (.there (loc ++ [name])) else .error .denied := by
    have hgo : fs.walk followLast linkLimit [] (p.child name).names =
        fs.walk followLast left loc [name] := hleft followLast [name] (by simp)
    rw [hgo]
    cases left <;>
      simp only [walk, walkWith, turn_of_mem hfs hnode hmem hlink] <;>
      cases mode.search <;> rfl
  have hfree : (p.child name).names.any (fun name => name.toList.contains '\x00') = false := by
    simp only [Path.child, List.any_append, hnul, List.any_cons, hname, List.any_nil, Bool.or_false]
  unfold locate find
  simp only [hfree, Bool.false_eq_true, ↓reduceIte, hchild]
  by_cases hlong : pathLimit < byteLength (p.child name).text
  · simp only [hlong, ↓reduceIte]
  · cases mode.search <;> simp [hlong]

/-- The entry of a directory is the node one name further on. -/
theorem node?_snoc {loc : Location} {mode : Mode} {entries : List (String × Node)}
    (h : fs.node? loc = some (.directory mode entries)) (name : String) :
    fs.node? (loc ++ [name]) = Node.entryNamed? entries name := by
  unfold node? at h ⊢
  simp only [Node.get?_append, h, Option.bind_some, Node.get?]
  cases Node.entryNamed? entries name <;> rfl

theorem node?_child {loc : Location} {mode : Mode} {entries : List (String × Node)} {name : String}
    {n : Node} (hfs : fs.WellFormed) (hnode : fs.node? loc = some (.directory mode entries))
    (hmem : (name, n) ∈ entries) : fs.node? (loc ++ [name]) = some n := by
  have hentries : Node.wellFormedIn entries = true := by
    simpa [Node.wellFormed] using Node.wellFormed_get? hfs hnode
  rw [node?_snoc hnode, Node.entryNamed?_eq_of_mem hentries hmem]

end FileSystem

end YamlCheck
