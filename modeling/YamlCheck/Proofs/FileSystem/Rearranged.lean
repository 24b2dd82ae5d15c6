import YamlCheck.Proofs.FileSystem.Listing
import YamlCheck.Proofs.FileSystem.Walking

/-!
# The order of directory entries

No request but a listing shows in which order a directory keeps its entries.  Two file systems that
differ in nothing else lead every path to the same place, and their listings give the same names.
-/

namespace YamlCheck

/-- Two nodes that only differ in the order of entries and in what lies below them. -/
inductive Node.Resembles : Node → Node → Prop
  | same (n : Node) : Resembles n n
  | directory {mode : Mode} {entries entries' : List (String × Node)}
      (names : (entries.map (·.1)).Perm (entries'.map (·.1))) :
      Resembles (.directory mode entries) (.directory mode entries')

theorem Node.Resembles.symm {n n' : Node} (h : n.Resembles n') : n'.Resembles n := by
  cases h with
  | same => exact .same n
  | directory names => exact .directory names.symm

theorem Node.Resembles.rel_refl (n? : Option Node) : Option.Rel Resembles n? n? := by
  cases n? with
  | none => exact .none
  | some n => exact .some (.same n)

theorem Node.Resembles.isDirectory_eq {n n' : Node} (h : n.Resembles n') :
    n'.isDirectory = n.isDirectory := by
  cases h <;> rfl

theorem Node.Resembles.isFile_eq {n n' : Node} (h : n.Resembles n') : n'.isFile = n.isFile := by
  cases h <;> rfl

namespace FileSystem

/-- Whether two file systems hold the same at every location, but for the order of entries. -/
def Rearranged (fs fs' : FileSystem) : Prop :=
  ∀ loc, Option.Rel Node.Resembles (fs.node? loc) (fs'.node? loc)

variable {fs fs' : FileSystem}

theorem Rearranged.alike (h : fs.Rearranged fs') (loc : Location) :
    (fs.node? loc = none ∧ fs'.node? loc = none) ∨
      ∃ n n', fs.node? loc = some n ∧ fs'.node? loc = some n' ∧ n.Resembles n' := by
  have hrel := h loc
  generalize fs.node? loc = found at hrel ⊢
  generalize fs'.node? loc = found' at hrel ⊢
  cases hrel with
  | none => exact .inl ⟨rfl, rfl⟩
  | some hresembles => exact .inr ⟨_, _, rfl, rfl, hresembles⟩

theorem Rearranged.refl (fs : FileSystem) : fs.Rearranged fs :=
  fun loc => Node.Resembles.rel_refl (fs.node? loc)

theorem Rearranged.symm (h : fs.Rearranged fs') : fs'.Rearranged fs := by
  intro loc
  rcases h.alike loc with ⟨hnode, hnode'⟩ | ⟨n, n', hnode, hnode', hresembles⟩
  · rw [hnode, hnode']
    exact .none
  · rw [hnode, hnode']
    exact .some hresembles.symm

theorem Rearranged.directory (h : fs.Rearranged fs') {loc : Location} {mode : Mode}
    {entries : List (String × Node)} (hnode : fs.node? loc = some (.directory mode entries)) :
    ∃ entries', fs'.node? loc = some (.directory mode entries') ∧
      (entries.map (·.1)).Perm (entries'.map (·.1)) := by
  rcases h.alike loc with ⟨hnone, -⟩ | ⟨n, n', hsome, hnode', hresembles⟩
  · rw [hnode] at hnone
    cases hnone
  · rw [hnode] at hsome
    cases hsome
    cases hresembles with
    | same => exact ⟨entries, hnode', .refl _⟩
    | directory names => exact ⟨_, hnode', names⟩

theorem Rearranged.turn_eq (h : fs.Rearranged fs') (loc : Location) (piece : String) :
    fs'.turn loc piece = fs.turn loc piece := by
  unfold turn
  rcases h.alike loc with ⟨hnode, hnode'⟩ | ⟨n, n', hnode, hnode', hresembles⟩
  · rw [hnode, hnode']
  · cases n with
    | directory mode entries =>
        obtain ⟨entries', hsame, -⟩ := h.directory hnode
        simp only [hnode, hsame, ← node?_snoc hnode, ← node?_snoc hsame]
        rcases h.alike (loc ++ [piece]) with ⟨hentry, hentry'⟩ | ⟨m, m', hentry, hentry', halike⟩
        · rw [hentry, hentry']
        · rw [hentry, hentry']
          cases halike <;> rfl
    | _ =>
        cases hresembles
        rw [hnode, hnode']

theorem Rearranged.locate_eq (h : fs.Rearranged fs') (followLast : Bool) (p : Path) :
    fs'.locate followLast p = fs.locate followLast p :=
  locate_congr h.turn_eq followLast p

/-- The node that a path leads to is the same, but for the order of its entries. -/
theorem Rearranged.lookUp (h : fs.Rearranged fs') (followLast : Bool) (p : Path) :
    (∃ r, fs.lookUp followLast p = .error r ∧ fs'.lookUp followLast p = .error r) ∨
      ∃ n n', fs.lookUp followLast p = .ok n ∧ fs'.lookUp followLast p = .ok n' ∧
        n.Resembles n' := by
  simp only [FileSystem.lookUp, h.locate_eq, bind, Except.bind]
  cases fs.locate followLast p with
  | error r => exact .inl ⟨r, rfl, rfl⟩
  | ok loc =>
      rcases h.alike loc with ⟨hnode, hnode'⟩ | ⟨n, n', hnode, hnode', hresembles⟩
      · exact .inl ⟨.missing, by simp only [hnode], by simp only [hnode']⟩
      · exact .inr ⟨n, n', by simp only [hnode], by simp only [hnode'], hresembles⟩

theorem Rearranged.isDirectory_eq (h : fs.Rearranged fs') (p : Path) :
    fs'.isDirectory p = fs.isDirectory p := by
  unfold isDirectory isKind
  rcases h.lookUp true p with ⟨r, hlook, hlook'⟩ | ⟨n, n', hlook, hlook', hresembles⟩
  · simp only [hlook, hlook']
  · simp only [hlook, hlook', hresembles.isDirectory_eq]

theorem Rearranged.isFile_eq (h : fs.Rearranged fs') (p : Path) : fs'.isFile p = fs.isFile p := by
  unfold isFile isKind
  rcases h.lookUp true p with ⟨r, hlook, hlook'⟩ | ⟨n, n', hlook, hlook', hresembles⟩
  · simp only [hlook, hlook']
  · simp only [hlook, hlook', hresembles.isFile_eq]

theorem Rearranged.read_eq (h : fs.Rearranged fs') (p : Path) : fs'.read p = fs.read p := by
  unfold read
  rcases h.lookUp true p with ⟨r, hlook, hlook'⟩ | ⟨n, n', hlook, hlook', hresembles⟩
  · rw [hlook, hlook']
  · rw [hlook, hlook']
    cases hresembles <;> rfl

/-- Listings of one directory give the same names. -/
theorem Rearranged.list (h : fs.Rearranged fs') {p : Path} {names : List String}
    (hlist : fs.list p = .ok names) :
    ∃ names', fs'.list p = .ok names' ∧ names.Perm names' := by
  rcases h.lookUp true p with ⟨r, hlook, -⟩ | ⟨n, n', hlook, hlook', hresembles⟩
  · simp [FileSystem.list, hlook, bind, Except.bind] at hlist
  cases hresembles with
  | same =>
      refine ⟨names, ?_, .refl names⟩
      simpa only [FileSystem.list, hlook, hlook'] using hlist
  | directory hnames =>
      rw [list_eq hlook] at hlist
      rw [list_eq hlook']
      split at hlist
      · rename_i hread
        cases hlist
        exact ⟨_, if_pos hread, hnames⟩
      · cases hlist

theorem Rearranged.list_error (h : fs.Rearranged fs') {p : Path} {r : Refusal}
    (hlist : fs.list p = .error r) : fs'.list p = .error r := by
  rcases h.lookUp true p with ⟨e, hlook, hlook'⟩ | ⟨n, n', hlook, hlook', hresembles⟩
  · simpa only [FileSystem.list, hlook, hlook'] using hlist
  cases hresembles with
  | same => simpa only [FileSystem.list, hlook, hlook'] using hlist
  | directory hnames =>
      rw [list_eq hlook] at hlist
      rw [list_eq hlook']
      split at hlist
      · cases hlist
      · rename_i hread
        rw [if_neg hread]
        exact hlist

end FileSystem

end YamlCheck
