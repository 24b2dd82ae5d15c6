import YamlCheck.Proofs.FileSystem.Listing

/-!
# Why requests are refused

A path is refused for a character that no name can have, or for what it meets on its way, and then
the operating system has an error for it.  The question of what kind a path leads to is only refused
if the path is out of reach or too long; otherwise a refusal means that nothing is there.
-/

namespace YamlCheck.FileSystem

variable {fs : FileSystem}

/-- A refusal that a path can meet on the way: nothing is there, or it is out of reach. -/
def OnTheWay (r : Refusal) : Prop :=
  r ∈ [.missing, .notDirectory, .tooManyLinks, .denied, .nameTooLong]

theorem turn_refusal {loc : Location} {piece : String} {r : Refusal}
    (h : fs.turn loc piece = .refused r) : OnTheWay r := by
  unfold turn at h
  split at h
  · split at h
    · cases h
    split at h
    · cases h
      simp [OnTheWay]
    split at h
    · cases h
    split at h
    · cases h
    split at h
    · cases h
      simp [OnTheWay]
    split at h <;> cases h
  · cases h
    simp [OnTheWay]
  · cases h
    simp [OnTheWay]

theorem walkWith_refusal {followLast : Bool}
    {enter : Location → List String → Except Refusal Found}
    (henter : ∀ loc pieces r, enter loc pieces = .error r → OnTheWay r)
    {loc : Location} {pieces : List String} {r : Refusal}
    (h : fs.walkWith followLast enter loc pieces = .error r) : OnTheWay r := by
  induction pieces generalizing loc with
  | nil => cases h
  | cons piece rest ih =>
      unfold walkWith at h
      cases hturn : fs.turn loc piece with
      | onward next =>
          rw [hturn] at h
          exact ih h
      | link target =>
          simp only [hturn] at h
          split at h
          · cases h
          · exact henter _ _ r h
      | vacant =>
          simp only [hturn] at h
          split at h <;> cases h
          simp [OnTheWay]
      | refused r' =>
          simp only [hturn] at h
          cases h
          exact turn_refusal hturn

theorem walk_refusal {followLast : Bool} {links : Nat} {loc : Location} {pieces : List String}
    {r : Refusal} (h : fs.walk followLast links loc pieces = .error r) : OnTheWay r := by
  induction links generalizing loc pieces r with
  | zero =>
      refine walkWith_refusal (fun _ _ r hnone => ?_) h
      cases hnone
      simp [OnTheWay]
  | succ links ih => exact walkWith_refusal (fun _ _ _ hwalk => ih hwalk) h

theorem lookUp_refusal {followLast : Bool} {p : Path} {r : Refusal}
    (h : fs.lookUp followLast p = .error r) :
    r = .nulInName ∧ (∃ name ∈ p.names, '\x00' ∈ name.toList) ∨ OnTheWay r := by
  simp only [lookUp, locate, find, bind, Except.bind] at h
  split at h
  · rename_i r' hlocate
    cases h
    split at hlocate
    · cases hlocate
    · cases hlocate
      simp [OnTheWay]
    · rename_i hfind
      cases hlocate
      split at hfind
      · rename_i hnul
        cases hfind
        exact .inl ⟨rfl, by simpa using hnul⟩
      split at hfind
      · cases hfind
        simp [OnTheWay]
      · exact .inr (walk_refusal hfind)
  · split at h <;> cases h
    simp [OnTheWay]

/-- A listing is refused by the operating system, if the path can be asked for at all. -/
theorem list_refusal {p : Path} {r : Refusal} (hnul : ∀ name ∈ p.names, '\x00' ∉ name.toList)
    (h : fs.list p = .error r) : OnTheWay r := by
  cases hlook : fs.lookUp true p with
  | error r' =>
      obtain rfl : r' = r := by simpa [list, hlook, bind, Except.bind] using h
      rcases lookUp_refusal hlook with ⟨-, name, hname, hmem⟩ | hr
      · exact absurd hmem (hnul name hname)
      · exact hr
  | ok n =>
      cases n with
      | directory mode entries =>
          rw [list_eq hlook] at h
          split at h <;> cases h
          simp [OnTheWay]
      | _ =>
          obtain rfl : Refusal.notDirectory = r := by
            simpa [list, hlook, bind, Except.bind] using h
          simp [OnTheWay]

theorem OnTheWay.exists_system {r : Refusal} (h : OnTheWay r) (p : Path) :
    ∃ e, r.incident p = .system e ∧ e.file? = some (Text.Letters.ofText p.text) := by
  simp only [OnTheWay, List.mem_cons, List.not_mem_nil, or_false] at h
  rcases h with rfl | rfl | rfl | rfl | rfl <;> exact ⟨_, rfl, rfl⟩

/-! ## Questions about paths -/

theorem isKind_eq_error_iff {kind : Node → Bool} {p : Path} {i : Incident} :
    fs.isKind kind p = .error i ↔
      ∃ r, (r = .denied ∨ r = .nameTooLong) ∧ fs.lookUp true p = .error r ∧ i = r.incident p := by
  unfold isKind
  cases hlook : fs.lookUp true p with
  | ok n => simp
  | error r =>
      have hr : r = .nulInName ∨ OnTheWay r := (lookUp_refusal hlook).imp And.left id
      simp only [OnTheWay, List.mem_cons, List.not_mem_nil, or_false] at hr
      rcases hr with rfl | rfl | rfl | rfl | rfl | rfl <;>
        simp [Refusal.meansAbsent, eq_comm]

theorem lookUp_of_isFile {p : Path} (h : fs.isFile p = .ok true) :
    ∃ mode bytes, fs.lookUp true p = .ok (.file mode bytes) := by
  unfold isFile isKind at h
  cases hlook : fs.lookUp true p with
  | error r =>
      simp only [hlook] at h
      split at h <;> cases h
  | ok n =>
      cases n with
      | file mode bytes => exact ⟨mode, bytes, rfl⟩
      | _ => simp [hlook, Node.isFile] at h

theorem read_eq {p : Path} {mode : Mode} {bytes : List UInt8}
    (h : fs.lookUp true p = .ok (.file mode bytes)) :
    fs.read p = if mode.read then .ok bytes else .error .denied := by
  simp only [read, h, bind, Except.bind]

end YamlCheck.FileSystem
