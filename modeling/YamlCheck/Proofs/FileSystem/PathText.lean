import YamlCheck.Path

/-!
# Paths and their texts

A text is read as a path piece by piece, and a path is written down name by name.  A path that was
read from a text is read back from the text it is written as.
-/

namespace YamlCheck.Path

theorem pieces_slash (rest : List Char) :
    pieces ('/' :: rest) = ([], (pieces rest).1 :: (pieces rest).2) := by
  simp [pieces]

theorem allPieces_slash (rest : List Char) : allPieces ('/' :: rest) = "" :: allPieces rest := by
  rw [allPieces, pieces_slash]
  rfl

theorem pieces_append {name : List Char} (h : '/' ∉ name) (rest : List Char) :
    pieces (name ++ rest) = (name ++ (pieces rest).1, (pieces rest).2) := by
  induction name with
  | nil => rfl
  | cons c name ih =>
      obtain ⟨hc, hname⟩ := not_or.mp (mt List.mem_cons.mpr h)
      have hother : c ≠ '/' := fun heq => hc heq.symm
      simp [pieces, ih hname, hother]

theorem pieces_intercalate {name : List Char} {others : List (List Char)}
    (h : ∀ w ∈ name :: others, '/' ∉ w) :
    pieces (['/'].intercalate (name :: others)) = (name, others) := by
  induction others generalizing name with
  | nil =>
      have hname := pieces_append (h name (by simp)) []
      simpa [pieces] using hname
  | cons other others ih =>
      have hothers := ih fun w hw => h w (List.mem_cons_of_mem name hw)
      rw [List.intercalate_cons_cons, List.append_assoc, List.cons_append, List.nil_append,
        pieces_append (h name (by simp)), pieces_slash, hothers, List.append_nil]

/-- A text that is put together from names is taken apart into them. -/
theorem allPieces_intercalate {name : String} {names : List String}
    (h : ∀ other ∈ name :: names, '/' ∉ other.toList) :
    allPieces ("/".intercalate (name :: names)).toList = name :: names := by
  have hwords : ∀ w ∈ name.toList :: names.map String.toList, '/' ∉ w := by
    intro w hw
    rw [← List.map_cons, List.mem_map] at hw
    obtain ⟨other, hother, rfl⟩ := hw
    exact h other hother
  have htext : ("/".intercalate (name :: names)).toList =
      ['/'].intercalate (name.toList :: names.map String.toList) := by
    simp [String.toList_intercalate]
  rw [allPieces, htext, pieces_intercalate hwords]
  simp only [List.map_cons, List.map_map, String.ofList_toList, Function.comp_def, List.map_id']

theorem rootOf_slash {c : Char} {rest : List Char} (h : c ≠ '/') :
    rootOf ('/' :: c :: rest) = .slash := by
  simp [rootOf, h]

theorem mem_pieces {text w : List Char} (h : w ∈ (pieces text).1 :: (pieces text).2) :
    '/' ∉ w ∧ ∀ c ∈ w, c ∈ text := by
  induction text generalizing w with
  | nil =>
      obtain rfl : w = [] := by simpa [pieces] using h
      simp
  | cons c rest ih =>
      by_cases hslash : c = '/'
      · subst hslash
        rw [pieces_slash] at h
        rcases List.mem_cons.mp h with rfl | h
        · simp
        · exact ⟨(ih h).1, fun d hd => List.mem_cons_of_mem _ ((ih h).2 d hd)⟩
      · have hstep : pieces (c :: rest) = (c :: (pieces rest).1, (pieces rest).2) := by
          simp [pieces, hslash]
        rw [hstep] at h
        rcases List.mem_cons.mp h with rfl | h
        · obtain ⟨hnone, hmem⟩ := ih (List.mem_cons_self ..)
          refine ⟨by simp [hnone, Ne.symm hslash], fun d hd => ?_⟩
          rcases List.mem_cons.mp hd with rfl | hd
          · exact List.mem_cons_self ..
          · exact List.mem_cons_of_mem _ (hmem d hd)
        · obtain ⟨hnone, hmem⟩ := ih (List.mem_cons_of_mem _ h)
          exact ⟨hnone, fun d hd => List.mem_cons_of_mem _ (hmem d hd)⟩

/-- The pieces of a text hold none of its slashes, and no other characters than it holds. -/
theorem mem_allPieces {text : List Char} {piece : String} (h : piece ∈ allPieces text) :
    '/' ∉ piece.toList ∧ ∀ c ∈ piece.toList, c ∈ text := by
  obtain ⟨w, hw, rfl⟩ := List.mem_map.mp h
  rw [String.toList_ofList]
  exact mem_pieces hw

theorem nulFree_ofText {text : String} (h : '\x00' ∉ text.toList) :
    ∀ name ∈ (ofText text).names, '\x00' ∉ name.toList := fun _ hname hnul =>
  h ((mem_allPieces (List.mem_filter.mp hname).1).2 _ hnul)

/-! ## Reading a path back -/

/-- Whether a path is read back from its text: no name in it is lost or taken apart. -/
def Legible (p : Path) : Prop := ∀ name ∈ p.names, isName name = true ∧ '/' ∉ name.toList

theorem legible_ofText (text : String) : (ofText text).Legible := by
  intro name hname
  obtain ⟨hpiece, hkept⟩ := List.mem_filter.mp hname
  exact ⟨hkept, (mem_allPieces hpiece).1⟩

theorem rootOf_of_ne {c : Char} {rest : List Char} (h : c ≠ '/') : rootOf (c :: rest) = .here := by
  simp [rootOf, h]

theorem rootOf_twoSlashes {c : Char} {rest : List Char} (h : c ≠ '/') :
    rootOf ('/' :: '/' :: c :: rest) = .twoSlashes := by
  simp [rootOf, h]

/-- The root of a path is told by the slashes before its first name. -/
theorem rootOf_text (root : Root) {c : Char} {rest : List Char} (h : c ≠ '/') :
    rootOf (root.text.toList ++ c :: rest) = root := by
  cases root with
  | here => exact rootOf_of_ne h
  | slash => exact rootOf_slash h
  | twoSlashes => exact rootOf_twoSlashes h

theorem allPieces_rootText (root : Root) (rest : List Char) :
    (allPieces (root.text.toList ++ rest)).filter isName = (allPieces rest).filter isName := by
  have hnone : isName "" = false := rfl
  cases root with
  | here => rfl
  | slash =>
      change (allPieces ('/' :: rest)).filter isName = _
      simp [allPieces_slash, hnone]
  | twoSlashes =>
      change (allPieces ('/' :: '/' :: rest)).filter isName = _
      simp [allPieces_slash, hnone]

theorem Legible.ofText_text {p : Path} (h : p.Legible) : ofText p.text = p := by
  obtain ⟨root, names⟩ := p
  cases names with
  | nil => cases root <;> rfl
  | cons name names =>
      have htext : (text ⟨root, name :: names⟩).toList =
          root.text.toList ++ ("/".intercalate (name :: names)).toList := by
        cases root <;> simp [text]
      obtain ⟨hname, hslash⟩ := h name (by simp)
      -- The first name is not empty, and the slashes end before it.
      obtain ⟨c, rest, hc⟩ : ∃ c rest, name.toList = c :: rest := by
        cases hcs : name.toList with
        | nil =>
            obtain rfl : name = "" := String.toList_inj.mp hcs
            cases hname
        | cons c rest => exact ⟨c, rest, rfl⟩
      have hfirst : ∃ more, ("/".intercalate (name :: names)).toList = c :: more := by
        rw [String.toList_intercalate, List.map_cons, hc]
        cases names <;> exact ⟨_, rfl⟩
      obtain ⟨more, hmore⟩ := hfirst
      have hroot : rootOf (text ⟨root, name :: names⟩).toList = root := by
        rw [htext, hmore]
        apply rootOf_text
        rintro rfl
        exact hslash (by simp [hc])
      have hnames : (allPieces (text ⟨root, name :: names⟩).toList).filter isName =
          name :: names := by
        rw [htext, allPieces_rootText, allPieces_intercalate fun other hother => (h other hother).2]
        exact List.filter_eq_self.mpr fun other hother => (h other hother).1
      rw [ofText, hroot, hnames]

end YamlCheck.Path
