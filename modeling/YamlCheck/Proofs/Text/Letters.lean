import YamlCheck.Text.Quoted
import YamlCheck.Text.Utf8

/-!
# Texts without halves

A text without halves is one of characters, and the characters are its own.  Bytes are read as a
NUL character only if one of them is zero, and no other character has a zero byte.
-/

namespace YamlCheck.Text

/-! ## Texts without halves -/

section Lists

variable {α : Type} {f : Letter → Option α} {ls : List Letter}

theorem map_of_mapM {xs : List α} (h : ls.mapM f = some xs) : ls.map f = xs.map some := by
  induction ls generalizing xs with
  | nil =>
    obtain rfl : [] = xs := Option.some.inj h
    rfl
  | cons l rest ih =>
    rw [List.mapM_cons] at h
    obtain ⟨y, hy, h⟩ := Option.bind_eq_some_iff.mp h
    obtain ⟨ys, hys, h⟩ := Option.bind_eq_some_iff.mp h
    obtain rfl : y :: ys = xs := Option.some.inj h
    rw [List.map_cons, List.map_cons, hy, ih hys]

theorem mem_of_mapM {xs : List α} (h : ls.mapM f = some xs) {x : α} (hx : x ∈ xs) :
    ∃ l ∈ ls, f l = some x := by
  have hmem : some x ∈ ls.map f := map_of_mapM h ▸ List.mem_map_of_mem hx
  exact List.mem_map.mp hmem

theorem mem_mapM {xs : List α} (h : ls.mapM f = some xs) {l : Letter} (hl : l ∈ ls) :
    ∃ x ∈ xs, f l = some x := by
  have hmem : f l ∈ xs.map some := map_of_mapM h ▸ List.mem_map_of_mem hl
  obtain ⟨x, hx, hsame⟩ := List.mem_map.mp hmem
  exact ⟨x, hx, hsame.symm⟩

theorem exists_of_mapM_none (h : ls.mapM f = none) : ∃ l ∈ ls, f l = none := by
  induction ls with
  | nil => cases h
  | cons l rest ih =>
    cases hl : f l with
    | none => exact ⟨l, by simp, hl⟩
    | some x =>
      cases hrest : rest.mapM f with
      | none =>
        obtain ⟨l', hl', hnone⟩ := ih hrest
        exact ⟨l', by simp [hl'], hnone⟩
      | some xs =>
        rw [List.mapM_cons, hl, hrest] at h
        cases h

end Lists

namespace Letters

theorem chars?_ofChars (cs : List Char) : (ofChars cs).chars? = some cs := by
  unfold chars? ofChars
  induction cs with
  | nil => rfl
  | cons c rest ih =>
    simp only [List.map_cons, List.mapM_cons]
    simp only at ih
    rw [ih]
    rfl

theorem text?_ofText (s : String) : (ofText s).text? = some s := by
  simp [text?, ofText, chars?_ofChars]

theorem eq_ofChars_of_chars? {s : Letters} {cs : List Char} (h : s.chars? = some cs) :
    s = ofChars cs := by
  unfold chars? at h
  obtain ⟨ls⟩ := s
  unfold ofChars
  congr 1
  induction ls generalizing cs with
  | nil =>
    cases h
    rfl
  | cons l rest ih =>
    rw [List.mapM_cons] at h
    obtain ⟨c, hc, h⟩ := Option.bind_eq_some_iff.mp h
    obtain ⟨cs', hcs', h⟩ := Option.bind_eq_some_iff.mp h
    obtain rfl : c :: cs' = cs := Option.some.inj h
    cases l with
    | half index => cases hc
    | char c' =>
      obtain rfl : c' = c := Option.some.inj hc
      rw [List.map_cons, ih hcs']

theorem text?_eq_some_iff {s : Letters} {text : String} :
    s.text? = some text ↔ s = ofText text := by
  constructor
  · intro h
    obtain ⟨cs, hcs, rfl⟩ := Option.map_eq_some_iff.mp h
    rw [eq_ofChars_of_chars? hcs, ofText, String.toList_ofList]
  · rintro rfl
    exact text?_ofText text

theorem printed_ofText (s : String) : (ofText s).printed = s := by
  unfold printed ofText ofChars
  rw [List.flatMap_map]
  simp

theorem mem_of_text? {s : Letters} {text : String} (h : s.text? = some text) {c : Char}
    (hc : c ∈ text.toList) : .char c ∈ s.list := by
  rw [text?_eq_some_iff.mp h]
  exact List.mem_map_of_mem hc

end Letters

/-! ## NUL characters and zero bytes -/

namespace Utf8

theorem ofNat_ne_nul {n : Nat} (positive : 0 < n) (valid : n.isValidChar) :
    Char.ofNat n ≠ '\x00' := by
  intro hnul
  have hval := congrArg Char.toNat hnul
  unfold Char.ofNat at hval
  rw [dif_pos valid] at hval
  exact absurd hval (Nat.ne_of_gt positive)

theorem isSecond_bounds {a b : UInt8} (h : isSecond a b = true) :
    (a.toNat = 0xe0 → 0xa0 ≤ b.toNat) ∧ (a.toNat = 0xed → b.toNat < 0xa0) ∧
      (a.toNat = 0xf0 → 0x90 ≤ b.toNat) ∧ (a.toNat = 0xf4 → b.toNat < 0x90) ∧
      0x80 ≤ b.toNat ∧ b.toNat < 0xc0 := by
  simp only [isSecond, isContinuation, Bool.and_eq_true, Bool.or_eq_true, bne_iff_ne, ne_eq,
    decide_eq_true_eq, UInt8.le_iff_toNat_le, UInt8.lt_iff_toNat_lt, ← UInt8.toNat_inj] at h
  obtain ⟨⟨⟨⟨⟨hlow, hhigh⟩, he0⟩, hed⟩, hf0⟩, hf4⟩ := h
  exact ⟨he0.resolve_left ∘ not_not_intro, hed.resolve_left ∘ not_not_intro,
    hf0.resolve_left ∘ not_not_intro, hf4.resolve_left ∘ not_not_intro, hlow, hhigh⟩

theorem codePoint_two {a b : UInt8} (low : ¬a < 0xc2) (high : a < 0xe0) :
    codePoint 32 a [b] ≠ '\x00' := by
  simp only [UInt8.lt_iff_toNat_lt, UInt8.reduceToNat] at low high
  refine ofNat_ne_nul ?_ (.inl ?_) <;> simp only [List.foldl_cons, List.foldl_nil] <;> omega

theorem codePoint_three {a b c : UInt8} (low : ¬a < 0xe0) (high : a < 0xf0)
    (second : isSecond a b = true) : codePoint 16 a [b, c] ≠ '\x00' := by
  obtain ⟨he0, hed, -, -, hb, hb'⟩ := isSecond_bounds second
  simp only [UInt8.lt_iff_toNat_lt, UInt8.reduceToNat] at low high
  refine ofNat_ne_nul ?_ ?_ <;>
    simp only [Nat.isValidChar, List.foldl_cons, List.foldl_nil] <;> omega

theorem codePoint_four {a b c d : UInt8} (low : ¬a < 0xf0) (high : a < 0xf5)
    (second : isSecond a b = true) : codePoint 8 a [b, c, d] ≠ '\x00' := by
  obtain ⟨-, -, hf0, hf4, hb, hb'⟩ := isSecond_bounds second
  simp only [UInt8.lt_iff_toNat_lt, UInt8.reduceToNat] at low high
  refine ofNat_ne_nul ?_ (.inr ?_) <;> simp only [List.foldl_cons, List.foldl_nil] <;> omega

/-- What holds of the characters so far and of the next one goes on to hold. -/
theorem forall_mem_push {α : Type} {P : α → Prop} {xs : Array α} {y : α} (before : ∀ x ∈ xs, P x)
    (last : P y) : ∀ x ∈ xs.push y, P x := fun x hx =>
  (Array.mem_push.mp hx).elim (before x) fun h => h ▸ last

theorem decodeFrom_ne_nul {i : Nat} {acc : Array (Char × Nat)} {bytes : List UInt8}
    (before : ∀ x ∈ acc, x.1 ≠ '\x00') (free : 0 ∉ bytes) :
    ∀ x ∈ (decodeFrom i acc bytes).chars, x.1 ≠ '\x00' := by
  fun_induction decodeFrom i acc bytes with
  | case2 i acc a rest ha ih =>
    have hpositive : 0 < a.toNat := Nat.pos_of_ne_zero fun h0 =>
      free (List.mem_cons.mpr (.inl (UInt8.toNat_inj.mp h0).symm))
    simp only [UInt8.lt_iff_toNat_lt, UInt8.reduceToNat] at ha
    exact ih (forall_mem_push before (ofNat_ne_nul hpositive (.inl (by omega))))
      fun hmem => free (List.mem_cons_of_mem a hmem)
  | case5 i acc a hone hstart b rest htwo hcontinues ih =>
    exact ih (forall_mem_push before (codePoint_two (fun h => hstart (by simp [h])) htwo))
      fun hmem => free (by simp [hmem])
  | case10 i acc a hone hstart b htwo hsecond c rest hcontinues hthree ih =>
    exact ih (forall_mem_push before (codePoint_three htwo hthree (by simpa using hsecond)))
      fun hmem => free (by simp [hmem])
  | case12 i acc a hone hstart b htwo hsecond c hthird hthree d rest hcontinues ih =>
    have hbounds : 0xc2 ≤ a ∧ a < 0xf5 := by simpa using hstart
    exact ih (forall_mem_push before (codePoint_four hthree hbounds.2 (by simpa using hsecond)))
      fun hmem => free (by simp [hmem])
  | _ => assumption

/-- A text has no NUL character if its bytes have none. -/
theorem nul_notMem_of_text? {bytes : List UInt8} {name : String} (h : text? bytes = some name)
    (free : 0 ∉ bytes) : '\x00' ∉ name.toList := by
  unfold text? at h
  dsimp only at h
  split at h
  · cases h
    rw [String.toList_ofList]
    intro hnul
    obtain ⟨x, hx, hnul⟩ := List.mem_map.mp hnul
    exact decodeFrom_ne_nul (by simp) free x (Array.mem_def.mpr hx) hnul
  · cases h

theorem ofNat_ne_zero {n : Nat} (positive : 0 < n) (bounded : n < 256) : UInt8.ofNat n ≠ 0 := by
  intro h
  have hval := congrArg UInt8.toNat h
  rw [UInt8.toNat_ofNat', Nat.mod_eq_of_lt bounded] at hval
  exact absurd hval (Nat.ne_of_gt positive)

/-- Only a NUL character has a zero byte. -/
theorem zero_notMem_encodeChar {c : Char} (h : c ≠ '\x00') : 0 ∉ encodeChar c := by
  have hpositive : 0 < c.toNat := Nat.pos_of_ne_zero fun h0 => h (Char.toNat_inj.mp h0)
  have hbounded : c.toNat < 0x110000 := by
    rcases c.valid with hvalid | hvalid
    · exact Nat.lt_trans hvalid (by decide)
    · exact hvalid.2
  have htail (k : Nat) : UInt8.ofNat (0x80 + c.toNat / Nat.pow 64 k % 64) ≠ 0 :=
    ofNat_ne_zero (by omega) (by omega)
  unfold encodeChar
  dsimp only
  split
  · simpa using (ofNat_ne_zero hpositive (by omega)).symm
  split
  · simp only [List.mem_cons, List.not_mem_nil, or_false, not_or]
    exact ⟨(ofNat_ne_zero (by omega) (by omega)).symm, (htail 0).symm⟩
  split
  · simp only [List.mem_cons, List.not_mem_nil, or_false, not_or]
    exact ⟨(ofNat_ne_zero (by omega) (by omega)).symm, (htail 1).symm, (htail 0).symm⟩
  · simp only [List.mem_cons, List.not_mem_nil, or_false, not_or]
    exact ⟨(ofNat_ne_zero (by omega) (by omega)).symm, (htail 2).symm, (htail 1).symm,
      (htail 0).symm⟩

end Utf8

end YamlCheck.Text
