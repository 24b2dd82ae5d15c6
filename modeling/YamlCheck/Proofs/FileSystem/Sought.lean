import YamlCheck.FileSystem.Resolution
import YamlCheck.Proofs.FileSystem.PathText
import YamlCheck.Proofs.Text.Letters

/-!
# Search paths as they are looked for

A search path of characters is looked for as it stands.  One with halves is looked for up to its
first piece that is odd; if no piece is, then all of it is the path of names.  A name has a NUL
character only if the search path has one.
-/

namespace YamlCheck

open YamlCheck.Text

/-! ## Pieces -/

namespace Oddity

theorem zero_notMem_bytes? {l : Letter} {bs : List UInt8} (h : bytes? l = some bs)
    (hl : l ≠ .char '\x00') : 0 ∉ bs := by
  cases l with
  | char c =>
    cases h
    exact Utf8.zero_notMem_encodeChar fun hc => hl (by rw [hc])
  | half index =>
    unfold bytes? at h
    dsimp only at h
    split at h
    · rename_i hrange
      cases h
      simp only [Bool.and_eq_true, decide_eq_true_eq] at hrange
      have hne : UInt8.ofNat index ≠ 0 := by
        intro h0
        have hval := congrArg UInt8.toNat h0
        rw [UInt8.toNat_ofNat'] at hval
        simp at hval
        omega
      simpa using hne.symm
    · cases h

theorem unencodableAfter_eq_foreign {i size : Nat} {ls : List Letter} {piece : Letters}
    (h : unencodableAfter i ls = .foreign size piece) : piece = ⟨[]⟩ := by
  induction ls generalizing i with
  | nil =>
    cases h
    rfl
  | cons l rest ih =>
    unfold unencodableAfter at h
    split at h
    · exact ih h
    · cases h

variable {piece : List Letter} {pieces : List (List Letter)} {name : String} {odd : Oddity}

/-- The name that is read from a piece has a NUL character only if the piece has one. -/
theorem nulFree_of_readPiece (h : readPiece piece = .ok name) (free : .char '\x00' ∉ piece) :
    '\x00' ∉ name.toList := by
  unfold readPiece at h
  split at h
  · rename_i text htext
    cases h
    exact fun hnul => free (Letters.mem_of_text? htext hnul)
  · cases h
  · rename_i bss _ hbytes
    split at h
    · rename_i text htext
      cases h
      refine Utf8.nul_notMem_of_text? htext fun hzero => ?_
      obtain ⟨bs, hbs, hzero⟩ := List.mem_flatten.mp hzero
      obtain ⟨l, hl, hbytes⟩ := mem_of_mapM hbytes hbs
      exact zero_notMem_bytes? hbytes (fun heq => free (heq ▸ hl)) hzero
    · cases h

/-- A piece whose bytes are no text keeps its letters, and has a byte for a NUL character. -/
theorem foreign_of_readPiece {size : Nat} {ls : Letters}
    (h : readPiece piece = .error (.foreign size ls)) (hnul : .char '\x00' ∈ ls.list) :
    .char '\x00' ∈ piece ∧ 0 < size := by
  unfold readPiece at h
  split at h
  · cases h
  · rw [Except.error.injEq] at h
    rw [unencodableAfter_eq_foreign h] at hnul
    cases hnul
  · rename_i bss _ hbytes
    split at h
    · cases h
    · cases h
      refine ⟨hnul, List.length_pos_of_mem (a := 0) (List.mem_flatten.mpr ?_)⟩
      obtain ⟨bs, hbs, heq⟩ := mem_mapM hbytes hnul
      cases heq
      exact ⟨_, hbs, by decide⟩

/-- A piece that cannot be encoded has a letter without bytes. -/
theorem unencodable_of_readPiece {start stop : Nat} {first : Letter}
    (h : readPiece piece = .error (.unencodable start stop first)) :
    ∃ l ∈ piece, bytes? l = none := by
  unfold readPiece at h
  split at h
  · cases h
  · rename_i hnone
    exact exists_of_mapM_none hnone
  · split at h <;> cases h

theorem readPiece_of_mem_readPieces (h : name ∈ (readPieces pieces).1) :
    ∃ piece ∈ pieces, readPiece piece = .ok name := by
  induction pieces with
  | nil => cases h
  | cons piece rest ih =>
    unfold readPieces at h
    split at h
    · rename_i first hfirst
      rcases List.mem_cons.mp h with rfl | h
      · exact ⟨piece, by simp, hfirst⟩
      · obtain ⟨other, hother, hread⟩ := ih h
        exact ⟨other, by simp [hother], hread⟩
    · cases h

theorem readPiece_of_readPieces (h : (readPieces pieces).2 = some odd) :
    ∃ piece ∈ pieces, readPiece piece = .error odd := by
  induction pieces with
  | nil => cases h
  | cons piece rest ih =>
    unfold readPieces at h
    split at h
    · obtain ⟨other, hother, hread⟩ := ih h
      exact ⟨other, by simp [hother], hread⟩
    · rename_i hfirst
      cases h
      exact ⟨piece, by simp, hfirst⟩

end Oddity

namespace Sought

theorem ofLetters_ofText (s : String) : ofLetters (.ofText s) = { front := .ofText s } := by
  rw [ofLetters, Letters.text?_ofText]

@[simp] theorem front_ofText (s : String) : (ofLetters (.ofText s)).front = .ofText s := by
  rw [ofLetters_ofText]

@[simp] theorem odd_ofText (s : String) : (ofLetters (.ofText s)).odd = none := by
  rw [ofLetters_ofText]

theorem mem_intercalate {α : Type} {sep x : List α} {xss : List (List α)} (hx : x ∈ xss) {a : α}
    (ha : a ∈ x) : a ∈ sep.intercalate xss := by
  induction xss with
  | nil => cases hx
  | cons y rest ih =>
    cases rest with
    | nil =>
      rw [List.mem_singleton.mp hx] at ha
      simpa using ha
    | cons z rest =>
      rw [List.intercalate_cons_cons, List.mem_append, List.mem_append]
      rcases List.mem_cons.mp hx with rfl | hx
      · exact .inl (.inl ha)
      · exact .inr (ih hx)

theorem mem_of_mem_pieces {s : Letters} {piece : List Letter} {l : Letter} (h : piece ∈ pieces s)
    (hl : l ∈ piece) : l ∈ s.list := by
  have hparts : s.list = [Letter.char '/'].intercalate (s.list.splitOn (Letter.char '/')) :=
    (List.intercalate_splitOn (Letter.char '/')).symm
  rw [hparts]
  exact mem_intercalate h hl

variable {s : Letters}

/-- A search path without a NUL character is looked for under names without one. -/
theorem nulFree_front (free : .char '\x00' ∉ s.list) :
    ∀ name ∈ (ofLetters s).front.names, '\x00' ∉ name.toList := by
  intro name hname
  unfold ofLetters at hname
  split at hname
  · rename_i text htext
    exact Path.nulFree_ofText (fun hnul => free (Letters.mem_of_text? htext hnul)) name hname
  · obtain ⟨piece, hpiece, hread⟩ :=
      Oddity.readPiece_of_mem_readPieces (List.mem_filter.mp hname).1
    exact Oddity.nulFree_of_readPiece hread fun hnul => free (mem_of_mem_pieces hpiece hnul)

theorem readPiece_of_odd {odd : Oddity} (h : (ofLetters s).odd = some odd) :
    ∃ piece ∈ pieces s, Oddity.readPiece piece = .error odd := by
  unfold ofLetters at h
  split at h
  · cases h
  · exact Oddity.readPiece_of_readPieces h

/-- The odd piece of a search path has a NUL character only if the search path has one, and then it
has a byte for it. -/
theorem foreign_of_odd {size : Nat} {ls : Letters} (h : (ofLetters s).odd = some (.foreign size ls))
    (hnul : .char '\x00' ∈ ls.list) : .char '\x00' ∈ s.list ∧ 0 < size := by
  obtain ⟨piece, hpiece, hread⟩ := readPiece_of_odd h
  obtain ⟨hmem, hsize⟩ := Oddity.foreign_of_readPiece hread hnul
  exact ⟨mem_of_mem_pieces hpiece hmem, hsize⟩

/-- A search path cannot be encoded only if it has a letter without bytes. -/
theorem unencodable_of_odd {start stop : Nat} {first : Letter}
    (h : (ofLetters s).odd = some (.unencodable start stop first)) :
    ∃ l ∈ s.list, Oddity.bytes? l = none := by
  obtain ⟨piece, hpiece, hread⟩ := readPiece_of_odd h
  obtain ⟨l, hl, hnone⟩ := Oddity.unencodable_of_readPiece hread
  exact ⟨l, mem_of_mem_pieces hpiece hl, hnone⟩

end Sought

/-! ## Resolving -/

namespace FileSystem

variable {fs : FileSystem} {path : Letters} {directory p : Path} {loc : Location}

theorem resolve_of_canonical (whole : (Sought.ofLetters path).odd = none)
    (h : fs.canonical (directory.join (Sought.ofLetters path).front) = .ok loc) :
    fs.resolve path directory = .ok (pathOf loc) := by
  simp only [resolve, h, whole]

theorem resolve_ofText {s : String} (h : fs.canonical (directory.join (.ofText s)) = .ok loc) :
    fs.resolve s directory = .ok (pathOf loc) :=
  resolve_of_canonical (Sought.odd_ofText s) (by rw [Sought.front_ofText]; exact h)

theorem resolve_of_refusal {r : Refusal}
    (h : fs.canonical (directory.join (Sought.ofLetters path).front) = .error (r, loc)) :
    fs.resolve path directory =
      .error (resolutionStop path (Sought.text directory path) r (pathOf loc).text) := by
  simp only [resolve, h]

theorem resolve_of_odd {odd : Oddity} (part : (Sought.ofLetters path).odd = some odd)
    (h : fs.canonical (directory.join (Sought.ofLetters path).front) = .ok loc) :
    fs.resolve path directory =
      .error (fs.oddityStop path (Sought.text directory path) loc odd) := by
  simp only [resolve, h, part]

/-- What is resolved has no odd piece, and a canonical path. -/
theorem resolve_eq_ok_iff : fs.resolve path directory = .ok p ↔
    (Sought.ofLetters path).odd = none ∧ ∃ loc, p = pathOf loc ∧
      fs.canonical (directory.join (Sought.ofLetters path).front) = .ok loc := by
  constructor
  · intro h
    cases hcanonical : fs.canonical (directory.join (Sought.ofLetters path).front) with
    | error e =>
      obtain ⟨r, loc⟩ := e
      rw [resolve_of_refusal hcanonical] at h
      cases h
    | ok loc =>
      cases hodd : (Sought.ofLetters path).odd with
      | some odd =>
        rw [resolve_of_odd hodd hcanonical] at h
        cases h
      | none =>
        rw [resolve_of_canonical hodd hcanonical] at h
        cases h
        exact ⟨rfl, loc, rfl, rfl⟩
  · rintro ⟨hodd, loc, rfl, hcanonical⟩
    exact resolve_of_canonical hodd hcanonical

end FileSystem

end YamlCheck
