import Mathlib.Data.List.Forall2
import Mathlib.Data.List.Pairwise
import YamlCheck.Proofs.Config.Layers

/-!
# What a configuration is read as

Reading succeeds if every setting can be read from the value that is given for it and every key is
the spelling of a setting under which it is read.  Which value is read does not depend on the place
that a problem would name.
-/

namespace YamlCheck

open YamlCheck.Text YamlCheck.Yaml

/-! ## Spellings -/

/-- Whether a key is one of the two spellings of a setting. -/
def Field.Spells (f : Field) (key : String) : Prop := key = f.fileKey ∨ key = f.name

theorem Field.Spells.unique {f f' : Field} {key : String} (h : f.Spells key)
    (h' : f'.Spells key) : f = f' := by
  rcases h with rfl | rfl <;> rcases h' with h' | h' <;> cases f <;> cases f' <;>
    simp_all [fileKey, name]

namespace Entries

/-- Whether an entry gives a value to a setting. -/
def Gives (e : Tree × Given) (f : Field) : Prop := ∃ key, keyText? e = some key ∧ f.Spells key

theorem Gives.unique {e : Tree × Given} {f f' : Field} (h : Gives e f) (h' : Gives e f') :
    f = f' := by
  obtain ⟨key, hkey, hspells⟩ := h
  obtain ⟨key', hkey', hspells'⟩ := h'
  obtain rfl : key = key' := Option.some.inj (hkey.symm.trans hkey')
  exact hspells.unique hspells'

/-- Whether two entries do not have one text for their keys. -/
def Apart (e e' : Tree × Given) : Prop :=
  ∀ key, keyText? e = some key → keyText? e' ≠ some key

instance : Std.Symm Apart where
  symm _ _ h key hkey' hkey := h key hkey hkey'

/-- Whether no two entries have one text for their keys. -/
def Distinct (es : Entries) : Prop := es.Pairwise Apart

theorem Distinct.eq_of_keyText? {es : Entries} (h : es.Distinct) {e e' : Tree × Given}
    (hmem : e ∈ es) (hmem' : e' ∈ es) {key : String} (hkey : keyText? e = some key)
    (hkey' : keyText? e' = some key) : e = e' := by
  by_contra hne
  exact h.forall hmem hmem' hne key hkey hkey'

/-- Whether two entries do not give values to one setting. -/
def Separate (e e' : Tree × Given) : Prop := ∀ f, Gives e f → ¬Gives e' f

instance : Std.Symm Separate where
  symm _ _ h f hgives' hgives := h f hgives hgives'

theorem find?_eq_none_iff {es : Entries} {key : String} :
    es.find? key = none ↔ ∀ e ∈ es, keyText? e ≠ some key := by
  constructor
  · intro hnone e hmem hkey
    obtain ⟨g, hfound⟩ := find?_of_mem hmem hkey
    rw [hnone] at hfound
    cases hfound
  · intro hall
    cases hfound : es.find? key with
    | none => rfl
    | some g =>
      obtain ⟨e, hmem, hkey, -⟩ := mem_of_find? hfound
      exact absurd hkey (hall e hmem)

theorem mem_of_given? {es : Entries} {f : Field} {key : String} {g : Given}
    (h : es.given? f = some (key, g)) :
    f.Spells key ∧ ∃ e ∈ es, keyText? e = some key ∧ e.2 = g := by
  unfold given? at h
  split at h
  · rename_i g' hfound
    cases h
    exact ⟨.inl rfl, mem_of_find? hfound⟩
  · rw [Option.map_eq_some_iff] at h
    obtain ⟨g', hfound, heq⟩ := h
    cases heq
    exact ⟨.inr rfl, mem_of_find? hfound⟩

theorem given?_eq_none_iff {es : Entries} {f : Field} :
    es.given? f = none ↔ ∀ e ∈ es, ¬Gives e f := by
  constructor
  · rintro hnone e hmem ⟨key, hkey, hspells⟩
    unfold given? at hnone
    split at hnone
    · cases hnone
    · rename_i hfile
      have hname := Option.map_eq_none_iff.mp hnone
      rcases hspells with rfl | rfl
      · exact find?_eq_none_iff.mp hfile e hmem hkey
      · exact find?_eq_none_iff.mp hname e hmem hkey
  · intro hall
    cases hgiven : es.given? f with
    | none => rfl
    | some given =>
      obtain ⟨hspells, e, hmem, hkey, -⟩ := mem_of_given? hgiven
      exact absurd ⟨_, hkey, hspells⟩ (hall e hmem)

theorem mem_used {es : Entries} {key : String} :
    key ∈ es.used ↔ ∃ f g, es.given? f = some (key, g) := by
  unfold used
  rw [List.mem_filterMap]
  constructor
  · rintro ⟨f, -, hf⟩
    obtain ⟨⟨key', g⟩, hgiven, rfl⟩ := Option.map_eq_some_iff.mp hf
    exact ⟨f, g, hgiven⟩
  · rintro ⟨f, g, hgiven⟩
    exact ⟨f, f.mem_all, by rw [hgiven]; rfl⟩

/-- No entry is a stray if all of them are read. -/
theorem strays_eq_nil_iff {es : Entries} :
    es.strays = [] ↔ ∀ e ∈ es, ∃ key, keyText? e = some key ∧ key ∈ es.used := by
  unfold strays
  rw [List.filterMap_eq_nil_iff]
  refine forall₂_congr fun e hmem => ?_
  unfold strayProblem?
  cases keyText? e with
  | none => simp
  | some key => simp

end Entries

/-! ## Values -/

theorem readText_eq_ok_iff (place place' : List Step) {v : Tree} {s : Letters} :
    readText place v = .ok s ↔ readText place' v = .ok s := by
  unfold readText
  split
  · exact .rfl
  · split <;> simp [Judged.refuse]
  · simp [Judged.refuse]

theorem readTexts_cons_eq_ok_iff {place : List Step} {i : Nat} {v : Tree} {vs : List Tree}
    {ss : List Letters} :
    readTexts place i (v :: vs) = .ok ss ↔ ∃ s ss', readText (place ++ [.number i]) v = .ok s ∧
      readTexts place (i + 1) vs = .ok ss' ∧ ss = s :: ss' := by
  rw [readTexts]
  cases readText (place ++ [.number i]) v <;> cases readTexts place (i + 1) vs <;>
    simp [eq_comm]

/-- Texts are read if each of them is. -/
theorem readTexts_eq_ok_iff {place : List Step} {i : Nat} {vs : List Tree} {ss : List Letters} :
    readTexts place i vs = .ok ss ↔ List.Forall₂ (fun v s => readText [] v = .ok s) vs ss := by
  induction vs generalizing i ss with
  | nil => simp [readTexts, eq_comm]
  | cons v vs ih =>
    simp only [readTexts_cons_eq_ok_iff, List.forall₂_cons_left_iff, ih,
      readText_eq_ok_iff (place ++ [.number i]) []]

theorem readList_eq_ok_iff (place place' : List Step) {g : Given} {ss : List Letters} :
    readList place g = .ok ss ↔ readList place' g = .ok ss := by
  unfold readList
  split
  · rw [readTexts_eq_ok_iff, readTexts_eq_ok_iff]
  · simp [Judged.refuse]

/-- The truth value that a value is taken for, if it is taken for one. -/
def truthOf? : Tree → Option Bool
  | .scalar (.bool b) => some b
  | .scalar (.text s) => s.text?.bind truthOfWord?
  | .scalar (.bytes bs) => (Utf8.text? bs).bind truthOfWord?
  | .scalar (.int i) => truthOfInt? i
  | .scalar (.float x _) => x.toInt?.bind truthOfInt?
  | _ => none

theorem isMachineInt_of_truthOfInt? {i : Int} {b : Bool} (h : truthOfInt? i = some b) :
    isMachineInt i = true ∧ i ≠ -9223372036854775808 := by
  unfold truthOfInt? at h
  unfold isMachineInt
  simp only [beq_iff_eq, Bool.and_eq_true, decide_eq_true_eq] at h ⊢
  split at h
  · omega
  · split at h
    · omega
    · cases h

theorem readTruth_eq_ok_iff {place : List Step} {g : Given} {b : Bool} :
    readTruth place g = .ok b ↔ truthOf? g.whole = some b := by
  unfold readTruth
  extract_lets v clear ofInt
  have hclear : ∀ r, clear r = .ok b ↔ r = some b := by
    intro r
    cases r <;> simp [clear, Judged.refuse]
  have hint : ∀ i, ofInt i = .ok b ↔ truthOfInt? i = some b := by
    intro i
    dsimp only [ofInt]
    split
    · exact hclear _
    · rename_i hrange
      have hnone : truthOfInt? i ≠ some b := fun h => hrange (isMachineInt_of_truthOfInt? h).1
      simp [Judged.refuse, hnone]
  have hwhole : g.whole = v := rfl
  rw [hwhole]
  cases v with
  | scalar s =>
    cases s with
    | bool b' => simp [truthOf?]
    | text s =>
      dsimp only [truthOf?]
      cases s.text? with
      | none => simp [Judged.refuse]
      | some word => exact hclear _
    | bytes bs => exact hclear _
    | int i => exact hint i
    | float x origin =>
      dsimp only [truthOf?]
      cases x.toInt? with
      | none => simp [Judged.refuse]
      | some i =>
        dsimp only [Option.bind_some]
        split
        · rename_i hleast
          have hnone : truthOfInt? i ≠ some b := fun h =>
            (isMachineInt_of_truthOfInt? h).2 (by simpa using hleast)
          simp [Judged.refuse, hnone]
        · exact hint i
    | _ => simp [truthOf?, Judged.refuse]
  | _ => simp [truthOf?, Judged.refuse]

theorem readParser_eq_ok_iff (place place' : List Step) {g : Given} {d : Dialect} :
    readParser place g = .ok d ↔ readParser place' g = .ok d := by
  unfold readParser
  split
  · split <;> simp [Judged.refuse]
  · simp [Judged.refuse]

theorem Entries.setting_eq_ok_iff {α : Type} {es : Entries} {f : Field} {default v : α}
    {read : List Step → Given → Judged α}
    (places : ∀ place g, read place g = .ok v ↔ read [] g = .ok v) :
    es.setting f default read = .ok v ↔
      match es.given? f with
      | some (_, g) => read [] g = .ok v
      | none => v = default := by
  unfold setting
  cases es.given? f with
  | none =>
    constructor
    · rintro ⟨⟩
      rfl
    · rintro rfl
      rfl
  | some given => exact places _ _

/-- Whether two values are one, but for where a floating-point number was read. -/
def Given.Same (g g' : Given) : Prop :=
  g.items? = g'.items? ∧
    (g.whole = g'.whole ∨
      ∃ x origin origin', g.whole = .scalar (.float x origin) ∧
        g'.whole = .scalar (.float x origin'))

theorem Given.Same.refl (g : Given) : g.Same g := ⟨rfl, .inl rfl⟩

namespace Config

/-- Whether two configurations have one value for a setting. -/
def Agrees (c c' : Config) : Field → Prop
  | .searchPaths => c.searchPaths = c'.searchPaths
  | .searchRecursive => c.searchRecursive = c'.searchRecursive
  | .allowDuplicates => c.allowDuplicates = c'.allowDuplicates
  | .parser => c.parser = c'.parser

/-- Whether the value that a configuration has for a setting is what the given one is taken for. -/
def Takes (c : Config) (f : Field) (g : Given) : Prop :=
  match f with
  | .searchPaths => readList [] g = .ok c.searchPaths
  | .searchRecursive => readTruth [] g = .ok c.searchRecursive
  | .allowDuplicates => readTruth [] g = .ok c.allowDuplicates
  | .parser => readParser [] g = .ok c.parser

theorem takes_given {c c' : Config} {f : Field} : c.Takes f (c'.given f) ↔ c.Agrees c' f := by
  cases f <;> simp [Takes, given, Agrees, eq_comm]

theorem Takes.agrees {c c' : Config} {f : Field} {g : Given} (h : c.Takes f g)
    (h' : c'.Takes f g) : c.Agrees c' f := by
  cases f <;> exact Except.ok.inj (h.symm.trans h')

theorem Takes.same {c : Config} {f : Field} {g g' : Given} (h : c.Takes f g) (same : g.Same g') :
    c.Takes f g' := by
  obtain ⟨hitems, hwhole⟩ := same
  rcases hwhole with hwhole | ⟨x, origin, origin', hwhole, hwhole'⟩
  · cases g
    cases g'
    obtain rfl : _ = _ := hitems
    obtain rfl : _ = _ := hwhole
    exact h
  · cases f with
    | searchPaths =>
      unfold Takes readList at h ⊢
      rw [← hitems]
      cases hlist : g.items? with
      | some items => simpa [hlist] using h
      | none => simp [hlist, Judged.refuse] at h
    | searchRecursive => simpa [Takes, readTruth_eq_ok_iff, truthOf?, hwhole, hwhole'] using h
    | allowDuplicates => simpa [Takes, readTruth_eq_ok_iff, truthOf?, hwhole, hwhole'] using h
    | parser => simp [Takes, readParser, hwhole, Judged.refuse] at h

/-- Whether a setting has the value that is given for it, or its default if none is. -/
def Follows (c : Config) (es : Entries) (f : Field) : Prop :=
  match es.given? f with
  | some (_, g) => c.Takes f g
  | none => c.Agrees {} f

theorem ofEntries_eq_ok_iff {es : Entries} {c : Config} :
    ofEntries es = .ok c ↔ (∀ f, c.Follows es f) ∧ es.strays = [] := by
  have hpaths : es.setting .searchPaths ({} : Config).searchPaths readList = .ok c.searchPaths ↔
      c.Follows es .searchPaths :=
    Entries.setting_eq_ok_iff fun place _ => readList_eq_ok_iff place []
  have hrecursive : es.setting .searchRecursive ({} : Config).searchRecursive readTruth =
      .ok c.searchRecursive ↔ c.Follows es .searchRecursive :=
    Entries.setting_eq_ok_iff fun place _ => by rw [readTruth_eq_ok_iff, readTruth_eq_ok_iff]
  have hduplicates : es.setting .allowDuplicates ({} : Config).allowDuplicates readTruth =
      .ok c.allowDuplicates ↔ c.Follows es .allowDuplicates :=
    Entries.setting_eq_ok_iff fun place _ => by rw [readTruth_eq_ok_iff, readTruth_eq_ok_iff]
  have hparser : es.setting .parser ({} : Config).parser readParser = .ok c.parser ↔
      c.Follows es .parser :=
    Entries.setting_eq_ok_iff fun place _ => readParser_eq_ok_iff place []
  constructor
  · intro hread
    unfold ofEntries at hread
    dsimp only at hread
    split at hread
    · rename_i h₁ h₂ h₃ h₄ h₅
      cases hread
      refine ⟨fun f => ?_, h₅⟩
      cases f
      · exact hpaths.mp h₁
      · exact hrecursive.mp h₂
      · exact hduplicates.mp h₃
      · exact hparser.mp h₄
    · cases hread
  · rintro ⟨hfollows, hstrays⟩
    unfold ofEntries
    simp only [hpaths.mpr (hfollows _), hrecursive.mpr (hfollows _),
      hduplicates.mpr (hfollows _), hparser.mpr (hfollows _), hstrays]

/-- A broken key is a stray, so looking for one first only changes what is said. -/
theorem read_eq_ok_iff {es : Entries} {c : Config} :
    read es = .ok c ↔ (∀ f, c.Follows es f) ∧ es.strays = [] := by
  rw [← ofEntries_eq_ok_iff]
  unfold read
  constructor
  · intro hread
    split at hread
    · cases hread
    · exact hread
  · intro hread
    have hstrays := Entries.strays_eq_nil_iff.mp (ofEntries_eq_ok_iff.mp hread).2
    have hbroken : es.broken? = none := Entries.broken?_eq_none fun e he =>
      (hstrays e he).elim fun key hkey => ⟨key, hkey.1⟩
    rw [hbroken]
    exact hread

end Config

end YamlCheck
