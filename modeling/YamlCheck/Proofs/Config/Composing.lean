import Mathlib.Data.List.Nodup
import YamlCheck.Config.File
import YamlCheck.Proofs.Config.Reading

/-!
# Overrides one after the other

Overrides give values to settings by name; a null gives none.  They are accepted if each key is the
name of a setting and each value can be taken for one of it, whatever configuration they are laid
over.  Laying overrides over the outcome of others is laying all of them at once.
-/

namespace YamlCheck

open YamlCheck.Yaml

/-- Values by the names of settings, as they are laid over a configuration.  A key that is the name
of no setting is possible, but no spelling that is only used in files, and not the name by which the
configuration below is handed over. -/
structure Overrides where
  values : List (String × Given)
  distinct : (values.map (·.1)).Nodup
  byName : ∀ v ∈ values, ∀ f : Field, v.1 = f.fileKey → v.1 = f.name
  notBase : ∀ v ∈ values, v.1 ≠ Config.baseName

namespace Config

theorem Agrees.refl (c : Config) (f : Field) : c.Agrees c f := by
  cases f <;> rfl

theorem Agrees.symm {c c' : Config} {f : Field} (h : c.Agrees c' f) : c'.Agrees c f := by
  cases f <;> exact Eq.symm h

theorem Agrees.trans {c c' c'' : Config} {f : Field} (h : c.Agrees c' f) (h' : c'.Agrees c'' f) :
    c.Agrees c'' f := by
  cases f <;> exact Eq.trans h h'

theorem Takes.of_agrees {c c' : Config} {f : Field} {g : Given} (h : c.Takes f g)
    (agrees : c'.Agrees c f) : c'.Takes f g := by
  have hfield := agrees
  cases f <;> simp only [Agrees] at hfield <;> simpa only [Takes, hfield] using h

/-- Settings that can each have a value of some kind can have them in one configuration. -/
theorem exists_of_each {P : Field → Config → Prop} (each : ∀ f, ∃ c, P f c)
    (field : ∀ f c c', P f c → c'.Agrees c f → P f c') : ∃ c, ∀ f, P f c := by
  obtain ⟨c₁, h₁⟩ := each .searchPaths
  obtain ⟨c₂, h₂⟩ := each .searchRecursive
  obtain ⟨c₃, h₃⟩ := each .allowDuplicates
  obtain ⟨c₄, h₄⟩ := each .parser
  refine ⟨⟨c₁.searchPaths, c₂.searchRecursive, c₃.allowDuplicates, c₄.parser⟩, fun f => ?_⟩
  cases f with
  | searchPaths => exact field _ _ _ h₁ rfl
  | searchRecursive => exact field _ _ _ h₂ rfl
  | allowDuplicates => exact field _ _ _ h₃ rfl
  | parser => exact field _ _ _ h₄ rfl

/-! ## What is said -/

theorem mem_of_lastSaid {values : List (String × Given)} {key : String} {g : Given}
    (h : lastSaid values key = some g) : (key, g) ∈ values ∧ g.isNull = false := by
  unfold lastSaid at h
  obtain ⟨v, hfound, rfl⟩ := Option.map_eq_some_iff.mp h
  have hmem := List.mem_reverse.mp (List.mem_of_find?_eq_some hfound)
  have hsays := List.find?_some hfound
  simp only [Bool.and_eq_true, beq_iff_eq, Bool.not_eq_true'] at hsays
  obtain ⟨rfl, hnull⟩ := hsays
  exact ⟨hmem, hnull⟩

theorem exists_lastSaid_of_mem {values : List (String × Given)} {v : String × Given}
    (mem : v ∈ values) (nonNull : v.2.isNull = false) : ∃ g, lastSaid values v.1 = some g := by
  unfold lastSaid
  cases hfound : values.reverse.find? fun o => o.1 == v.1 && !o.2.isNull with
  | some o => exact ⟨o.2, rfl⟩
  | none =>
    have hnone := List.find?_eq_none.mp hfound v (List.mem_reverse.mpr mem)
    simp [nonNull] at hnone

theorem lastSaid_eq_some_iff {values : List (String × Given)}
    (distinct : (values.map (·.1)).Nodup) {key : String} {g : Given} :
    lastSaid values key = some g ↔ (key, g) ∈ values ∧ g.isNull = false := by
  refine ⟨mem_of_lastSaid, fun ⟨hmem, hnull⟩ => ?_⟩
  obtain ⟨g', hsaid⟩ := exists_lastSaid_of_mem hmem hnull
  have hsame : (key, g') = (key, g) :=
    List.inj_on_of_nodup_map distinct (mem_of_lastSaid hsaid).1 hmem rfl
  cases hsame
  exact hsaid

theorem lastSaid_eq_none_iff {values : List (String × Given)} {key : String} :
    lastSaid values key = none ↔ ∀ g, (key, g) ∈ values → g.isNull = true := by
  constructor
  · intro hnone g hmem
    cases hnull : g.isNull with
    | true => rfl
    | false =>
      obtain ⟨g', hsaid⟩ := exists_lastSaid_of_mem hmem hnull
      rw [hnone] at hsaid
      cases hsaid
  · intro hall
    cases hsaid : lastSaid values key with
    | none => rfl
    | some g =>
      obtain ⟨hmem, hnull⟩ := mem_of_lastSaid hsaid
      rw [hall g hmem] at hnull
      cases hnull

end Config

namespace Overrides

open Config

/-- What some overrides say of a key, unless it is nothing. -/
def said (o : Overrides) (key : String) : Option Given := lastSaid o.values key

/-- Overrides with the values of others in the places of theirs.  A null takes no place. -/
def update (o o' : Overrides) : Overrides where
  values := (o.values.map fun v => (v.1, (o'.said v.1).getD v.2)) ++
    o'.values.filter fun v => !v.2.isNull && !(o.values.map (·.1)).contains v.1
  distinct := by
    rw [List.map_append, List.map_map]
    refine List.Nodup.append ?_ ?_ ?_
    · exact o.distinct
    · exact (List.filter_sublist.map _).nodup o'.distinct
    · intro key hmem hmem'
      obtain ⟨v, hv, rfl⟩ := List.mem_map.mp hmem'
      have hnew := (List.mem_filter.mp hv).2
      simp only [Bool.and_eq_true, Bool.not_eq_true', List.contains_eq_mem,
        decide_eq_false_iff_not] at hnew
      exact hnew.2 hmem
  byName := by
    intro v hmem f hkey
    rcases List.mem_append.mp hmem with hmem | hmem
    · obtain ⟨v', hmem', rfl⟩ := List.mem_map.mp hmem
      exact o.byName v' hmem' f hkey
    · exact o'.byName v (List.mem_filter.mp hmem).1 f hkey
  notBase := by
    intro v hmem
    rcases List.mem_append.mp hmem with hmem | hmem
    · obtain ⟨v', hmem', rfl⟩ := List.mem_map.mp hmem
      exact o.notBase v' hmem'
    · exact o'.notBase v (List.mem_filter.mp hmem).1

theorem said_eq_some_iff {o : Overrides} {key : String} {g : Given} :
    o.said key = some g ↔ (key, g) ∈ o.values ∧ g.isNull = false :=
  lastSaid_eq_some_iff o.distinct

theorem mem_update {o o' : Overrides} {key : String} {g : Given} :
    (key, g) ∈ (o.update o').values ↔
      (∃ g₀, (key, g₀) ∈ o.values ∧ (o'.said key).getD g₀ = g) ∨
        o'.said key = some g ∧ ∀ g₀, (key, g₀) ∉ o.values := by
  simp [update, said_eq_some_iff, and_assoc]

theorem said_update (o o' : Overrides) (key : String) :
    (o.update o').said key = (o'.said key).or (o.said key) := by
  ext g
  rw [said_eq_some_iff, mem_update]
  cases hsaid : o'.said key with
  | some g' =>
    have hnull : g'.isNull = false := (said_eq_some_iff.mp hsaid).2
    simp only [Option.getD_some, Option.some.injEq, Option.some_or]
    constructor
    · rintro ⟨⟨g₀, -, rfl⟩ | ⟨rfl, -⟩, -⟩ <;> rfl
    · rintro rfl
      refine ⟨?_, hnull⟩
      by_cases hold : ∃ g₀, (key, g₀) ∈ o.values
      · obtain ⟨g₀, hmem⟩ := hold
        exact .inl ⟨g₀, hmem, rfl⟩
      · exact .inr ⟨rfl, fun g₀ hmem => hold ⟨g₀, hmem⟩⟩
  | none => simp [said_eq_some_iff]

end Overrides

namespace Config

/-! ## What is laid over a configuration -/

theorem mem_lay {es : Entries} {values : List (String × Given)} {e : Tree × Given}
    (h : e ∈ lay es values) :
    e ∈ es ∨ ∃ v ∈ values, v.2.isNull = false ∧ e = Entries.entry v.1 v.2 := by
  induction values generalizing es with
  | nil => exact .inl h
  | cons v values ih =>
    have hlay : lay es (v :: values) = lay (if v.2.isNull then es else es.put v.1 v.2) values := rfl
    rw [hlay] at h
    rcases ih h with hmem | ⟨v', hmem, hentry⟩
    · cases hnull : v.2.isNull with
      | true => exact .inl (by simpa [hnull] using hmem)
      | false =>
        rw [hnull] at hmem
        rcases Entries.mem_put hmem with hentry | hold
        · exact .inr ⟨v, List.mem_cons_self, hnull, hentry⟩
        · exact .inl hold
    · exact .inr ⟨v', List.mem_cons_of_mem v hmem, hentry⟩

/-- The entries that overrides are laid over. -/
abbrev below (base : Option Config) : Entries := (base.map entries).getD []

theorem named_below (base : Option Config) : (below base).Named := by
  cases base with
  | none => exact fun e he => by cases he
  | some c => exact c.named_entries

theorem find?_below (base : Option Config) (f : Field) :
    (below base).find? f.name = base.map fun c => c.given f := by
  cases base with
  | none => rfl
  | some c => exact c.find?_entries f

/-- Whether a configuration has the value that is said for a setting, or else the one below. -/
def Obeys (c : Config) (base : Option Config) (o : Overrides) (f : Field) : Prop :=
  match o.said f.name with
  | some g => c.Takes f g
  | none => c.Agrees (base.getD {}) f

variable {base : Option Config} {o : Overrides} {c : Config}

theorem named_lay_iff (base : Option Config) (o : Overrides) : (lay (below base) o.values).Named ↔
    ∀ v ∈ o.values, v.2.isNull = false → ∃ f : Field, v.1 = f.name := by
  constructor
  · intro hnamed v hmem hnull
    obtain ⟨g, hsaid⟩ := exists_lastSaid_of_mem hmem hnull
    have hfound : (lay (below base) o.values).find? v.1 = some g := by
      rw [find?_lay, hsaid, Option.some_or]
    obtain ⟨e, he, hkey, -⟩ := Entries.mem_of_find? hfound
    obtain ⟨f, hname⟩ := hnamed e he
    exact ⟨f, Option.some.inj (hkey.symm.trans hname)⟩
  · intro hnames e he
    rcases mem_lay he with hbelow | ⟨v, hmem, hnull, rfl⟩
    · exact named_below base e hbelow
    · obtain ⟨f, hname⟩ := hnames v hmem hnull
      exact ⟨f, by rw [Entries.keyText?_entry, hname]⟩

theorem named_of_strays_eq_nil (h : (lay (below base) o.values).strays = []) :
    (lay (below base) o.values).Named := by
  intro e he
  obtain ⟨key, hkey, hused⟩ := Entries.strays_eq_nil_iff.mp h e he
  obtain ⟨f, g, hgiven⟩ := Entries.mem_used.mp hused
  rcases (Entries.mem_of_given? hgiven).1 with rfl | rfl
  · rcases mem_lay he with hbelow | ⟨v, hmem, -, rfl⟩
    · exact named_below base e hbelow
    · rw [Entries.keyText?_entry] at hkey
      have hfile : v.1 = f.fileKey := Option.some.inj hkey
      exact ⟨f, by rw [Entries.keyText?_entry, o.byName v hmem f hfile]⟩
  · exact ⟨f, hkey⟩

theorem follows_lay_iff (h : (lay (below base) o.values).Named) (f : Field) :
    c.Follows (lay (below base) o.values) f ↔ c.Obeys base o f := by
  unfold Follows Obeys
  rw [h.given?_eq, find?_lay, find?_below]
  unfold Overrides.said
  cases lastSaid o.values f.name with
  | some g => exact .rfl
  | none =>
    cases base with
    | none => exact .rfl
    | some c' => exact takes_given

/-- Laying overrides over a configuration succeeds with the configuration that obeys them, if they
name settings only. -/
theorem build_eq_ok_iff : build base o.values = .ok c ↔
    (∀ v ∈ o.values, v.2.isNull = false → ∃ f : Field, v.1 = f.name) ∧ ∀ f, c.Obeys base o f := by
  have hread : build base o.values = .ok c ↔
      (∀ f, c.Follows (lay (below base) o.values) f) ∧ (lay (below base) o.values).strays = [] :=
    read_eq_ok_iff
  rw [hread, ← named_lay_iff base o]
  constructor
  · rintro ⟨hfollows, hstrays⟩
    have hnamed := named_of_strays_eq_nil hstrays
    exact ⟨hnamed, fun f => (follows_lay_iff hnamed f).mp (hfollows f)⟩
  · rintro ⟨hnamed, hobeys⟩
    exact ⟨fun f => (follows_lay_iff hnamed f).mpr (hobeys f), hnamed.strays_eq⟩

theorem Obeys.of_agrees {c' : Config} {f : Field} (h : c.Obeys base o f)
    (agrees : c'.Agrees c f) : c'.Obeys base o f := by
  unfold Obeys at h ⊢
  cases hsaid : o.said f.name with
  | some g =>
    rw [hsaid] at h
    exact Takes.of_agrees h agrees
  | none =>
    rw [hsaid] at h
    exact agrees.trans h

theorem exists_build_eq_ok_iff : (∃ c, build base o.values = .ok c) ↔
    ∀ v ∈ o.values, v.2.isNull = false →
      ∃ f : Field, v.1 = f.name ∧ ∃ c : Config, c.Takes f v.2 := by
  constructor
  · rintro ⟨c, hbuild⟩ v hmem hnull
    obtain ⟨hnames, hobeys⟩ := build_eq_ok_iff.mp hbuild
    obtain ⟨f, hname⟩ := hnames v hmem hnull
    have hsaid : o.said f.name = some v.2 := by
      rw [← hname]
      exact Overrides.said_eq_some_iff.mpr ⟨hmem, hnull⟩
    have hobey := hobeys f
    unfold Obeys at hobey
    rw [hsaid] at hobey
    exact ⟨f, hname, c, hobey⟩
  · intro hvalues
    have hobeys : ∃ c : Config, ∀ f, c.Obeys base o f := by
      refine exists_of_each (fun f => ?_) fun f c c' => Obeys.of_agrees
      unfold Obeys
      cases hsaid : o.said f.name with
      | some g =>
        obtain ⟨hmem, hnull⟩ := Overrides.said_eq_some_iff.mp hsaid
        obtain ⟨f', hname, c, htakes⟩ := hvalues _ hmem hnull
        obtain rfl := Field.name_injective hname
        exact ⟨c, htakes⟩
      | none => exact ⟨base.getD {}, .refl _ f⟩
    obtain ⟨c, hc⟩ := hobeys
    refine ⟨c, build_eq_ok_iff.mpr ⟨fun v hmem hnull => ?_, hc⟩⟩
    obtain ⟨f, hname, -⟩ := hvalues v hmem hnull
    exact ⟨f, hname⟩

/-! ## One after the other -/

theorem obeys_update_iff {o' : Overrides} {c' : Config} {f : Field} (h : c.Obeys base o f) :
    c'.Obeys base (o.update o') f ↔ c'.Obeys (some c) o' f := by
  unfold Obeys at h ⊢
  rw [Overrides.said_update]
  cases o'.said f.name with
  | some g => exact .rfl
  | none =>
    dsimp only [Option.none_or, Option.getD_some]
    cases hsaid : o.said f.name with
    | some g =>
      rw [hsaid] at h
      exact ⟨fun htakes => htakes.agrees h, fun hagrees => h.of_agrees hagrees⟩
    | none =>
      rw [hsaid] at h
      exact ⟨fun hagrees => hagrees.trans h.symm, fun hagrees => hagrees.trans h⟩

theorem names_update_iff {o' : Overrides}
    (h : ∀ v ∈ o.values, v.2.isNull = false → ∃ f : Field, v.1 = f.name) :
    (∀ v ∈ (o.update o').values, v.2.isNull = false → ∃ f : Field, v.1 = f.name) ↔
      ∀ v ∈ o'.values, v.2.isNull = false → ∃ f : Field, v.1 = f.name := by
  have hkeys : ∀ key g, (o.update o').said key = some g ↔
      o'.said key = some g ∨ o'.said key = none ∧ o.said key = some g := by
    intro key g
    rw [Overrides.said_update, Option.or_eq_some_iff]
  simp only [Overrides.said_eq_some_iff] at hkeys
  constructor
  · intro hnames v hmem hnull
    have hlaid := (hkeys v.1 v.2).mpr (.inl ⟨hmem, hnull⟩)
    exact hnames v hlaid.1 hnull
  · intro hnames v hmem hnull
    rcases (hkeys v.1 v.2).mp ⟨hmem, hnull⟩ with ⟨hnew, -⟩ | ⟨-, hold, -⟩
    · exact hnames v hnew hnull
    · exact h v hold hnull

/-- Laying overrides over the outcome of others is laying both at once. -/
theorem build_update_iff {o' : Overrides} (h : build base o.values = .ok c) {c' : Config} :
    build base (o.update o').values = .ok c' ↔ build (some c) o'.values = .ok c' := by
  obtain ⟨hnames, hobeys⟩ := build_eq_ok_iff.mp h
  rw [build_eq_ok_iff, build_eq_ok_iff, names_update_iff hnames]
  exact and_congr_right fun _ => forall_congr' fun f => obeys_update_iff (hobeys f)

theorem buildOver_eq {values : List (String × Given)} (notBase : ∀ v ∈ values, v.1 ≠ baseName) :
    buildOver base values =
      match build base values with
      | .ok c => .ok c
      | .error ps => failed (.invalid none ps) := by
  have hany : values.any (·.1 == baseName) = false := by simpa using notBase
  rw [buildOver, hany]
  rfl

theorem buildOver_eq_ok_iff : buildOver base o.values = .ok c ↔ build base o.values = .ok c := by
  rw [buildOver_eq o.notBase]
  cases build base o.values <;> simp [failed]

theorem buildOver_cases (base : Option Config) (o : Overrides) :
    (∃ c, buildOver base o.values = .ok c) ∨
      ∃ f, buildOver base o.values = .error (.failure (.config f)) := by
  rw [buildOver_eq o.notBase]
  cases build base o.values with
  | ok c => exact .inl ⟨c, rfl⟩
  | error ps => exact .inr ⟨.invalid none ps, rfl⟩

/-- Overrides are accepted exactly if all that they give is a value of a setting by its name.  Then
the settings have the values that were given, or else those from below.  Without overrides a
configuration stays as it is.  Overrides that are laid over the outcome of others give the
configuration that both give at once, or fail as they do. -/
theorem buildOver_composes (base : Option Config) (o : Overrides) :
    ((∃ c, buildOver base o.values = .ok c) ↔
      ∀ v ∈ o.values, v.2.isNull = false →
        ∃ f : Field, v.1 = f.name ∧ ∃ c : Config, c.Takes f v.2) ∧
    (∀ c, buildOver base o.values = .ok c →
      (∀ f g, (Field.name f, g) ∈ o.values → g.isNull = false → c.Takes f g) ∧
      (∀ f, (∀ g, (Field.name f, g) ∈ o.values → g.isNull = true) →
        c.Agrees (base.getD {}) f) ∧
      ∀ o' : Overrides,
        (∃ c', buildOver (some c) o'.values = .ok c' ∧
          buildOver base (o.update o').values = .ok c') ∨
        (∃ f, buildOver (some c) o'.values = .error (.failure (.config f))) ∧
          ∃ f, buildOver base (o.update o').values = .error (.failure (.config f))) ∧
    ∀ c, buildOver (some c) [] = .ok c := by
  refine ⟨?_, fun c hbuild => ?_, fun c => ?_⟩
  · simp only [buildOver_eq_ok_iff]
    exact exists_build_eq_ok_iff
  · rw [buildOver_eq_ok_iff] at hbuild
    obtain ⟨-, hobeys⟩ := build_eq_ok_iff.mp hbuild
    refine ⟨fun f g hmem hnull => ?_, fun f hnone => ?_, fun o' => ?_⟩
    · have hobey := hobeys f
      unfold Obeys at hobey
      rwa [Overrides.said_eq_some_iff.mpr ⟨hmem, hnull⟩] at hobey
    · have hobey := hobeys f
      unfold Obeys at hobey
      rwa [show o.said f.name = none from lastSaid_eq_none_iff.mpr hnone] at hobey
    · rcases buildOver_cases (some c) o' with ⟨c', hc'⟩ | ⟨f, hf⟩
      · have hboth := (build_update_iff hbuild).mpr (buildOver_eq_ok_iff.mp hc')
        exact .inl ⟨c', hc', buildOver_eq_ok_iff.mpr hboth⟩
      · refine .inr ⟨⟨f, hf⟩, ?_⟩
        refine (buildOver_cases base (o.update o')).resolve_left ?_
        rintro ⟨c', hc'⟩
        have hlater := (build_update_iff hbuild).mp (buildOver_eq_ok_iff.mp hc')
        rw [buildOver_eq_ok_iff.mpr hlater] at hf
        cases hf
  · rw [buildOver_eq (fun v hv => by cases hv), build_eq_ok (fun o ho => by cases ho) fun f => rfl]
    rfl

/-- A truth value as a word, and a null that says nothing. -/
def recursiveByWord : Overrides where
  values := [("search_recursive", .ofText "yes"), ("parser", .ofTree (.scalar .null))]
  distinct := by decide
  byName := by
    intro v hmem f
    simp only [List.mem_cons, List.not_mem_nil, or_false] at hmem
    rcases hmem with rfl | rfl <;> cases f <;> simp [Field.fileKey, Field.name]
  notBase := by simp [baseName]

def otherParser (name : String) : Overrides where
  values := [("parser", .ofText name)]
  distinct := List.nodup_singleton _
  byName := by
    intro v hmem f
    rw [List.mem_singleton.mp hmem]
    cases f <;> simp [Field.fileKey, Field.name]
  notBase := by simp [baseName]

theorem recursiveByWord_composes :
    buildOver none recursiveByWord.values = .ok { searchRecursive := true } ∧
      Takes { searchRecursive := true } .searchRecursive (.ofText "yes") ∧
      Agrees { searchRecursive := true } {} .parser ∧
      (∃ c, buildOver none (recursiveByWord.update (otherParser "ruamel")).values = .ok c) ∧
      ∃ f, buildOver none (recursiveByWord.update (otherParser "toml")).values =
        .error (.failure (.config f)) := by
  have hbuild : buildOver none recursiveByWord.values = .ok { searchRecursive := true } := rfl
  obtain ⟨htakes, hagrees, hthen⟩ := (buildOver_composes none recursiveByWord).2.1 _ hbuild
  have hparser : ∀ g, (Field.parser.name, g) ∈ recursiveByWord.values → g.isNull = true := by
    intro g hmem
    simp only [recursiveByWord, Field.name, List.mem_cons, Prod.mk.injEq, List.not_mem_nil,
      or_false, String.reduceEq, false_and, false_or, true_and] at hmem
    rw [hmem]
    rfl
  refine ⟨hbuild, htakes .searchRecursive _ List.mem_cons_self rfl, hagrees .parser hparser, ?_, ?_⟩
  · rcases hthen (otherParser "ruamel") with ⟨c, -, hboth⟩ | ⟨⟨f, hfails⟩, -⟩
    · exact ⟨c, hboth⟩
    · have hlater : buildOver (some { searchRecursive := true }) (otherParser "ruamel").values =
          .ok { searchRecursive := true, parser := .modern } := rfl
      rw [hlater] at hfails
      cases hfails
  · rcases hthen (otherParser "toml") with ⟨c, hlater, -⟩ | ⟨-, hfails⟩
    · have hbad : buildOver (some { searchRecursive := true }) (otherParser "toml").values =
          failed (.invalid none [⟨[.key "parser"], .notParser, .scalar (.text "toml")⟩]) := rfl
      rw [hbad] at hlater
      cases hlater
    · exact hfails

end Config

end YamlCheck
