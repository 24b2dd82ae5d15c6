import YamlCheck.Config.Reading
import YamlCheck.Proofs.Text.Letters

/-!
# Values laid over a configuration

A value that is laid over the entries of a configuration takes the place of the one with its key and
leaves the others alone; of several values with one key the last one counts.  Entries with the names
of settings are all used, so reading them gives each setting the value that was laid over it, or
else the one that it had.
-/

namespace YamlCheck

open YamlCheck.Text YamlCheck.Yaml

theorem Field.name_injective {f f' : Field} (h : f.name = f'.name) : f = f' := by
  cases f <;> cases f' <;> simp_all [Field.name]

theorem Field.mem_all (f : Field) : f ∈ Field.all := by
  cases f <;> simp [Field.all]

namespace Entries

@[simp] theorem keyText?_entry (key : String) (g : Given) : keyText? (entry key g) = some key :=
  Letters.text?_ofText key

@[simp] theorem entry_snd (key : String) (g : Given) : (entry key g).2 = g := rfl

theorem find?_cons (e : Tree × Given) (es : Entries) (key : String) :
    find? (e :: es) key = if keyText? e = some key then some e.2 else es.find? key := by
  unfold find?
  by_cases h : keyText? e = some key
  · simp [h]
  · have hother : (keyText? e == some key) = false := by simpa using h
    simp [h, hother]

theorem find?_put (es : Entries) (key key' : String) (g : Given) :
    (es.put key g).find? key' = if key = key' then some g else es.find? key' := by
  induction es with
  | nil =>
      rw [put, find?_cons, keyText?_entry]
      simp [entry]
  | cons e es ih =>
      unfold put
      by_cases hkey : keyText? e = some key
      · simp only [hkey, beq_self_eq_true, ↓reduceIte, find?_cons, keyText?_entry,
          Option.some.injEq]
        by_cases hsame : key = key'
        · simp [hsame, entry]
        · simp [hsame]
      · have hother : (keyText? e == some key) = false := by simpa using hkey
        simp only [hother, Bool.false_eq_true, ↓reduceIte, find?_cons, ih]
        by_cases hsame : key = key'
        · subst hsame
          simp [hkey]
        · simp [hsame]

theorem mem_put {es : Entries} {key : String} {g : Given} {e : Tree × Given}
    (h : e ∈ es.put key g) : e = entry key g ∨ e ∈ es := by
  induction es with
  | nil => exact .inl (List.mem_singleton.mp h)
  | cons e' es ih =>
      unfold put at h
      split at h
      · exact (List.mem_cons.mp h).imp id (List.mem_cons_of_mem e')
      · cases List.mem_cons.mp h with
        | inl hsame => exact .inr (by simp [hsame])
        | inr hmem => exact (ih hmem).imp id (List.mem_cons_of_mem e')

theorem mem_of_find? {es : Entries} {key : String} {g : Given} (h : es.find? key = some g) :
    ∃ e ∈ es, keyText? e = some key ∧ e.2 = g := by
  unfold find? at h
  rw [Option.map_eq_some_iff] at h
  obtain ⟨e, he, hvalue⟩ := h
  have hkey := List.find?_some he
  exact ⟨e, List.mem_of_find?_eq_some he, by simpa using hkey, hvalue⟩

theorem find?_of_mem {es : Entries} {key : String} {e : Tree × Given} (hmem : e ∈ es)
    (hkey : keyText? e = some key) : ∃ g, es.find? key = some g := by
  unfold find?
  cases hfound : List.find? (fun e => keyText? e == some key) es with
  | some e' => exact ⟨e'.2, rfl⟩
  | none =>
      have hnone := List.find?_eq_none.mp hfound e hmem
      simp [hkey] at hnone

/-- Whether every key is the name of a setting. -/
def Named (es : Entries) : Prop := ∀ e ∈ es, ∃ f : Field, keyText? e = some f.name

theorem Named.put {es : Entries} (h : es.Named) (f : Field) (g : Given) :
    (es.put f.name g).Named := by
  intro e he
  cases mem_put he with
  | inl hentry => exact ⟨f, by rw [hentry, keyText?_entry]⟩
  | inr hmem => exact h e hmem

/-- Where keys are names of settings, a setting is given under its name. -/
theorem Named.given?_eq {es : Entries} (h : es.Named) (f : Field) :
    es.given? f = (es.find? f.name).map fun g => (f.name, g) := by
  unfold given?
  cases hfile : es.find? f.fileKey with
  | none => rfl
  | some g =>
      obtain ⟨e, he, hkey, -⟩ := mem_of_find? hfile
      obtain ⟨f', hname⟩ := h e he
      have hsame : f.fileKey = f'.name := Option.some.inj (hkey.symm.trans hname)
      -- Only the parser has one spelling for both.
      have hspelling : f.fileKey = f.name := by
        cases f <;> cases f' <;> simp_all [Field.fileKey, Field.name]
      rw [← hspelling, hfile]
      rfl

/-- Where keys are names of settings, none of them is unknown. -/
theorem Named.strays_eq {es : Entries} (h : es.Named) : es.strays = [] := by
  unfold strays
  rw [List.filterMap_eq_nil_iff]
  intro e he
  obtain ⟨f, hkey⟩ := h e he
  obtain ⟨g, hfound⟩ := find?_of_mem he hkey
  have hused : f.name ∈ es.used := by
    unfold used
    rw [List.mem_filterMap]
    exact ⟨f, f.mem_all, by rw [h.given?_eq, hfound]; rfl⟩
  simp [strayProblem?, hkey, hused]

/-- An entry whose key has a text is not broken. -/
theorem isBrokenKey_of_keyText? {e : Tree × Given} {key : String} (h : keyText? e = some key) :
    isBrokenKey e = false := by
  unfold keyText? at h
  unfold isBrokenKey
  split at h
  · rename_i text hkey
    simp [hkey, h]
  · cases h

theorem broken?_eq_none {es : Entries} (h : ∀ e ∈ es, ∃ key, keyText? e = some key) :
    es.broken? = none := by
  unfold broken?
  rw [Option.map_eq_none_iff, List.find?_eq_none]
  intro e he
  obtain ⟨key, hkey⟩ := h e he
  simp [isBrokenKey_of_keyText? hkey]

theorem Named.broken?_eq {es : Entries} (h : es.Named) : es.broken? = none :=
  broken?_eq_none fun e he => (h e he).elim fun f hkey => ⟨f.name, hkey⟩

theorem Named.setting_eq {α : Type} {es : Entries} (h : es.Named) (f : Field) (default : α)
    (read : List Step → Given → Judged α) :
    es.setting f default read =
      match es.find? f.name with
      | some g => read [.key f.name] g
      | none => .ok default := by
  unfold setting
  rw [h.given?_eq]
  cases es.find? f.name <;> rfl

end Entries

/-! ## Reading what was written -/

theorem readTexts_texts (place : List Step) (i : Nat) (ss : List Letters) :
    readTexts place i (ss.map fun s => .scalar (.text s)) = .ok ss := by
  induction ss generalizing i with
  | nil => rfl
  | cons s ss ih => simp [readTexts, readText, ih]

@[simp] theorem readList_ofTexts (place : List Step) (ss : List Letters) :
    readList place (.ofTexts ss) = .ok ss := readTexts_texts place 0 ss

@[simp] theorem readTruth_ofBool (place : List Step) (b : Bool) :
    readTruth place (.ofBool b) = .ok b := rfl

theorem Yaml.Dialect.ofName?_name (d : Dialect) : Dialect.ofName? d.name = some d := by
  cases d <;> decide

@[simp] theorem readParser_ofText (place : List Step) (d : Dialect) :
    readParser place (.ofText d.name) = .ok d := by
  simp [readParser, Given.ofText, Given.ofTree, Letters.text?_ofText, Dialect.ofName?_name]

namespace Config

/-- The value of a setting as it is written out. -/
def given (c : Config) : Field → Given
  | .searchPaths => .ofTexts c.searchPaths
  | .searchRecursive => .ofBool c.searchRecursive
  | .allowDuplicates => .ofBool c.allowDuplicates
  | .parser => .ofText c.parser.name

theorem find?_entries (c : Config) (f : Field) : c.entries.find? f.name = some (c.given f) := by
  cases f <;> simp [entries, Entries.find?_cons, given, Field.name]

theorem named_entries (c : Config) : c.entries.Named := by
  intro e he
  simp only [entries, List.mem_cons, List.not_mem_nil, or_false] at he
  rcases he with he | he | he | he
  · exact ⟨.searchPaths, he ▸ Entries.keyText?_entry _ _⟩
  · exact ⟨.searchRecursive, he ▸ Entries.keyText?_entry _ _⟩
  · exact ⟨.allowDuplicates, he ▸ Entries.keyText?_entry _ _⟩
  · exact ⟨.parser, he ▸ Entries.keyText?_entry _ _⟩

/-- The last of some values that says something about a key. -/
def lastSaid (values : List (String × Given)) (key : String) : Option Given :=
  (values.reverse.find? fun o => o.1 == key && !o.2.isNull).map (·.2)

theorem lastSaid_append (values values' : List (String × Given)) (key : String) :
    lastSaid (values ++ values') key = (lastSaid values' key).or (lastSaid values key) := by
  unfold lastSaid
  rw [List.reverse_append, List.find?_append]
  cases values'.reverse.find? fun o => o.1 == key && !o.2.isNull <;> simp

theorem lastSaid_nil (key : String) : lastSaid [] key = none := rfl

theorem lastSaid_single (key' key : String) (g : Given) :
    lastSaid [(key', g)] key = if key' = key ∧ g.isNull = false then some g else none := by
  unfold lastSaid
  by_cases hkey : key' = key
  · cases hnull : g.isNull <;> simp [hkey, hnull]
  · simp [hkey]

/-- What is said about some settings, as values under their names. -/
def valuesOf (said : Field → Option Given) (fields : List Field) : List (String × Given) :=
  fields.flatMap fun f => ((said f).map fun g => (f.name, g)).toList

theorem valuesOf_names {said : Field → Option Given} {fields : List Field} :
    ∀ o ∈ valuesOf said fields, ∃ f : Field, o.1 = f.name := by
  intro o ho
  simp only [valuesOf, List.mem_flatMap, Option.mem_toList, Option.map_eq_some_iff] at ho
  obtain ⟨f, -, g, -, rfl⟩ := ho
  exact ⟨f, rfl⟩

theorem lastSaid_valuesOf {said : Field → Option Given}
    (nonNull : ∀ f g, said f = some g → g.isNull = false) (fields : List Field) (f : Field) :
    lastSaid (valuesOf said fields) f.name = if f ∈ fields then said f else none := by
  induction fields with
  | nil => rfl
  | cons f' fields ih =>
      have hname : f'.name = f.name ↔ f = f' :=
        ⟨fun h => (Field.name_injective h).symm, fun h => by rw [h]⟩
      have hcons : valuesOf said (f' :: fields) =
          ((said f').map fun g => (f'.name, g)).toList ++ valuesOf said fields := rfl
      have hfirst : lastSaid ((said f').map fun g => (f'.name, g)).toList f.name =
          if f = f' then said f else none := by
        cases hsaid : said f' with
        | none => by_cases hf : f = f' <;> simp [lastSaid_nil, hf, hsaid]
        | some g =>
            have hsome := nonNull f' g hsaid
            by_cases hf : f = f' <;> simp [lastSaid_single, hname, hf, hsaid, hsome]
      rw [hcons, lastSaid_append, ih, hfirst]
      by_cases hmem : f ∈ fields
      · -- An earlier mention of the same setting says the same.
        rw [if_pos hmem, if_pos (List.mem_cons_of_mem f' hmem)]
        split <;> simp
      · simp [hmem]

theorem find?_lay (es : Entries) (values : List (String × Given)) (key : String) :
    (lay es values).find? key = (lastSaid values key).or (es.find? key) := by
  induction values generalizing es with
  | nil => rfl
  | cons o values ih =>
      have hcons : lastSaid (o :: values) key = (lastSaid values key).or (lastSaid [o] key) :=
        lastSaid_append [o] values key
      have hlay : lay es (o :: values) =
          lay (if o.2.isNull then es else es.put o.1 o.2) values := rfl
      rw [hlay, ih, hcons, Option.or_assoc, lastSaid_single]
      cases hnull : o.2.isNull with
      | true => simp
      | false =>
          by_cases hkey : o.1 = key
          · simp [Entries.find?_put, hkey]
          · simp [Entries.find?_put, hkey]

theorem named_lay {es : Entries} {values : List (String × Given)} (h : es.Named)
    (names : ∀ o ∈ values, ∃ f : Field, o.1 = f.name) : (lay es values).Named := by
  induction values generalizing es with
  | nil => exact h
  | cons o values ih =>
      have hrest : ∀ o ∈ values, ∃ f : Field, o.1 = f.name := fun o ho => names o (by simp [ho])
      have hlay : lay es (o :: values) =
          lay (if o.2.isNull then es else es.put o.1 o.2) values := rfl
      rw [hlay]
      apply ih _ hrest
      split
      · exact h
      · obtain ⟨f, hname⟩ := names o (by simp)
        rw [hname]
        exact h.put f o.2

theorem named_over (base : Option Config) {values : List (String × Given)}
    (names : ∀ o ∈ values, ∃ f : Field, o.1 = f.name) :
    (lay ((base.map entries).getD []) values).Named := by
  apply named_lay _ names
  cases base with
  | none => exact fun e he => by cases he
  | some c => exact c.named_entries

/-- What a setting is read from when values are laid over a configuration: the value that was laid
over it last, or else the one that it had.  A setting without a value keeps its default, which is
what reading the default would give. -/
theorem setting_over {α : Type} (base : Option Config) {values : List (String × Given)}
    (names : ∀ o ∈ values, ∃ f : Field, o.1 = f.name) (f : Field) {default : α}
    {read : List Step → Given → Judged α}
    (keeps : read [.key f.name] (({} : Config).given f) = .ok default) :
    (lay ((base.map entries).getD []) values).setting f default read =
      read [.key f.name] ((lastSaid values f.name).getD ((base.getD {}).given f)) := by
  rw [(named_over base names).setting_eq, find?_lay]
  cases hsaid : lastSaid values f.name with
  | some g => rfl
  | none =>
      cases base with
      | none => exact keeps.symm
      | some c =>
          have hfound : ((Option.map entries (some c)).getD []).find? f.name = some (c.given f) :=
            c.find?_entries f
          rw [hfound]
          rfl

/-- Laying values over a configuration gives the configuration in which each setting has the value
that was laid over it last, or else the one that it had, or else the default. -/
theorem build_eq_ok {base : Option Config} {values : List (String × Given)} {c : Config}
    (names : ∀ o ∈ values, ∃ f : Field, o.1 = f.name)
    (laid : ∀ f : Field, (lastSaid values f.name).getD ((base.getD {}).given f) = c.given f) :
    build base values = .ok c := by
  have hpaths := setting_over base names .searchPaths (readList_ofTexts _ _)
  have hrecursive := setting_over base names .searchRecursive (readTruth_ofBool _ _)
  have hduplicates := setting_over base names .allowDuplicates (readTruth_ofBool _ _)
  have hparser := setting_over base names .parser (readParser_ofText _ _)
  rw [laid] at hpaths hrecursive hduplicates hparser
  unfold build read
  rw [(named_over base names).broken?_eq]
  simp only [ofEntries, hpaths, hrecursive, hduplicates, hparser, (named_over base names).strays_eq,
    given, readList_ofTexts, readTruth_ofBool, readParser_ofText]

end Config

end YamlCheck
