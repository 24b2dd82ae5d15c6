import YamlCheck.Proofs.Config.Loading
import YamlCheck.Proofs.Config.Reading

/-!
# What a mapping says of a configuration

A mapping that is accepted is heeded as a whole.  Each of its keys is a spelling of one setting, no
setting is given twice, and the configuration has the values that the mapping gives and the defaults
for all else.  So neither the order of the entries nor the choice between the two spellings of a
setting makes a difference.
-/

namespace YamlCheck

open YamlCheck.Text YamlCheck.Yaml

namespace Config

/-- What an accepted mapping says is all in the configuration: each entry is known, no setting has
two of them, the settings have the values that are given, and the others have their defaults. -/
structure Heeds (c : Config) (es : Entries) : Prop where
  known : ∀ e ∈ es, ∃! f, Entries.Gives e f
  once : es.Pairwise Entries.Separate
  taken : ∀ e ∈ es, ∀ f, Entries.Gives e f → c.Takes f e.2
  others : ∀ f, (∀ e ∈ es, ¬Entries.Gives e f) → c.Agrees {} f

theorem Heeds.eq_of_gives {c : Config} {es : Entries} (h : c.Heeds es) {e e' : Tree × Given}
    (hmem : e ∈ es) (hmem' : e' ∈ es) {f : Field} (hgives : Entries.Gives e f)
    (hgives' : Entries.Gives e' f) : e = e' := by
  by_contra hne
  exact h.once.forall hmem hmem' hne f hgives hgives'

/-- A mapping that is heeded is accepted. -/
theorem Heeds.read_eq {c : Config} {es : Entries} (h : c.Heeds es) : read es = .ok c := by
  refine read_eq_ok_iff.mpr ⟨fun f => ?_, Entries.strays_eq_nil_iff.mpr fun e hmem => ?_⟩
  · unfold Follows
    cases hgiven : es.given? f with
    | none => exact h.others f (Entries.given?_eq_none_iff.mp hgiven)
    | some given =>
      obtain ⟨hspells, e, hmem, hkey, hvalue⟩ := Entries.mem_of_given? hgiven
      dsimp only
      rw [← hvalue]
      exact h.taken e hmem f ⟨_, hkey, hspells⟩
  · obtain ⟨f, hgives, -⟩ := h.known e hmem
    cases hgiven : es.given? f with
    | none => exact absurd hgives (Entries.given?_eq_none_iff.mp hgiven e hmem)
    | some given =>
      obtain ⟨hspells, e', hmem', hkey', -⟩ := Entries.mem_of_given? hgiven
      obtain rfl := h.eq_of_gives hmem hmem' hgives ⟨_, hkey', hspells⟩
      exact ⟨_, hkey', Entries.mem_used.mpr ⟨f, given.2, hgiven⟩⟩

/-- A mapping is accepted exactly if it is heeded. -/
theorem read_eq_ok_iff_heeds {c : Config} {es : Entries} (distinct : es.Distinct) :
    read es = .ok c ↔ c.Heeds es := by
  refine ⟨fun hread => ?_, Heeds.read_eq⟩
  obtain ⟨hfollows, hstrays⟩ := read_eq_ok_iff.mp hread
  have hgiven : ∀ e ∈ es, ∀ f, Entries.Gives e f → ∃ key, Entries.keyText? e = some key ∧
      es.given? f = some (key, e.2) := by
    rintro e hmem f ⟨key, hkey, hspells⟩
    obtain ⟨key', hkey', hused⟩ := Entries.strays_eq_nil_iff.mp hstrays e hmem
    obtain rfl : key = key' := Option.some.inj (hkey.symm.trans hkey')
    obtain ⟨f', g, hgiven⟩ := Entries.mem_used.mp hused
    obtain ⟨hspells', e', hmem', hkey'', rfl⟩ := Entries.mem_of_given? hgiven
    obtain rfl := hspells.unique hspells'
    obtain rfl := distinct.eq_of_keyText? hmem hmem' hkey hkey''
    exact ⟨key, hkey, hgiven⟩
  constructor
  · intro e hmem
    obtain ⟨key, hkey, hused⟩ := Entries.strays_eq_nil_iff.mp hstrays e hmem
    obtain ⟨f, g, hf⟩ := Entries.mem_used.mp hused
    have hgives : Entries.Gives e f := ⟨key, hkey, (Entries.mem_of_given? hf).1⟩
    exact ⟨f, hgives, fun f' hgives' => hgives'.unique hgives⟩
  · refine distinct.imp_of_mem fun {e e'} hmem hmem' hapart f hgives hgives' => ?_
    obtain ⟨key, hkey, hf⟩ := hgiven e hmem f hgives
    obtain ⟨key', hkey', hf'⟩ := hgiven e' hmem' f hgives'
    have hsame : key = key' := congrArg Prod.fst (Option.some.inj (hf.symm.trans hf'))
    exact hapart key hkey (hsame ▸ hkey')
  · intro e hmem f hgives
    obtain ⟨key, -, hf⟩ := hgiven e hmem f hgives
    have hfollow := hfollows f
    unfold Follows at hfollow
    rwa [hf] at hfollow
  · intro f hnone
    have hfollow := hfollows f
    unfold Follows at hfollow
    rwa [Entries.given?_eq_none_iff.mpr hnone] at hfollow

/-! ## Other words for one configuration -/

end Config

namespace Entries

/-- Whether two entries give one value to one setting, under whichever of its spellings. -/
def Alike (e e' : Tree × Given) : Prop := e.2.Same e'.2 ∧ ∃ f, Gives e f ∧ Gives e' f

/-- Whether one mapping has the entries of another, in any order and under any spellings. -/
def Reworded (es es' : Entries) : Prop := ∃ mid, es.Perm mid ∧ List.Forall₂ Alike mid es'

theorem Alike.gives_iff {e e' : Tree × Given} (h : Alike e e') (f : Field) :
    Gives e f ↔ Gives e' f := by
  obtain ⟨-, f₀, hgives₀, hgives₀'⟩ := h
  constructor
  · intro hgives
    rw [hgives.unique hgives₀]
    exact hgives₀'
  · intro hgives'
    rw [hgives'.unique hgives₀']
    exact hgives₀

theorem exists_of_forall₂ {R : Tree × Given → Tree × Given → Prop} {es es' : Entries}
    (h : List.Forall₂ R es es') {e' : Tree × Given} (hmem : e' ∈ es') : ∃ e ∈ es, R e e' := by
  induction h with
  | nil => cases hmem
  | cons hfirst _ ih =>
    rcases List.mem_cons.mp hmem with rfl | hrest
    · exact ⟨_, List.mem_cons_self, hfirst⟩
    · obtain ⟨e, hmem', hrel⟩ := ih hrest
      exact ⟨e, List.mem_cons_of_mem _ hmem', hrel⟩

theorem separate_of_alike {es es' : Entries} (h : List.Forall₂ Alike es es')
    (once : es.Pairwise Separate) : es'.Pairwise Separate := by
  induction h with
  | nil => exact .nil
  | cons hfirst hrest ih =>
    obtain ⟨hseparate, honce⟩ := List.pairwise_cons.mp once
    refine List.pairwise_cons.mpr ⟨fun e' hmem' f hgives hgives' => ?_, ih honce⟩
    obtain ⟨e, hmem, halike⟩ := exists_of_forall₂ hrest hmem'
    exact hseparate e hmem f ((hfirst.gives_iff f).mpr hgives) ((halike.gives_iff f).mpr hgives')

end Entries

namespace Config

theorem Heeds.perm {c : Config} {es es' : Entries} (h : c.Heeds es) (perm : es.Perm es') :
    c.Heeds es' where
  known e hmem := h.known e (perm.mem_iff.mpr hmem)
  once := perm.pairwise h.once fun hseparate => Std.Symm.symm _ _ hseparate
  taken e hmem := h.taken e (perm.mem_iff.mpr hmem)
  others f hnone := h.others f fun e hmem => hnone e (perm.mem_iff.mp hmem)

theorem Heeds.alike {c : Config} {es es' : Entries} (h : c.Heeds es)
    (alike : List.Forall₂ Entries.Alike es es') : c.Heeds es' where
  known e' hmem' := by
    obtain ⟨e, hmem, halike⟩ := Entries.exists_of_forall₂ alike hmem'
    exact (existsUnique_congr fun f => halike.gives_iff f).mp (h.known e hmem)
  once := Entries.separate_of_alike alike h.once
  taken e' hmem' f hgives' := by
    obtain ⟨e, hmem, halike⟩ := Entries.exists_of_forall₂ alike hmem'
    exact (h.taken e hmem f ((halike.gives_iff f).mpr hgives')).same halike.1
  others f hnone := by
    refine h.others f fun e hmem hgives => ?_
    obtain ⟨e', hmem', halike⟩ : ∃ e' ∈ es', Entries.Alike e e' :=
      Entries.exists_of_forall₂ alike.flip hmem
    exact hnone e' hmem' ((halike.gives_iff f).mp hgives)

theorem Heeds.reworded {c : Config} {es es' : Entries} (h : c.Heeds es)
    (reworded : es.Reworded es') : c.Heeds es' := by
  obtain ⟨mid, hperm, halike⟩ := reworded
  exact (h.perm hperm).alike halike

end Config

/-! ## Files -/

namespace Yaml

theorem Value.keyText?_shallow {limits : Limits} {cells : Cells} {v : Value} {key : String}
    {g : Given} :
    Entries.keyText? (v.shallow limits cells, g) = some key ↔ v = .scalar (.text key) := by
  unfold shallow Entries.keyText?
  cases v with
  | scalar s =>
    cases s with
    | text t => simp [Tree.unfold, Letters.text?_eq_some_iff]
    | _ => simp [Tree.unfold]
  | tuple items => simp [Tree.unfold]
  | ref i =>
    unfold Tree.unfold
    simp only [List.findIdx?_nil, reduceCtorEq, iff_false]
    cases cells.cell i <;> simp

/-- No two entries of a mapping that was loaded have one text for their keys. -/
theorem Document.distinct {limits : Limits} {d : Document}
    (keyed : ∀ i, (d.cells.cell i).Keyed) {es : Entries} (h : d.entries? limits = some es) :
    es.Distinct := by
  unfold entries? at h
  split at h
  · rename_i i hroot
    split at h
    · rename_i entries hcell
      cases h
      have hkeyed : Value.Keyed entries := by
        have := keyed i
        rwa [hcell] at this
      refine List.pairwise_map.mpr (hkeyed.imp fun {e e'} hother key hkey hkey' => ?_)
      rw [Value.keyText?_shallow.mp hkey, Value.keyText?_shallow.mp hkey'] at hother
      simp [Value.same, Scalar.same] at hother
    · cases h
  · cases h

theorem keyed_of_loadSingle {limits : Limits} {src : Source} {d : Document}
    (h : loadSingle limits src = .ok (some d)) :
    ∀ i, (d.cells.cell i).Keyed := by
  unfold loadSingle at h
  cases hrun : (Parse.single? limits).run (Parser.start .classic src) with
  | error e =>
    rw [hrun] at h
    cases h
  | ok read =>
    obtain ⟨g, p⟩ := read
    rw [hrun] at h
    cases g with
    | none => cases h
    | some g =>
      dsimp only [bind, Except.bind] at h
      cases hbuilt : g.document (p.rules limits .classic .allowed) with
      | error e =>
        rw [hbuilt] at h
        cases h
      | ok d' =>
        rw [hbuilt] at h
        cases h
        exact Graph.keyed_of_document hbuilt

end Yaml

namespace Config

/-- Whether a path leads to a file that may be read and holds a mapping. -/
def Written (limits : Limits) (fs : FileSystem) (path : Path) (es : Entries) : Prop :=
  ∃ mode bytes d, fs.lookUp true path = .ok (.file mode bytes) ∧ mode.read = true ∧
    loadSingle limits (Source.ofTextFile bytes) = .ok (some d) ∧ d.entries? limits = some es

theorem ofDocument_eq_ok_iff {limits : Limits} {path : Path} {d : Document} {es : Entries}
    (h : d.entries? limits = some es) {c : Config} :
    (ofDocument limits path (some d)).2 = .ok c ↔ read es = .ok c := by
  unfold ofDocument
  extract_lets finish
  split
  · rename_i hnone
    cases hnone
  · rename_i cells hnull
    cases hnull
    cases h
  · rename_i d' _ hsome
    cases hsome
    rw [h]
    dsimp only [finish]
    cases read es <;> simp [failed]

namespace Written

variable {limits : Limits} {fs : FileSystem} {path : Path} {es : Entries} {c : Config}

theorem distinct (h : Written limits fs path es) : es.Distinct := by
  obtain ⟨mode, bytes, d, -, -, hload, hentries⟩ := h
  exact d.distinct (keyed_of_loadSingle hload) hentries

theorem load_eq_ok_iff (h : Written limits fs path es) :
    (load limits fs path).2 = .ok c ↔ read es = .ok c := by
  obtain ⟨mode, bytes, d, hlook, hread, hload, hentries⟩ := h
  rw [load_of_lookUp hlook, if_pos hread, hload]
  exact ofDocument_eq_ok_iff hentries

end Written

/-- A file that holds a mapping is loaded as a configuration exactly if the configuration heeds the
mapping.  Then the mapping is read as the same configuration with its entries in any other order and
its settings under any of their spellings, and so is a file that holds it in those words. -/
theorem load_heeds {limits : Limits} {fs : FileSystem} {path : Path} {es : Entries}
    (written : Written limits fs path es) (c : Config) :
    ((load limits fs path).2 = .ok c ↔ c.Heeds es) ∧
      ((load limits fs path).2 = .ok c → ∀ es', es.Reworded es' → read es' = .ok c ∧
        ∀ fs' path', Written limits fs' path' es' → (load limits fs' path').2 = .ok c) := by
  have hheeds : (load limits fs path).2 = .ok c ↔ c.Heeds es := by
    rw [written.load_eq_ok_iff, read_eq_ok_iff_heeds written.distinct]
  refine ⟨hheeds, fun hload es' reworded => ?_⟩
  have hread : read es' = .ok c := ((hheeds.mp hload).reworded reworded).read_eq
  exact ⟨hread, fun fs' path' written' => written'.load_eq_ok_iff.mpr hread⟩

end Config

/-! ## A configuration in two wordings -/

/-- A mapping from texts to scalars. -/
def Entries.ofScalars (values : List (String × Scalar)) : Entries :=
  values.map fun v => entry v.1 (.ofTree (.scalar v.2))

/-- The key and the value of an entry, if they are a text and a scalar. -/
def Entries.scalar? (e : Tree × Given) : Option (String × Scalar) :=
  match e with
  | (.scalar (.text key), ⟨.scalar s, none⟩) => key.text?.map fun text => (text, s)
  | _ => none

theorem Entries.eq_ofScalars {es : Entries} {values : List (String × Scalar)}
    (h : es.mapM scalar? = some values) : es = ofScalars values := by
  induction es generalizing values with
  | nil =>
    cases h
    rfl
  | cons e es ih =>
    simp only [List.mapM_cons, Option.bind_eq_bind, Option.bind_eq_some_iff, Option.pure_def,
      Option.some.injEq] at h
    obtain ⟨v, hfirst, vs, hrest, rfl⟩ := h
    have hentry : e = entry v.1 (.ofTree (.scalar v.2)) := by
      unfold scalar? at hfirst
      split at hfirst
      · rename_i key s
        obtain ⟨text, htext, rfl⟩ := Option.map_eq_some_iff.mp hfirst
        rw [Letters.text?_eq_some_iff.mp htext]
        rfl
      · cases hfirst
    rw [hentry, ih hrest]
    rfl

namespace Config

/-- The keys and values of a text, if it is a mapping from texts to scalars. -/
def scalarsOf? (bytes : List UInt8) : Option (List (String × Scalar)) :=
  match loadSingle .usual (Source.ofTextFile bytes) with
  | .ok (some d) => (d.entries? .usual).bind fun es => es.mapM Entries.scalar?
  | _ => none

theorem written_of_scalarsOf? {fs : FileSystem} {path : Path} {bytes : List UInt8}
    {values : List (String × Scalar)} (lookUp : fs.lookUp true path = .ok (.file .ofFile bytes))
    (h : scalarsOf? bytes = some values) : Written .usual fs path (.ofScalars values) := by
  unfold scalarsOf? at h
  split at h
  · rename_i d hload
    obtain ⟨es, hentries, hscalars⟩ := Option.bind_eq_some_iff.mp h
    rw [← Entries.eq_ofScalars hscalars]
    exact ⟨.ofFile, bytes, d, lookUp, rfl, hload, hentries⟩
  · cases h

def inFileKeys : List UInt8 := "searchRecursive: yes\nparser: ruamel\n".toUTF8.toList

def inNames : List UInt8 := "parser: ruamel\nsearch_recursive: yes\n".toUTF8.toList

/-- Two files that say the same. -/
def twoWordings : FileSystem where
  root := .directory .ofDirectory
    [("a.yaml", .file .ofFile inFileKeys), ("b.yaml", .file .ofFile inNames)]

theorem twoWordings_heeded :
    ∃ es es', Written .usual twoWordings (Path.ofText "/a.yaml") es ∧
      Written .usual twoWordings (Path.ofText "/b.yaml") es' ∧ es.Reworded es' ∧
      (load .usual twoWordings (Path.ofText "/a.yaml")).2 =
        .ok { searchRecursive := true, parser := .modern } ∧
      Heeds { searchRecursive := true, parser := .modern } es ∧
      (load .usual twoWordings (Path.ofText "/b.yaml")).2 =
        .ok { searchRecursive := true, parser := .modern } := by
  have hfirst : Written .usual twoWordings (Path.ofText "/a.yaml")
      (.ofScalars [("searchRecursive", .bool true), ("parser", .text "ruamel")]) :=
    written_of_scalarsOf? (by rfl) (show scalarsOf? inFileKeys = some _ by decide +kernel)
  have hsecond : Written .usual twoWordings (Path.ofText "/b.yaml")
      (.ofScalars [("parser", .text "ruamel"), ("search_recursive", .bool true)]) :=
    written_of_scalarsOf? (by rfl) (show scalarsOf? inNames = some _ by decide +kernel)
  have hreworded : Entries.Reworded
      (.ofScalars [("searchRecursive", .bool true), ("parser", .text "ruamel")])
      (.ofScalars [("parser", .text "ruamel"), ("search_recursive", .bool true)]) := by
    refine ⟨_, .swap _ _ _, .cons ⟨.refl _, .parser, ?_, ?_⟩
      (.cons ⟨.refl _, .searchRecursive, ?_, ?_⟩ .nil)⟩
    · exact ⟨"parser", rfl, .inl rfl⟩
    · exact ⟨"parser", rfl, .inl rfl⟩
    · exact ⟨"searchRecursive", rfl, .inl rfl⟩
    · exact ⟨"search_recursive", rfl, .inr rfl⟩
  have hload := hfirst.load_eq_ok_iff.mpr
    (show read _ = .ok { searchRecursive := true, parser := .modern } by rfl)
  obtain ⟨hheeds, hsame⟩ := load_heeds hfirst { searchRecursive := true, parser := .modern }
  exact ⟨_, _, hfirst, hsecond, hreworded, hload, hheeds.mp hload,
    (hsame hload _ hreworded).2 _ _ hsecond⟩

end Config

end YamlCheck
