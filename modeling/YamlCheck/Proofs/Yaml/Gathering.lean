import YamlCheck.Proofs.Yaml.Flattening

/-!
# What replacing merge keys gathers

A mapping has the entries that are its own, and those of every mapping that one of its merge keys
names, and so on.  When its merge keys are replaced it gets them all, however the named mappings
share their sources or name each other in a circle.  On the way another mapping may be left without
some that it would have got in its own turn; these have come into the first one.
-/

namespace YamlCheck.Yaml

namespace Graph

/-- Whether an entry, if its key is a merge key, brings in the entries of a node. -/
def Names (g : Graph) (e : Entry) (i : NodeId) : Prop :=
  i = e.value ∨ ∃ items, (g.node e.value).content = .sequence items ∧ i ∈ items

/-- The ordinary entries of a mapping, its own and those that merge keys bring in. -/
inductive Brings (g : Graph) : NodeId → Entry → Prop
  | own {i : NodeId} {e : Entry} (mem : e ∈ g.entries i) (ordinary : g.isMerge e = false) :
      Brings g i e
  | merged {i j : NodeId} {m e : Entry} (mem : m ∈ g.entries i) (merge : g.isMerge m = true)
      (named : g.Names m j) (brings : Brings g j e) : Brings g i e

variable {g g₁ g₂ : Graph} {i j : NodeId} {e m : Entry}

theorem isMerge_of_not_merges (h : ¬g.Merges i) (mem : e ∈ g.entries i) : g.isMerge e = false := by
  by_contra hmerge
  exact h ⟨e, mem, by simpa using hmerge⟩

theorem not_merges_of_kind (h : (g.node i).content.kind ≠ .mapping) : ¬g.Merges i := by
  rintro ⟨e, he, -⟩
  rw [entries_of_kind h] at he
  cases he

theorem Brings.mem (h : g.Brings i e) (unmerged : ¬g.Merges i) : e ∈ g.entries i := by
  cases h with
  | own mem _ => exact mem
  | merged mem merge _ _ => exact (unmerged ⟨_, mem, merge⟩).elim

theorem Brings.entries_ne_nil (h : g.Brings i e) : g.entries i ≠ [] := by
  cases h with
  | own mem _ => exact List.ne_nil_of_mem mem
  | merged mem _ _ _ => exact List.ne_nil_of_mem mem

theorem Brings.kind (h : g.Brings i e) : (g.node i).content.kind = .mapping := by
  by_contra hkind
  exact h.entries_ne_nil (entries_of_kind hkind)

section Kept

variable {brought : Entry → Prop}

theorem Flattens.names_iff (h : Flattens brought g g₁) : g₁.Names m j ↔ g.Names m j := by
  unfold Names
  simp only [h.sequence_iff]

theorem Flattens.merges_iff (h : Flattens brought g g₁) (same : g₁.entries i = g.entries i) :
    g₁.Merges i ↔ g.Merges i := by
  simp only [Merges, same, h.isMerge_eq]

/-- A graph in which no mapping has lost an entry brings in all that it did. -/
theorem Brings.mono (h : Flattens brought g g₁) (kept : ∀ j, ∀ e ∈ g.entries j, e ∈ g₁.entries j)
    (brings : g.Brings i e) : g₁.Brings i e := by
  induction brings with
  | own mem ordinary => exact .own (kept _ _ mem) (by rw [h.isMerge_eq, ordinary])
  | merged mem merge named _ ih =>
    exact .merged (kept _ _ mem) (by rw [h.isMerge_eq, merge]) (h.names_iff.mpr named) ih

/-- What was brought in before a merge key is dropped is brought in still, or what the key names
brings it in. -/
theorem Brings.drop {before after : List Entry} (split : g.entries j = before ++ m :: after)
    (merge : g.isMerge m = true) (brings : g.Brings i e) :
    (g.setEntries j (before ++ after)).Brings i e ∨
      ∃ k, g.Names m k ∧ (g.setEntries j (before ++ after)).Brings k e := by
  have hmapping : (g.node j).content.kind = .mapping :=
    kind_of_mem_entries (e := m) (by simp [split])
  have hflat : Flattens (fun _ => True) g (g.setEntries j (before ++ after)) :=
    .of_drop split merge
  have hkept : ∀ k, ∀ e ∈ g.entries k,
      e ∈ (g.setEntries j (before ++ after)).entries k ∨ e = m := by
    intro k e he
    by_cases hk : k = j
    · subst hk
      rw [split, List.mem_append, List.mem_cons] at he
      rw [entries_setEntries hmapping, List.mem_append]
      rcases he with he | rfl | he
      · exact .inl (.inl he)
      · exact .inr rfl
      · exact .inl (.inr he)
    · rw [(sameBut_setEntries hmapping _).entries k hk]
      exact .inl he
  induction brings with
  | @own i e mem ordinary =>
    refine .inl (.own ((hkept i e mem).resolve_right ?_) (by rw [hflat.isMerge_eq, ordinary]))
    rintro rfl
    rw [ordinary] at merge
    cases merge
  | @merged i k m' e mem merge' named _ ih =>
    rcases ih with hbrings | hnamed
    · rcases hkept i m' mem with hmem | rfl
      · exact .inl (.merged hmem (by rw [hflat.isMerge_eq, merge'])
          (hflat.names_iff.mpr named) hbrings)
      · exact .inr ⟨k, named, hbrings⟩
    · exact .inr hnamed

end Kept

/-! ## From one graph to the next -/

/-- On the way from one graph to another the entries in `out` were gathered: what a mapping brought
in it brings in still, or it is among them.  A mapping that has changed has no merge key left. -/
structure Gathers (g g' : Graph) (out : List Entry) : Prop where
  flat : Flattens (fun _ => True) g g'
  brings : ∀ i e, g.Brings i e → g'.Brings i e ∨ e ∈ out
  cleared : ∀ i, g'.entries i = g.entries i ∨ ¬g'.Merges i

namespace Gathers

variable {out out₁ out₂ : List Entry}

theorem refl (g : Graph) : Gathers g g [] :=
  ⟨.refl _ g, fun _ _ h => .inl h, fun _ => .inl rfl⟩

theorem sub (h : Gathers g g₁ out₁) (sub : ∀ e ∈ out₁, e ∈ out₂) : Gathers g g₁ out₂ :=
  ⟨h.flat, fun i e he => (h.brings i e he).imp id (sub e), h.cleared⟩

theorem trans (h : Gathers g g₁ out₁) (h' : Gathers g₁ g₂ out₂) :
    Gathers g g₂ (out₁ ++ out₂) where
  flat := h.flat.trans h'.flat
  brings i e he := by
    rcases h.brings i e he with hbrings | hout
    · exact (h'.brings i e hbrings).imp id (List.mem_append_right out₁)
    · exact .inr (List.mem_append_left out₂ hout)
  cleared i := by
    rcases h'.cleared i with hsame | hclear
    · rcases h.cleared i with hsame₁ | hclear₁
      · exact .inl (hsame.trans hsame₁)
      · exact .inr ((h'.flat.merges_iff hsame).not.mpr hclear₁)
    · exact .inr hclear

theorem settle (g : Graph) (es : List Entry) : Gathers g (es.foldl settleValueKey g) [] := by
  induction es generalizing g with
  | nil => exact refl g
  | cons e es ih =>
    have hflat : Flattens (fun _ => True) g (g.settleValueKey e) := .of_settle _ g e
    have hfirst : Gathers g (g.settleValueKey e) [] := by
      refine ⟨hflat, fun i e' he' => .inl (he'.mono hflat fun j e'' he'' => ?_), fun i => ?_⟩
      · rw [entries_settleValueKey]
        exact he''
      · exact .inl (entries_settleValueKey g e i)
    exact hfirst.trans (ih (g.settleValueKey e))

end Gathers

/-- On the way all is gathered that some nodes bring in. -/
structure GathersFrom (sources : NodeId → Prop) (g g' : Graph) (out : List Entry) : Prop
    extends Gathers g g' out where
  ordinary : ∀ e ∈ out, g'.isMerge e = false
  all : ∀ i, sources i → ∀ e, g.Brings i e → e ∈ out

end Graph

/-- Rules under which every merge key is read: only where the modern dialect allows repeated keys
does it pass some over. -/
def Rules.Thorough (r : Rules) : Prop := r.dialect = .modern → r.duplicates = .refused

theorem Rules.thorough_of_classic {r : Rules} (classic : r.dialect = .classic) : r.Thorough := by
  intro modern
  rw [classic] at modern
  cases modern

namespace Merging

open YamlCheck.Yaml.Graph

variable {inner again : Replacer} {g g' : Graph} {i : NodeId} {out merged : List Entry}

/-- A replacer gathers all that the merge keys of a mapping bring in, from some entry on before
which there are none, and leaves the mapping without merge keys. -/
def Gatherer (again : Replacer) : Prop :=
  ∀ i n merged g out g', (g.node i).content.kind = .mapping →
    (∀ e ∈ (g.entries i).take n, g.isMerge e = false) → (∀ e ∈ merged, g.isMerge e = false) →
    (again i n merged).run g = .ok (out, g') →
    Gathers g g' out ∧ (∀ e ∈ merged, e ∈ out) ∧ (∀ e ∈ out, g'.isMerge e = false) ∧ ¬g'.Merges i

/-- The entries that were gathered for a mapping are put into it. -/
theorem gathers_addMerged (gathers : Gathers g g' merged)
    (mapping : (g.node i).content.kind = .mapping)
    (ordinary : ∀ e ∈ merged, g'.isMerge e = false) (unmerged : ¬g'.Merges i) :
    Gathers g (g'.addMerged i merged) ((g'.addMerged i merged).entries i) ∧
      ¬(g'.addMerged i merged).Merges i := by
  have hmapping : (g'.node i).content.kind = .mapping := by rw [gathers.flat.kind, mapping]
  have hflat : Flattens (fun _ => True) g' (g'.addMerged i merged) :=
    .of_add hmapping fun _ _ => trivial
  have hentries : (g'.addMerged i merged).entries i = merged ++ g'.entries i :=
    entries_addMerged hmapping merged
  have hother : ∀ j, j ≠ i → (g'.addMerged i merged).entries j = g'.entries j := by
    intro j hj
    by_cases hmerged : merged = []
    · rw [hmerged, addMerged_nil]
    · exact (sameBut_addMerged hmapping hmerged).entries j hj
  have hclear : ¬(g'.addMerged i merged).Merges i := by
    rintro ⟨e, he, hmerge⟩
    rw [hflat.isMerge_eq] at hmerge
    rw [hentries, List.mem_append] at he
    rcases he with he | he
    · rw [ordinary e he] at hmerge
      cases hmerge
    · exact unmerged ⟨e, he, hmerge⟩
  refine ⟨⟨gathers.flat.trans hflat, fun j e he => ?_, fun j => ?_⟩, hclear⟩
  · rcases gathers.brings j e he with hbrings | hmem
    · refine .inl (hbrings.mono hflat fun k e' he' => ?_)
      by_cases hk : k = i
      · subst hk
        rw [hentries]
        exact List.mem_append_right merged he'
      · rw [hother k hk]
        exact he'
    · rw [hentries]
      exact .inr (List.mem_append_left _ hmem)
  · by_cases hj : j = i
    · subst hj
      exact .inr hclear
    · rcases gathers.cleared j with hsame | hclear'
      · exact .inl ((hother j hj).trans hsame)
      · exact .inr ((hflat.merges_iff (hother j hj)).not.mpr hclear')

/-- A mapping that a merge key names brings in all that it can. -/
theorem Gatherer.wholeWith (gatherer : Gatherer inner)
    (mapping : (g.node i).content.kind = .mapping)
    (run : (wholeWith inner i).run g = .ok (out, g')) : GathersFrom (· = i) g g' out := by
  unfold Merging.wholeWith at run
  obtain ⟨merged, g₁, hinner, run⟩ := run_bind_ok run
  obtain ⟨⟨⟩, g₂, hadd, run⟩ := run_bind_ok run
  cases hadd
  cases run
  obtain ⟨hgathers, -, hordinary, hunmerged⟩ :=
    gatherer i 0 [] g merged g₁ mapping (by simp) (by simp) hinner
  obtain ⟨hall, hclear⟩ := gathers_addMerged hgathers mapping hordinary hunmerged
  refine ⟨hall, fun e he => isMerge_of_not_merges hclear he, fun j hj e he => ?_⟩
  rw [show j = i from hj] at he
  rcases hall.brings i e he with hbrings | hmem
  · exact hbrings.mem hclear
  · exact hmem

theorem gathersFrom_mapM {f : NodeId → Merging (List Entry)} {items : List NodeId}
    (each : ∀ i ∈ items, ∀ g out g', (f i).run g = .ok (out, g') → GathersFrom (· = i) g g' out)
    {g g' : Graph} {parts : List (List Entry)} (run : (items.mapM f).run g = .ok (parts, g')) :
    GathersFrom (· ∈ items) g g' parts.flatten := by
  induction items generalizing g parts with
  | nil =>
    rw [List.mapM_nil] at run
    cases run
    exact ⟨.refl _, by simp, by simp⟩
  | cons i items ih =>
    rw [List.mapM_cons] at run
    obtain ⟨part, g₁, hpart, run⟩ := run_bind_ok run
    obtain ⟨rest, g₂, hrest, run⟩ := run_bind_ok run
    cases run
    have hfirst := each i (by simp) g part g₁ hpart
    have hothers := ih (fun j hj => each j (by simp [hj])) hrest
    rw [List.flatten_cons]
    refine ⟨hfirst.trans hothers.toGathers, fun e he => ?_, fun j hj e he => ?_⟩
    · rcases List.mem_append.mp he with he | he
      · rw [hothers.flat.isMerge_eq]
        exact hfirst.ordinary e he
      · exact hothers.ordinary e he
    · rw [List.mem_append]
      rcases List.mem_cons.mp hj with rfl | hj
      · exact .inl (hfirst.all j rfl e he)
      · rcases hfirst.brings j e he with he | he
        · exact .inr (hothers.all j hj e he)
        · exact .inl he

/-- What the value of a merge key brings in is all that the key names. -/
theorem Gatherer.broughtIn (gatherer : Gatherer inner) {mark : Mark} {source : Node} {m : Entry}
    (kind : source.content.kind = (g.node m.value).content.kind)
    (items : ∀ js, source.content = .sequence js → (g.node m.value).content = .sequence js)
    (run : (broughtIn inner mark m.value source).run g = .ok (out, g')) :
    GathersFrom (g.Names m) g g' out := by
  cases hcontent : source.content with
  | mapping es =>
    unfold Merging.broughtIn at run
    rw [hcontent] at run
    have hmapping : (g.node m.value).content.kind = .mapping := by rw [← kind, hcontent]; rfl
    have hwhole := gatherer.wholeWith hmapping run
    refine ⟨hwhole.toGathers, hwhole.ordinary, fun j hnamed e he => ?_⟩
    rcases hnamed with rfl | ⟨js, hjs, -⟩
    · exact hwhole.all _ rfl e he
    · rw [hjs] at hmapping
      cases hmapping
  | sequence js =>
    rw [broughtIn_sequence hcontent] at run
    obtain ⟨parts, g₁, hparts, run⟩ := run_bind_ok run
    cases run
    have each : ∀ j ∈ js, ∀ g out g', (partWith inner mark j).run g = .ok (out, g') →
        GathersFrom (· = j) g g' out := by
      intro j _ g out g' hrun
      have hmapping := mapping_of_partWith hrun
      rw [run_partWith hmapping] at hrun
      exact gatherer.wholeWith hmapping hrun
    have hitems := gathersFrom_mapM each hparts
    have hmem : ∀ e, e ∈ parts.reverse.flatten ↔ e ∈ parts.flatten := by simp
    refine ⟨hitems.sub fun e => (hmem e).mpr, fun e he => hitems.ordinary e ((hmem e).mp he),
      fun j hnamed e he => (hmem e).mpr ?_⟩
    rcases hnamed with rfl | ⟨js', hjs', hj⟩
    · have hkind := he.kind
      rw [items js hcontent] at hkind
      cases hkind
    · rw [items js hcontent] at hjs'
      cases hjs'
      exact hitems.all j hj e he
  | scalar text =>
    unfold Merging.broughtIn at run
    rw [hcontent] at run
    cases run

/-- Before the first merge key from some entry on there is none, if there is none before that. -/
theorem ordinary_front {n : Nat} (before : ∀ e ∈ (g.entries i).take n, g.isMerge e = false) :
    ∀ e ∈ (g.entries i).take (n + (g.passed i n).length), g.isMerge e = false := by
  intro e he
  have htake : ((g.entries i).drop n).take (g.passed i n).length = g.passed i n :=
    (List.prefix_iff_eq_take.mp (List.takeWhile_prefix _)).symm
  rw [List.take_add, htake, List.mem_append] at he
  exact he.elim (before e) fun he => (mem_passed he).2

theorem length_front {n : Nat} {m : Entry} {rest : List Entry}
    (split : g.entries i = (g.entries i).take (n + (g.passed i n).length) ++ m :: rest) :
    ((g.entries i).take (n + (g.passed i n).length)).length = n + (g.passed i n).length := by
  have hlength := congrArg List.length split
  simp only [List.length_append, List.length_take, List.length_cons] at hlength ⊢
  omega

/-- A round that passes no merge key over and ends well: there is no merge key left, or the next
one is dropped and what it names is brought in before the search goes on at the same place. -/
theorem replaceNext_thorough {r : Rules} {n : Nat} (thorough : r.Thorough)
    (run : (replaceNext r inner again i n merged).run g = .ok (out, g')) :
    ∃ settled front, settled = (g.passed i n).foldl settleValueKey g ∧
      front = (g.entries i).take (n + (g.passed i n).length) ∧
      (((∀ e ∈ (g.entries i).drop n, g.isMerge e = false) ∧ out = merged ∧ g' = settled) ∨
        ∃ m rest mark more g₂, g.entries i = front ++ m :: rest ∧ g.isMerge m = true ∧
          (broughtIn inner mark m.value (settled.node m.value)).run
            (settled.setEntries i (front ++ rest)) = .ok (more, g₂) ∧
          (again i front.length (merged ++ more)).run g₂ = .ok (out, g')) := by
  refine ⟨_, _, rfl, rfl, ?_⟩
  unfold Merging.replaceNext at run
  rw [run_bind_of_ok (run_get g), run_bind_of_ok (run_set _ g)] at run
  have hpassed : ((g.entries i).drop n).takeWhile (fun e => !g.isMerge e) = g.passed i n := rfl
  simp only [hpassed, entries_foldl_settle, isMerge_foldl_settle] at run
  generalize (g.passed i n).foldl settleValueKey g = settled at run ⊢
  cases hnext : ((g.entries i).drop n).dropWhile fun e => !g.isMerge e with
  | nil =>
    rw [hnext] at run
    cases run
    rw [List.dropWhile_eq_nil_iff] at hnext
    exact .inl ⟨fun e he => by simpa using hnext e he, rfl, rfl⟩
  | cons m rest =>
    rw [hnext] at run
    obtain ⟨hmerge, hsplit⟩ := entries_at_merge hnext
    by_cases hsecond : (r.dialect == .modern && !merged.isEmpty) = true
    · have hmodern : r.dialect = .modern := (by simpa using hsecond : _ ∧ _).1
      have hrefused := thorough hmodern
      simp only [hsecond, hrefused, if_true, beq_self_eq_true] at run
      obtain ⟨_, _, hthrow, -⟩ := run_bind_ok run
      cases hthrow
    simp only [Bool.not_eq_true] at hsecond
    simp only [hsecond] at run
    rw [if_neg (by simp), run_bind_of_ok (run_set _ settled)] at run
    obtain ⟨more, g₂, hmore, run⟩ := run_bind_ok run
    rw [← length_front hsplit] at run
    exact .inr ⟨m, rest, _, more, g₂, hsplit, hmerge, hmore, run⟩

/-- What a merge key that has been dropped brings in leaves the entries before it as they were, or
without a merge key. -/
theorem Gatherer.round (gatherer : Gatherer inner) {front rest more : List Entry} {m : Entry}
    {mark : Mark} {g₂ : Graph} (mapping : (g.node i).content.kind = .mapping)
    (split : g.entries i = front ++ m :: rest) (key : g.isMerge m = true)
    (before : ∀ e ∈ front, g.isMerge e = false) (hmerged : ∀ e ∈ merged, g.isMerge e = false)
    (run : (Merging.broughtIn inner mark m.value (g.node m.value)).run
      (g.setEntries i (front ++ rest)) = .ok (more, g₂)) :
    GathersFrom ((g.setEntries i (front ++ rest)).Names m) (g.setEntries i (front ++ rest)) g₂
        more ∧ (g₂.node i).content.kind = .mapping ∧
      (∀ e ∈ (g₂.entries i).take front.length, g₂.isMerge e = false) ∧
      ∀ e ∈ merged ++ more, g₂.isMerge e = false := by
  have hdrop : Flattens (fun _ => True) g (g.setEntries i (front ++ rest)) := .of_drop split key
  have hbrought : GathersFrom ((g.setEntries i (front ++ rest)).Names m)
      (g.setEntries i (front ++ rest)) g₂ more := by
    refine gatherer.broughtIn (hdrop.kind _).symm (fun js hjs => ?_) run
    rw [hdrop.content _ (by rw [hjs]; simp [Content.kind]), hjs]
  have hflat := hdrop.trans hbrought.flat
  refine ⟨hbrought, by rw [hflat.kind, mapping], fun e he => ?_, fun e he => ?_⟩
  · rcases hbrought.cleared i with hsame | hclear
    · rw [hsame, entries_setEntries mapping, List.take_left] at he
      rw [hflat.isMerge_eq, before e he]
    · exact isMerge_of_not_merges hclear (List.mem_of_mem_take he)
  · rcases List.mem_append.mp he with he | he
    · rw [hflat.isMerge_eq, hmerged e he]
    · exact hbrought.ordinary e he

theorem Gatherer.replaceNext {r : Rules} (thorough : r.Thorough) (below : Gatherer inner)
    (gatherer : Gatherer again) : Gatherer (replaceNext r inner again) := by
  intro i n merged g out g' mapping before hmerged run
  obtain ⟨settled, front, rfl, rfl, hround⟩ := replaceNext_thorough thorough run
  have hsettle := Gathers.settle g (g.passed i n)
  have hentries := entries_foldl_settle (g.passed i n) g
  have hmerge := isMerge_foldl_settle (g.passed i n) g
  have hfront := ordinary_front before
  generalize (g.passed i n).foldl settleValueKey g = settled at hround hsettle hentries hmerge
  generalize (g.entries i).take (n + (g.passed i n).length) = front at hround hfront
  rcases hround with ⟨hnone, rfl, rfl⟩ | ⟨m, rest, mark, more, g₂, hsplit, hkey, hmore, run⟩
  · refine ⟨hsettle.sub (by simp), fun e he => he, fun e he => by rw [hmerge, hmerged e he], ?_⟩
    rintro ⟨e, he, hkey⟩
    rw [hentries, ← List.take_append_drop n (g.entries i), List.mem_append] at he
    rw [hmerge, he.elim (before e) (hnone e)] at hkey
    cases hkey
  rw [← hentries] at hsplit
  rw [← hmerge] at hkey
  have hdrop : Flattens (fun _ => True) settled (settled.setEntries i (front ++ rest)) :=
    .of_drop hsplit hkey
  have hsettled : (settled.node i).content.kind = .mapping := by rw [hsettle.flat.kind, mapping]
  obtain ⟨hbrought, hmapping₂, hbefore₂, hmerged₂⟩ := below.round hsettled hsplit hkey
    (fun e he => by rw [hmerge, hfront e he]) (fun e he => by rw [hmerge, hmerged e he]) hmore
  have hflat := (hsettle.flat.trans hdrop).trans hbrought.flat
  obtain ⟨hlast, hsub, hordinary, hunmerged⟩ := gatherer i front.length (merged ++ more) g₂ out g'
    hmapping₂ hbefore₂ hmerged₂ run
  have hmoreOut : ∀ e ∈ more, e ∈ out := fun e he => hsub e (List.mem_append_right merged he)
  refine ⟨⟨hflat.trans hlast.flat, fun j e he => ?_, fun j => ?_⟩,
    fun e he => hsub e (List.mem_append_left more he), hordinary, hunmerged⟩
  · have he := (hsettle.brings j e he).resolve_right (by simp)
    rcases he.drop hsplit hkey with he | ⟨k, hnamed, he⟩
    · rcases hbrought.brings j e he with he | he
      · exact hlast.brings j e he
      · exact .inr (hmoreOut e he)
    · exact .inr (hmoreOut e (hbrought.all k (hdrop.names_iff.mpr hnamed) e he))
  · by_cases hj : j = i
    · subst hj
      exact .inr hunmerged
    · rw [← hentries, ← (sameBut_setEntries hsettled (front ++ rest)).entries j hj]
      exact (hbrought.trans hlast).cleared j

theorem Gatherer.rounds {r : Rules} (thorough : r.Thorough) (below : Gatherer inner)
    (fuel : Nat) : Gatherer (rounds r inner fuel) := by
  induction fuel with
  | zero =>
    intro i n merged g out g' _ _ _ run
    cases run
  | succ fuel ih => exact below.replaceNext thorough ih

theorem replaceFrom_gatherer {r : Rules} (thorough : r.Thorough) (depth : Nat) :
    Gatherer (replaceFrom r depth) := by
  induction depth with
  | zero =>
    intro i n merged g out g' _ _ _ run
    cases run
  | succ depth ih =>
    intro i n merged g out g' mapping before hmerged run
    rw [run_replaceFrom] at run
    exact ih.rounds thorough _ i n merged g out g' mapping before hmerged run

/-- When the merge keys of a mapping have been replaced it holds all that any mapping can no longer
bring in, and has no merge key left. -/
theorem replace_gathers {r : Rules} (thorough : r.Thorough)
    (mapping : (g.node i).content.kind = .mapping) (run : (replace r i).run g = .ok ((), g')) :
    Gathers g g' (g'.entries i) ∧ ¬g'.Merges i := by
  unfold replace at run
  obtain ⟨merged, g₁, hfrom, run⟩ := run_bind_ok run
  cases run
  obtain ⟨hgathers, -, hordinary, hunmerged⟩ :=
    replaceFrom_gatherer thorough _ i 0 [] g merged g₁ mapping (by simp) (by simp) hfrom
  exact gathers_addMerged hgathers mapping hordinary hunmerged

end Merging

end YamlCheck.Yaml
