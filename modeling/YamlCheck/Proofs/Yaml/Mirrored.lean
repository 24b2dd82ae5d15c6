import YamlCheck.Proofs.Yaml.Readings

/-!
# Merge keys in two readings

Replacing the merge keys of a mapping takes the same steps in two readings of a document: the same
entries are brought in, and the graphs stay two readings of one document.
-/

namespace YamlCheck.Yaml

/-- A node of which only the content is left. -/
def Node.bare (n : Node) : Node := ⟨"", n.content, ⟨0, 0, 0⟩, none⟩

namespace Graph

/-- Two graphs that differ in tags alone, and there only in those of nodes that are neither
collections nor keys. -/
structure Alike (g g' : Graph) : Prop where
  size : g'.nodes.size = g.nodes.size
  root : g'.root = g.root
  content : ∀ i, (g'.node i).content = (g.node i).content
  merged : ∀ i, (g'.node i).merged = (g.node i).merged
  tag : ∀ i, (g'.node i).tag = (g.node i).tag ∨ (g.collects i = false ∧ g'.collects i = false)
  key : ∀ i, ∀ e ∈ g.entries i, (g'.node e.key).tag = (g.node e.key).tag

namespace Alike

variable {g g' h h' : Graph} {i : NodeId} {e : Entry} {es merged : List Entry}

theorem refl (g : Graph) : Alike g g :=
  ⟨rfl, rfl, fun _ => rfl, fun _ => rfl, fun _ => .inl rfl, fun _ _ _ => rfl⟩

theorem entries (alike : Alike g g') (i : NodeId) : g'.entries i = g.entries i := by
  unfold Graph.entries
  rw [alike.content]

theorem symm (alike : Alike g g') : Alike g' g where
  size := alike.size.symm
  root := alike.root.symm
  content i := (alike.content i).symm
  merged i := (alike.merged i).symm
  tag i := (alike.tag i).imp Eq.symm And.symm
  key i e he := by
    rw [alike.entries] at he
    exact (alike.key i e he).symm

theorem collects_eq (alike : Alike g g') (i : NodeId) : g'.collects i = g.collects i := by
  rcases alike.tag i with htag | ⟨hnone, hnone'⟩
  · unfold collects
    rw [htag]
  · rw [hnone, hnone']

theorem isMerge_eq (alike : Alike g g') (mem : e ∈ g.entries i) : g'.isMerge e = g.isMerge e := by
  unfold Graph.isMerge
  rw [alike.key i e mem]

theorem texts (alike : Alike g g') (sub : ∀ e ∈ es, e ∈ g.entries i) (texts : g.Texts es) :
    g'.Texts es := by
  intro e he
  obtain ⟨hkind, htag⟩ := texts e he
  exact ⟨by rw [alike.content]; exact hkind, by rw [alike.key i e (sub e he)]; exact htag⟩

theorem orderly (alike : Alike g g') (orderly : g.Orderly) : g'.Orderly where
  texts i e he hplain := by
    rw [alike.entries] at he
    rw [alike.isMerge_eq he] at hplain
    have htext := orderly.texts i e he hplain
    exact ⟨by rw [alike.content]; exact htext.1, by rw [alike.key i e he]; exact htext.2⟩
  single i := by
    have hsame : (g.entries i).countP g'.isMerge = (g.entries i).countP g.isMerge :=
      List.countP_congr fun e he => by rw [alike.isMerge_eq he]
    rw [alike.entries, hsame]
    exact orderly.single i
  fronted i merged hmerged := by
    rw [alike.merged] at hmerged
    obtain ⟨hfront, htexts⟩ := orderly.fronted i merged hmerged
    rw [alike.entries]
    exact ⟨hfront, alike.texts (fun e he => hfront.mem he) htexts⟩

theorem ordinary_eq (alike : Alike g g') (i : NodeId) : g'.ordinary i = g.ordinary i := by
  unfold ordinary
  rw [alike.entries]
  exact List.filter_congr fun e he => by rw [alike.isMerge_eq he]

/-- Two graphs that come from alike ones, with the tags as they were and alike in all else. -/
theorem of_absorbs (alike : Alike g g') (a : g.Absorbs h) (a' : g'.Absorbs h')
    (root : h'.root = h.root) (content : ∀ i, (h'.node i).content = (h.node i).content)
    (merged : ∀ i, (h'.node i).merged = (h.node i).merged)
    (key : ∀ i, ∀ e ∈ h.entries i, (g'.node e.key).tag = (g.node e.key).tag) : Alike h h' where
  size := by rw [a'.size, a.size, alike.size]
  root := root
  content := content
  merged := merged
  tag i := by
    rw [a'.tag, a.tag, a'.collects_eq, a.collects_eq]
    exact alike.tag i
  key i e he := by
    rw [a'.tag, a.tag]
    exact key i e he

theorem drop {before after : List Entry} (alike : Alike g g')
    (split : g.entries i = before ++ e :: after) (merge : g.isMerge e = true) :
    Alike (g.setEntries i (before ++ after)) (g'.setEntries i (before ++ after)) := by
  have mem : e ∈ g.entries i := by simp [split]
  have mapping := kind_of_mem_entries mem
  have mapping' : (g'.node i).content.kind = .mapping := by rw [alike.content, mapping]
  have split' : g'.entries i = before ++ e :: after := by rw [alike.entries, split]
  have merge' : g'.isMerge e = true := by rw [alike.isMerge_eq mem, merge]
  refine alike.of_absorbs (absorbs_drop split merge) (absorbs_drop split' merge') alike.root
    (fun j => ?_) (fun j => ?_) fun j e' he' => ?_
  · rw [node_setEntries mapping, node_setEntries mapping']
    by_cases hij : i = j
    · rw [if_pos hij, if_pos hij]
    · rw [if_neg hij, if_neg hij, alike.content]
  · rw [merged_setEntries mapping, merged_setEntries mapping', alike.merged]
  · by_cases hj : j = i
    · subst hj
      rw [entries_setEntries mapping] at he'
      refine alike.key j e' ?_
      rw [split]
      rcases List.mem_append.mp he' with he' | he' <;> simp [he']
    · rw [(sameBut_setEntries mapping _).entries j hj] at he'
      exact alike.key j e' he'

theorem root_addMerged (g : Graph) (i : NodeId) (merged : List Entry) :
    (g.addMerged i merged).root = g.root := by
  unfold addMerged
  split <;> rfl

theorem add (alike : Alike g g') (mapping : (g.node i).content.kind = .mapping)
    (texts : g.Texts merged) (texts' : g'.Texts merged) :
    Alike (g.addMerged i merged) (g'.addMerged i merged) := by
  by_cases hmerged : merged = []
  · rw [hmerged, addMerged_nil, addMerged_nil]
    exact alike
  have mapping' : (g'.node i).content.kind = .mapping := by rw [alike.content, mapping]
  refine alike.of_absorbs (absorbs_add mapping texts) (absorbs_add mapping' texts')
    (by rw [root_addMerged, root_addMerged, alike.root]) (fun j => ?_) (fun j => ?_)
    fun j e' he' => ?_
  · rw [node_addMerged mapping hmerged, node_addMerged mapping' hmerged, alike.entries]
    by_cases hij : i = j
    · rw [if_pos hij, if_pos hij]
    · rw [if_neg hij, if_neg hij, alike.content]
  · rw [node_addMerged mapping hmerged, node_addMerged mapping' hmerged]
    by_cases hij : i = j
    · rw [if_pos hij, if_pos hij]
    · rw [if_neg hij, if_neg hij, alike.merged]
  · by_cases hj : j = i
    · subst hj
      rw [entries_addMerged mapping, List.mem_append] at he'
      rcases he' with he' | he'
      · rw [(texts e' he').2, (texts' e' he').2]
      · exact alike.key j e' he'
    · rw [(sameBut_addMerged mapping hmerged).entries j hj] at he'
      exact alike.key j e' he'

end Alike

/-- A mapping whose keys are not all texts has a first merge key. -/
theorem Orderly.firstMerge {g : Graph} {i : NodeId} (orderly : g.Orderly)
    (mixed : ¬g.Texts (g.entries i)) :
    ∃ before e after, g.entries i = before ++ e :: after ∧ g.Texts before ∧
      g.isMerge e = true := by
  have hsplit := List.takeWhile_append_dropWhile (p := fun e => !g.isMerge e) (l := g.entries i)
  have hbefore : g.Texts ((g.entries i).takeWhile fun e => !g.isMerge e) := by
    intro e he
    have hplain : g.isMerge e = false := by simpa using List.mem_takeWhile_imp he
    exact orderly.texts i e ((List.takeWhile_sublist _).mem he) hplain
  cases hrest : (g.entries i).dropWhile fun e => !g.isMerge e with
  | nil =>
    rw [hrest, List.append_nil] at hsplit
    exact (mixed (by rw [← hsplit]; exact hbefore)).elim
  | cons e after =>
    have hhead := List.head?_dropWhile_not (fun e => !g.isMerge e) (g.entries i)
    rw [hrest] at hhead hsplit
    exact ⟨_, e, after, hsplit.symm, hbefore, by simpa using hhead⟩

end Graph

namespace Merging

open YamlCheck.Yaml.Graph

/-! ## Side by side -/

/-- What a step that replaces merge keys leads to in two readings: two readings again, with all that
is kept, and entries whose keys are texts in both. -/
structure Passed (g g' h h' : Graph) (out : List Entry) : Prop where
  alike : h.Alike h'
  orderly : h.Orderly
  absorbs : g.Absorbs h
  absorbs' : g'.Absorbs h'
  texts : h.Texts out
  texts' : h'.Texts out

/-- One replacer does in a reading what another one does in the other reading.  A mapping is looked
at from its first entry on, or it has no merge key any more. -/
def Mirrors (again again' : Replacer) : Prop :=
  ∀ i n merged g g' out h, g.Alike g' → g.Orderly → (g.node i).content.kind = .mapping →
    g.Texts merged → g'.Texts merged → (n = 0 ∧ merged = []) ∨ g.Texts (g.entries i) →
    (again i n merged).run g = .ok (out, h) →
    ∃ h', (again' i n merged).run g' = .ok (out, h') ∧ Passed g g' h h' out ∧
      h.Texts (h.entries i)

variable {inner inner' again again' : Replacer} {g g' g₁ g₁' h h' : Graph} {i : NodeId}
  {a b : List Entry}

theorem Passed.trans (first : Passed g g' g₁ g₁' a) (next : Passed g₁ g₁' h h' b) :
    Passed g g' h h' (a ++ b) where
  alike := next.alike
  orderly := next.orderly
  absorbs := first.absorbs.trans next.absorbs
  absorbs' := first.absorbs'.trans next.absorbs'
  texts := (next.absorbs.texts_iff.mpr first.texts).append next.texts
  texts' := (next.absorbs'.texts_iff.mpr first.texts').append next.texts'

theorem Passed.sub (passed : Passed g g' h h' a) (sub : ∀ e ∈ b, e ∈ a) : Passed g g' h h' b where
  alike := passed.alike
  orderly := passed.orderly
  absorbs := passed.absorbs
  absorbs' := passed.absorbs'
  texts e he := passed.texts e (sub e he)
  texts' e he := passed.texts' e (sub e he)

theorem Passed.nothing (alike : g.Alike g') (orderly : g.Orderly) : Passed g g' g g' [] :=
  ⟨alike, orderly, .refl g, .refl g', by simp [Texts], by simp [Texts]⟩

/-- What is brought in stands before the entries of a mapping in both readings. -/
theorem Passed.add (passed : Passed g g' h h' a) (mapping : (h.node i).content.kind = .mapping) :
    Passed g g' (h.addMerged i a) (h'.addMerged i a) a := by
  have mapping' : (h'.node i).content.kind = .mapping := by rw [passed.alike.content, mapping]
  have absorbs := absorbs_add mapping passed.texts
  have absorbs' := absorbs_add mapping' passed.texts'
  exact ⟨passed.alike.add mapping passed.texts passed.texts',
    passed.orderly.add mapping passed.texts, passed.absorbs.trans absorbs,
    passed.absorbs'.trans absorbs', absorbs.texts_iff.mpr passed.texts,
    absorbs'.texts_iff.mpr passed.texts'⟩

theorem entries_of_wholeWith {out : List Entry}
    (run : (wholeWith again i).run g = .ok (out, h)) : out = h.entries i := by
  unfold wholeWith at run
  obtain ⟨merged, g₁, -, run⟩ := run_bind_ok run
  obtain ⟨⟨⟩, g₂, -, run⟩ := run_bind_ok run
  cases run
  rfl

theorem Mirrors.wholeWith (mirrors : Mirrors again again') (alike : g.Alike g')
    (orderly : g.Orderly) (mapping : (g.node i).content.kind = .mapping) {out : List Entry}
    (run : (wholeWith again i).run g = .ok (out, h)) :
    ∃ h', (Merging.wholeWith again' i).run g' = .ok (out, h') ∧ Passed g g' h h' out := by
  unfold Merging.wholeWith at run ⊢
  obtain ⟨merged, g₁, hagain, run⟩ := run_bind_ok run
  obtain ⟨⟨⟩, g₂, hadd, run⟩ := run_bind_ok run
  cases hadd
  cases run
  obtain ⟨g₁', hagain', passed, htexts⟩ := mirrors i 0 [] g g' merged g₁ alike orderly mapping
    (by simp [Texts]) (by simp [Texts]) (.inl ⟨rfl, rfl⟩) hagain
  have hmapping : (g₁.node i).content.kind = .mapping := by rw [passed.absorbs.kind, mapping]
  have hadded := passed.add hmapping
  have hadds := absorbs_add hmapping passed.texts
  have hwhole : (g₁.addMerged i merged).Texts ((g₁.addMerged i merged).entries i) :=
    hadds.texts_iff.mpr (hadds.texts i htexts)
  have hentries := hadded.alike.entries i
  refine ⟨g₁'.addMerged i merged, ?_, { hadded with texts := hwhole, texts' := ?_ }⟩
  · rw [run_bind_of_ok hagain', ← hentries]
    rfl
  · exact hadded.alike.texts (fun e he => he) hwhole

/-- Steps that are taken one after the other. -/
theorem passed_mapM {f f' : NodeId → Merging (List Entry)} {items : List NodeId}
    (each : ∀ i ∈ items, ∀ g g' out h, g.Alike g' → g.Orderly → (f i).run g = .ok (out, h) →
      ∃ h', (f' i).run g' = .ok (out, h') ∧ Passed g g' h h' out)
    {parts : List (List Entry)} (alike : g.Alike g') (orderly : g.Orderly)
    (run : (items.mapM f).run g = .ok (parts, h)) :
    ∃ h', (items.mapM f').run g' = .ok (parts, h') ∧ Passed g g' h h' parts.flatten := by
  induction items generalizing g g' parts with
  | nil =>
    rw [List.mapM_nil] at run
    cases run
    exact ⟨g', rfl, .nothing alike orderly⟩
  | cons i items ih =>
    rw [List.mapM_cons] at run
    obtain ⟨part, g₁, hpart, run⟩ := run_bind_ok run
    obtain ⟨rest, g₂, hrest, run⟩ := run_bind_ok run
    cases run
    obtain ⟨g₁', hpart', hfirst⟩ := each i (by simp) g g' part g₁ alike orderly hpart
    obtain ⟨g₂', hrest', hnext⟩ :=
      ih (fun j hj => each j (by simp [hj])) hfirst.alike hfirst.orderly hrest
    refine ⟨g₂', ?_, hfirst.trans hnext⟩
    rw [List.mapM_cons, run_bind_of_ok hpart', run_bind_of_ok hrest']
    rfl

theorem Mirrors.broughtIn (mirrors : Mirrors again again') {mark mark' : Mark}
    {source source' : Node} (content : source'.content = source.content) (alike : g.Alike g')
    (orderly : g.Orderly)
    (mapping : source.content.kind = .mapping → (g.node i).content.kind = .mapping)
    {out : List Entry} (run : (broughtIn again mark i source).run g = .ok (out, h)) :
    ∃ h', (Merging.broughtIn again' mark' i source').run g' = .ok (out, h') ∧
      Passed g g' h h' out := by
  cases hcontent : source.content with
  | scalar text =>
    unfold Merging.broughtIn at run
    rw [hcontent] at run
    cases run
  | mapping es =>
    unfold Merging.broughtIn at run ⊢
    rw [content, hcontent]
    rw [hcontent] at run
    exact mirrors.wholeWith alike orderly (mapping (by rw [hcontent]; rfl)) run
  | sequence items =>
    rw [broughtIn_sequence hcontent] at run
    rw [broughtIn_sequence (content.trans hcontent)]
    obtain ⟨parts, g₁, hparts, run⟩ := run_bind_ok run
    cases run
    have each : ∀ j ∈ items, ∀ g g' out h, g.Alike g' → g.Orderly →
        (partWith again mark j).run g = .ok (out, h) →
        ∃ h', (partWith again' mark' j).run g' = .ok (out, h') ∧ Passed g g' h h' out := by
      intro j _ g g' out h alike orderly run
      have hkind := mapping_of_partWith run
      have hkind' : (g'.node j).content.kind = .mapping := by rw [alike.content, hkind]
      rw [run_partWith hkind] at run
      rw [run_partWith hkind']
      exact mirrors.wholeWith alike orderly hkind run
    obtain ⟨g₁', hparts', hpassed⟩ := passed_mapM each alike orderly hparts
    refine ⟨g₁', run_bind_of_ok hparts', hpassed.sub fun e he => ?_⟩
    simpa using he

/-- Where no merge key is left there is nothing to replace. -/
theorem run_replaceNext_none (r : Rules) (inner again : Replacer) (n : Nat) (merged : List Entry)
    (texts : g.Texts (g.entries i)) :
    (replaceNext r inner again i n merged).run g = .ok (merged, g) := by
  have hown : g.Texts ((g.entries i).drop n) := fun e he => texts e (List.mem_of_mem_drop he)
  have hpassed : ((g.entries i).drop n).takeWhile (fun e => !g.isMerge e) =
      (g.entries i).drop n := by
    rw [List.takeWhile_eq_self_iff]
    intro e he
    simp [hown.isMerge he]
  have hrest : ((g.entries i).drop n).dropWhile (fun e => !g.isMerge e) = [] := by
    rw [List.dropWhile_eq_nil_iff]
    intro e he
    simp [hown.isMerge he]
  have hsettled : ((g.entries i).drop n).foldl settleValueKey g = g :=
    foldl_settle_of_ne fun e he => by
      rw [(hown e he).2]
      decide
  unfold replaceNext
  rw [run_bind_of_ok (run_get g), run_bind_of_ok (run_set _ g)]
  simp only [hpassed, hrest, hsettled]
  rfl

/-- The first merge key of a mapping is dropped, and what it names is brought in. -/
theorem run_replaceNext_first (r : Rules) (inner again : Replacer) {before after : List Entry}
    {e : Entry} (split : g.entries i = before ++ e :: after) (texts : g.Texts before)
    (merge : g.isMerge e = true) :
    (replaceNext r inner again i 0 []).run g =
      (broughtIn inner (g.node i).mark e.value (g.node e.value) >>=
        fun more => again i before.length more).run (g.setEntries i (before ++ after)) := by
  have hbefore : ∀ e ∈ before, (!g.isMerge e) = true := fun e he => by simp [texts.isMerge he]
  have hpassed : (before ++ e :: after).takeWhile (fun e => !g.isMerge e) = before := by
    rw [List.takeWhile_append_of_pos hbefore, List.takeWhile_cons_of_neg (by simp [merge]),
      List.append_nil]
  have hrest : (before ++ e :: after).dropWhile (fun e => !g.isMerge e) = e :: after := by
    rw [List.dropWhile_append_of_pos hbefore, List.dropWhile_cons_of_neg (by simp [merge])]
  have hsettled : before.foldl settleValueKey g = g :=
    foldl_settle_of_ne fun e he => by
      rw [(texts e he).2]
      decide
  unfold replaceNext
  rw [run_bind_of_ok (run_get g), run_bind_of_ok (run_set _ g)]
  simp only [split, List.drop_zero, hpassed, hrest, hsettled, List.isEmpty_nil, Bool.not_true,
    Bool.and_false, Nat.zero_add, List.take_left]
  rfl

theorem Mirrors.replaceNext (below : Mirrors inner inner') (mirrors : Mirrors again again')
    (r r' : Rules) : Mirrors (replaceNext r inner again) (replaceNext r' inner' again') := by
  intro i n merged g g' out h alike orderly mapping texts texts' ready run
  by_cases hplain : g.Texts (g.entries i)
  · rw [run_replaceNext_none r inner again n merged hplain] at run
    cases run
    have hplain' : g'.Texts (g'.entries i) := by
      rw [alike.entries]
      exact alike.texts (fun e he => he) hplain
    exact ⟨g', run_replaceNext_none r' inner' again' n merged hplain',
      ⟨alike, orderly, .refl g, .refl g', texts, texts'⟩, hplain⟩
  · obtain ⟨rfl, rfl⟩ := ready.resolve_right hplain
    obtain ⟨before, e, after, hsplit, hbefore, hmerge⟩ := orderly.firstMerge hplain
    rw [run_replaceNext_first r inner again hsplit hbefore hmerge] at run
    have hmem : ∀ e' ∈ before, e' ∈ g.entries i := fun e' he' => by simp [hsplit, he']
    have hmem_e : e ∈ g.entries i := by simp [hsplit]
    have hsplit' : g'.entries i = before ++ e :: after := by rw [alike.entries, hsplit]
    have hmerge' : g'.isMerge e = true := by rw [alike.isMerge_eq hmem_e, hmerge]
    rw [run_replaceNext_first r' inner' again' hsplit' (alike.texts hmem hbefore) hmerge']
    have hdrops := absorbs_drop hsplit hmerge
    have hdrops' := absorbs_drop hsplit' hmerge'
    obtain ⟨hordered, hown⟩ := orderly.drop hsplit hmerge
    obtain ⟨more, g₁, hmore, run⟩ := run_bind_ok run
    obtain ⟨g₁', hmore', hpassed⟩ := below.broughtIn (alike.content e.value)
      (alike.drop hsplit hmerge) hordered (fun hkind => by rw [hdrops.kind, hkind]) hmore
    -- The mapping has lost its only merge key, and it gets no other one.
    have hleft : g₁.Texts (g₁.entries i) := by
      refine hpassed.absorbs.texts_iff.mpr (hpassed.absorbs.texts i (hdrops.texts_iff.mpr ?_))
      rw [entries_setEntries mapping]
      exact hown
    have hmapping : (g₁.node i).content.kind = .mapping := by
      rw [hpassed.absorbs.kind, hdrops.kind, mapping]
    obtain ⟨h', hrest, hlast, hdone⟩ := mirrors i before.length more g₁ g₁' out h hpassed.alike
      hpassed.orderly hmapping hpassed.texts hpassed.texts' (.inr hleft) run
    refine ⟨h', ?_, ?_, hdone⟩
    · rw [run_bind_of_ok hmore']
      exact hrest
    · exact { hlast with
        absorbs := (hdrops.trans hpassed.absorbs).trans hlast.absorbs
        absorbs' := (hdrops'.trans hpassed.absorbs').trans hlast.absorbs' }

theorem Mirrors.rounds (below : Mirrors inner inner') (r r' : Rules) (fuel : Nat) :
    Mirrors (rounds r inner fuel) (rounds r' inner' fuel) := by
  induction fuel with
  | zero =>
    intro i n merged g g' out h _ _ _ _ _ _ run
    cases run
  | succ fuel ih => exact below.replaceNext ih r r'

theorem replaceFrom_mirrors (r r' : Rules) (depth : Nat) :
    Mirrors (replaceFrom r depth) (replaceFrom r' depth) := by
  induction depth with
  | zero =>
    intro i n merged g g' out h _ _ _ _ _ _ run
    cases run
  | succ depth ih =>
    intro i n merged g g' out h alike orderly mapping texts texts' ready run
    rw [run_replaceFrom] at run
    rw [run_replaceFrom, alike.entries]
    exact ih.rounds r r' _ i n merged g g' out h alike orderly mapping texts texts' ready run

theorem run_replace (r : Rules) (i : NodeId) (g : Graph) :
    (replace r i).run g =
      ((wholeWith (replaceFrom r (r.limits.merging + 1)) i).run g).map fun p => ((), p.2) := by
  unfold replace wholeWith
  cases hfrom : (replaceFrom r (r.limits.merging + 1) i 0 []).run g with
  | error e =>
    rw [run_bind_of_error hfrom, run_bind_of_error hfrom]
    rfl
  | ok p =>
    rw [run_bind_of_ok hfrom, run_bind_of_ok hfrom]
    rfl

/-- Merge keys that are replaced in one reading are replaced alike in the other one, whatever the
rules are besides their limits. -/
theorem replace_mirrors {r r' : Rules} (limits : r'.limits = r.limits) (alike : g.Alike g')
    (orderly : g.Orderly) (mapping : (g.node i).content.kind = .mapping)
    (run : (replace r i).run g = .ok ((), h)) :
    ∃ h', (replace r' i).run g' = .ok ((), h') ∧ Passed g g' h h' (h.entries i) := by
  rw [run_replace] at run
  cases hwhole : (wholeWith (replaceFrom r (r.limits.merging + 1)) i).run g with
  | error e =>
    rw [hwhole] at run
    cases run
  | ok p =>
    rw [hwhole] at run
    cases run
    obtain ⟨h', hwhole', hpassed⟩ :=
      (replaceFrom_mirrors r r' _).wholeWith alike orderly mapping hwhole
    rw [entries_of_wholeWith hwhole] at hpassed
    refine ⟨h', ?_, hpassed⟩
    rw [run_replace, limits, hwhole']
    rfl

theorem replace_passed {r : Rules} (orderly : g.Orderly)
    (mapping : (g.node i).content.kind = .mapping) (run : (replace r i).run g = .ok ((), h)) :
    Passed g g h h (h.entries i) := by
  obtain ⟨h', hrun, hpassed⟩ := replace_mirrors rfl (.refl g) orderly mapping run
  rw [run] at hrun
  cases hrun
  exact hpassed

end Merging

end YamlCheck.Yaml
