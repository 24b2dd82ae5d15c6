import YamlCheck.Proofs.Yaml.Placed

/-!
# Where repeated keys are refused

A mapping that repeats a key as it is written repeats it still when its turn comes, whatever merge
keys have done to it by then.  So a document that is accepted with repeated keys allowed is refused
with repeated keys refused as soon as some mapping that has a place in it repeats a key.  That does
not go for a mapping without a place: one that stands nowhere but as the value of a merge key may
repeat its keys and pass.
-/

namespace YamlCheck.Yaml

open Build Construction

namespace Graph

variable {g₀ g g' : Graph} {places : NodeId → Prop} {terms : Terms} {i : NodeId} {e : Entry}
  {brought : Entry → Prop} {x : Scalar}

/-! ## Keys that stay repeated -/

/-- A mapping keeps its ordinary entries in their order. -/
theorem Edit.ordinary_sublist (h : Edit g₀ places g g') (i : NodeId) :
    (g.ordinary i).Sublist (g'.ordinary i) := by
  have hflat := Flattens.of_edit h
  have hmerge : (fun e => !g'.isMerge e) = fun e => !g.isMerge e := by
    funext e
    rw [hflat.isMerge_eq]
  have same : ∀ {es}, es = g.entries i →
      ((g.entries i).filter fun e => !g.isMerge e).Sublist (es.filter fun e => !g.isMerge e) := by
    rintro _ rfl
    exact .refl _
  unfold ordinary
  rw [hmerge]
  cases h with
  | settle => exact same (entries_settleValueKey g _ i)
  | @drop j before after m place split merge =>
    have hmapping : (g.node j).content.kind = .mapping :=
      kind_of_mem_entries (e := m) (by simp [split])
    by_cases hij : i = j
    · subst hij
      rw [split, entries_setEntries hmapping]
      simp [merge]
    · exact same ((sameBut_setEntries hmapping _).entries i hij)
  | @add j merged place mapping =>
    by_cases hij : i = j
    · subst hij
      rw [entries_addMerged mapping, List.filter_append]
      exact List.sublist_append_right _ _
    · by_cases hmerged : merged = []
      · exact same (by rw [hmerged, addMerged_nil])
      · exact same ((sameBut_addMerged mapping hmerged).entries i hij)

theorem Edits.ordinary_sublist (h : Edits g₀ places g g') (i : NodeId) :
    (g.ordinary i).Sublist (g'.ordinary i) := by
  induction h with
  | refl => exact .refl _
  | tail _ last ih => exact ih.trans (last.ordinary_sublist i)

theorem repeats_iff_sublist : g.Repeats terms i e ↔
    ∃ e', [e', e].Sublist (g.ordinary i) ∧ g.SameKey terms e'.key e.key := by
  constructor
  · rintro ⟨before, after, hsplit, e', he', hsame⟩
    obtain ⟨x, y, hx, hy, -⟩ := id hsame
    have hordinary : ∀ {m z}, g.Denotes terms (Entry.key m) z → g.isMerge m = false := by
      intro m z hz
      by_contra hmerge
      exact g.not_denotes_of_merge (by simpa using hmerge) hz
    have hsub : [e', e].Sublist (g.entries i) := by
      rw [hsplit]
      exact (List.singleton_sublist.mpr he').append
        (List.singleton_sublist.mpr List.mem_cons_self)
    have hfilter := hsub.filter fun m => !g.isMerge m
    refine ⟨e', ?_, hsame⟩
    unfold ordinary
    simpa [hordinary hx, hordinary hy] using hfilter
  · rintro ⟨e', hsub, hsame⟩
    obtain ⟨before, rest, hsplit, he', hrest⟩ :=
      List.cons_sublist_iff.mp (hsub.trans (List.filter_sublist))
    obtain ⟨between, after, rfl⟩ := List.append_of_mem (List.singleton_sublist.mp hrest)
    exact ⟨before ++ between, after, by rw [hsplit, List.append_assoc], e',
      List.mem_append_left between he', hsame⟩

theorem Repeats.edits (noMapping : ¬g₀.HasMappingKey) (edits : Edits g₀ places g₀ g)
    (h : g₀.Repeats terms i e) : g.Repeats terms i e := by
  obtain ⟨e', hsub, x, y, hx, hy, hsame⟩ := repeats_iff_sublist.mp h
  have hflat := Flattens.of_edits edits
  have hmem : ∀ m ∈ [e', e], m ∈ g₀.entries i := fun m hm =>
    (List.mem_filter.mp (hsub.subset hm)).1
  have hkept : ∀ m ∈ [e', e], ∀ z, g₀.Denotes terms m.key z → g.Denotes terms m.key z := by
    intro m hm z hz
    refine hflat.denotes (fun hmapping => noMapping ?_) hz
    exact (Flattens.refl _ g₀).hasMappingKey (hmem m hm) hmapping (tag_mem_of_scalar_ok hz)
  exact repeats_iff_sublist.mpr ⟨e', hsub.trans (edits.ordinary_sublist i), x, y,
    hkept e' (by simp) x hx, hkept e (by simp) y hy, hsame⟩

/-- A scalar of a flattened graph was one before, unless it marked a plain value. -/
theorem Flattens.denotes_or (h : Flattens brought g g')
    (kind : (g.node i).content.kind ≠ .mapping) (denotes : g'.Denotes terms i x) :
    (g.node i).tag = Tag.value ∨ g.Denotes terms i x := by
  rcases h.tag i with hsame | ⟨hvalue, -⟩
  · have hscalar : (g.node i).content.kind = .scalar := by
      rcases content_of_scalar_ok rfl denotes with hscalar | ⟨hmapping, -⟩
      · rw [← h.kind, hscalar]
      · exact (kind (by rw [← h.kind, hmapping])).elim
    exact .inr ((scalar_flattens rfl h hscalar hsame).symm.trans denotes)
  · exact .inl hvalue

end Graph

/-! ## One collection -/

namespace Course.literal

variable {terms : Terms} {g₀ g : Graph} {p q : Duplicates} {s s' l : Construction} {i : NodeId}
  {n : Nat}

theorem abreast_withGraph {r : Rules} (h : Abreast (literal terms g₀) p q s l)
    (mapping : (s.graph.node i).content.kind = .mapping)
    (replaced : (Merging.replace r i).run s.graph = .ok ((), g)) :
    Abreast (literal terms g₀) p q (s.withGraph g) (l.withGraph g) := by
  have hedits := Merging.replace_edits (edited h.left.graph) mapping replaced
  have hflat := Graph.Flattens.of_edits hedits
  have ahead : ∀ {a b : Construction}, Graph.Flattens g₀.Brought a.graph g → ∀ j,
      Ahead (literal terms g₀) a b j →
      Ahead (literal terms g₀) (a.withGraph g) (b.withGraph g) j := by
    rintro a b flat j ⟨huntouched, x, hx, hdenotes, hkind⟩
    refine ⟨huntouched, x, hx, flat.denotes hkind hdenotes, fun hmapping => hkind ?_⟩
    exact (flat.kind j).symm.trans hmapping
  have hright : (l.withGraph g).Settled (literal terms g₀) q :=
    settled_withGraph h.right (by rw [← h.graph]; exact mapping) (by rw [← h.graph]; exact replaced)
  refine ⟨settled_withGraph h.left mapping replaced, hright, rfl, h.cells, h.queue, h.size,
    fun j => (h.stage j).imp id (Or.imp (ahead hflat j) (ahead ?_ j))⟩
  rw [← h.graph]
  exact hflat

/-- Whether an error complains about a key of a mapping as it stands in a graph: about one that is
repeated, or about one that marks a plain value. -/
def ComplainsAt (terms : Terms) (g : Graph) (i : NodeId) (err : LoadError) : Prop :=
  textual.RefusedAt terms g i err ∨
    ∃ e ∈ g.entries i, (g.node e.key).tag = Tag.value ∧ err = valueKey (g.node e.key).mark

theorem mapping_outcome (noMapping : ¬g₀.HasMappingKey)
    (h : Abreast (literal terms g₀) .allowed .refused s l) {es : List (Value × Value)}
    (run : (mapping (make (n + 1)) i).run s = .ok (es, s')) :
    ((∀ e, ¬s.graph.Repeats terms i e) ∧ ∃ l', (mapping (make (n + 1)) i).run l = .ok (es, l') ∧
      Abreast (literal terms g₀) .allowed .refused s' l') ∨
    ∃ err, (mapping (make (n + 1)) i).run l = .error err ∧ ComplainsAt terms s.graph i err := by
  obtain ⟨hkind, g, hreplace, run⟩ := mapping_allowed_ok h.left run
  have hedited := edited h.left.graph
  have hflat := Graph.Flattens.of_edits (Merging.replace_edits hedited hkind hreplace)
  obtain ⟨hgrows, hfilled⟩ := grows_classicEntries (settled_withGraph h.left hkind hreplace)
    (fun _ _ => ⟨trivial, trivial⟩) run
  -- Each ordinary key turns out to be a scalar, so it is no mapping, and was none before.
  have keys : ∀ e ∈ s.graph.entries i, s.graph.isMerge e = false →
      (s.graph.node e.key).content.kind ≠ .mapping ∧ ∃ x, g.Denotes terms e.key x := by
    intro e he hordinary
    have hmem := hflat.ordinary i e he hordinary
    obtain ⟨htag, x, hx⟩ := (hfilled e hmem).1
    rw [hgrows.graph] at htag hx
    have hkey : (g.node e.key).content.kind ≠ .mapping := fun hmapping =>
      noMapping ((hedited.flat.trans hflat).hasMappingKey hmem hmapping htag)
    exact ⟨by rw [← hflat.kind]; exact hkey, x, hx hkey⟩
  have hahead : ∀ e ∈ s.graph.entries i, ∀ x, s.graph.Denotes terms e.key x →
      (s.graph.node e.key).content.kind ≠ .mapping := fun e he x hx hmapping =>
    noMapping (hedited.flat.hasMappingKey he hmapping (tag_mem_of_scalar_ok hx))
  have known : ∀ e ∈ s.graph.entries i, s.graph.isMerge e = false →
      (s.graph.node e.key).tag = Tag.value ∨ ∃ x, s.graph.Denotes terms e.key x := by
    intro e he hordinary
    obtain ⟨hkey, x, hx⟩ := keys e he hordinary
    exact (hflat.denotes_or hkey hx).imp id fun hx => ⟨x, hx⟩
  rcases mapping_outcome_or h hkind
      (fun e he hordinary y finished => finished (keys e he hordinary).1)
      (fun e he hordinary => (known e he hordinary).imp
        (fun hvalue => ⟨_, Graph.unread_of_value hvalue⟩) id)
      hahead hreplace (fun _ l₁ h₁ => abreast_withGraph h₁ hkind hreplace)
      (fun _ _ => ⟨trivial, trivial⟩) run with
    ⟨hclear, hok⟩ | ⟨e, x, hrepeats, hx, herr⟩ | ⟨e, he, hordinary, err, hunread, herr⟩
  · exact .inl ⟨hclear.1, hok⟩
  · exact .inr ⟨_, herr, .inl ⟨e, x, hrepeats, hx, rfl⟩⟩
  · rcases known e he hordinary with hvalue | ⟨x, hx⟩
    · exact .inr ⟨_, herr, .inr ⟨e, he, hvalue, hunread.eq_valueKey hvalue⟩⟩
    · exact (hunread.not_denotes hx).elim

theorem decides (noMapping : ¬g.HasMappingKey) :
    Decides (Abreast (literal terms g) .allowed .refused)
      (fun c i => ∀ e, ¬c.graph.Repeats terms i e) (fun c i => ComplainsAt terms c.graph i) :=
  fun _ _ _ _ _ h run => fill_outcome_of (Abreast.tracks _ _ _)
    (fun _ _ _ hj h => abreast_make _ hj h) h trivial
    (fun hkind _ hrepeats => hkind hrepeats.kind) (fun _ _ hs => mapping_outcome noMapping h hs) run

theorem follows_root (terms : Terms) (g : Graph) :
    ∀ n, Follows (Abreast (literal terms g) .allowed .refused) neverRefused
      (make (n + 1) g.root false) (make (n + 1) g.root false)
      (Construction.start (.classic terms .allowed) g)
      (Construction.start (.classic terms .refused) g) :=
  (literal terms g).abreast_root .refl trivial

end Course.literal

/-! ## The document -/

namespace Graph

variable {terms : Terms} {g : Graph} {d : Document} {i : NodeId} {e : Entry}

/-- Whether an error complains about a key of some mapping as it stands when its turn comes. -/
def Complained (terms : Terms) (g : Graph) (err : LoadError) : Prop :=
  ∃ c i rest, Turns (.classic terms .allowed) g c (i :: rest) ∧
    Course.literal.ComplainsAt terms c.graph i err

/-- A mapping that has a place in a document which is accepted under both policies repeats no key,
not even as it is written. -/
theorem Placed.not_repeats (noMapping : ¬g.HasMappingKey)
    (allowed : g.document (.classic terms .allowed) = .ok d)
    (refused : g.document (.classic terms .refused) = .ok d) (placed : g.Placed i)
    (collects : g.collects i = true) : ¬g.Repeats terms i e := by
  intro hrepeats
  obtain ⟨c, rest, turn⟩ := placed.turn allowed collects
  have hclear := (Course.literal.decides noMapping).clear (Abreast.tracks _ _ _)
    (Course.literal.follows_root terms g) rfl allowed refused turn
  exact hclear e (hrepeats.edits noMapping turn.survey.settled.graph)

/-- A document that is accepted with repeated keys allowed is refused with repeated keys refused if
a mapping that has a place in it, be it by way of merge keys, repeats a key as it is written.  The
complaint is about a key that some mapping repeats when its turn comes, or about one that marks a
plain value; where there is nothing to complain of, the document is accepted with the same value.
No key may be a mapping that stands for its plain value: what such a key denotes can change before
it is read. -/
theorem document_refused_of_placed (noMapping : ¬g.HasMappingKey)
    (accepted : g.document (.classic terms .allowed) = .ok d) :
    (∀ i e, g.Placed i → g.collects i = true → g.Repeats terms i e →
      ∃ err, g.document (.classic terms .refused) = .error err ∧ g.Complained terms err) ∧
    ((∀ err, ¬g.Complained terms err) → g.document (.classic terms .refused) = .ok d) := by
  have outcome := (Course.literal.decides noMapping).document (Abreast.tracks _ _ _)
    (Course.literal.follows_root terms g) rfl accepted
  constructor
  · intro i e placed collects repeats
    rcases outcome with hok | hrefused
    · exact (placed.not_repeats noMapping accepted hok collects repeats).elim
    · exact hrefused
  · intro hnone
    rcases outcome with hok | ⟨err, -, hcomplained⟩
    · exact hok
    · exact (hnone err hcomplained).elim

theorem not_hasMappingKey
    (h : ∀ i < g.nodes.size, ∀ e ∈ g.entries i, (g.node e.key).content.kind = .scalar) :
    ¬g.HasMappingKey := by
  rintro ⟨i, e, he, hmapping, -⟩
  have hi : i < g.nodes.size := lt_size_of_kind (by rw [kind_of_mem_entries he]; simp)
  rw [h i hi e he] at hmapping
  cases hmapping

/-- A mapping that repeats a key, as the value of a key that is merged. -/
def mergedValue : Graph where
  root := 0
  nodes := #[
    ⟨Tag.map, .mapping [⟨1, 2⟩], ⟨0, 0, 0⟩, none⟩,
    ⟨Tag.merge, .scalar "<<", ⟨0, 0, 0⟩, none⟩,
    ⟨Tag.map, .mapping [⟨3, 4⟩], ⟨4, 0, 4⟩, none⟩,
    ⟨Tag.str, .scalar "x", ⟨5, 0, 5⟩, none⟩,
    ⟨Tag.map, .mapping [⟨5, 6⟩, ⟨7, 8⟩], ⟨8, 0, 8⟩, none⟩,
    ⟨Tag.str, .scalar "k", ⟨9, 0, 9⟩, none⟩,
    ⟨Tag.int, .scalar "1", ⟨12, 0, 12⟩, none⟩,
    ⟨Tag.str, .scalar "k", ⟨15, 0, 15⟩, none⟩,
    ⟨Tag.int, .scalar "2", ⟨18, 0, 18⟩, none⟩]

theorem mergedValue_refused : ¬mergedValue.HasMappingKey ∧
    (∃ d, mergedValue.document (.classic .classic .allowed) = .ok d) ∧ mergedValue.Placed 4 ∧
    mergedValue.collects 4 = true ∧ mergedValue.Repeats .classic 4 ⟨7, 8⟩ ∧
    ∃ err, mergedValue.document (.classic .classic .refused) = .error err ∧
      mergedValue.Complained .classic err := by
  have noMapping : ¬mergedValue.HasMappingKey := not_hasMappingKey (by decide +kernel)
  obtain ⟨d, hallowed⟩ : ∃ d, mergedValue.document (.classic .classic .allowed) = .ok d :=
    exists_document (by decide +kernel)
  have hbrings : mergedValue.Brings 0 ⟨3, 4⟩ :=
    .merged (j := 2) (m := ⟨1, 2⟩) (by decide) (by decide) (.inl rfl) (.own (by decide) (by decide))
  have hplaced : mergedValue.Placed 4 := .single (.value (by decide) (.entry hbrings))
  have hrepeats : mergedValue.Repeats .classic 4 ⟨7, 8⟩ :=
    ⟨[⟨5, 6⟩], [], rfl, ⟨5, 6⟩, by decide, by decide +kernel⟩
  obtain ⟨hrefused, -⟩ := document_refused_of_placed noMapping hallowed
  exact ⟨noMapping, ⟨d, hallowed⟩, hplaced, by decide, hrepeats,
    hrefused 4 ⟨7, 8⟩ hplaced (by decide) hrepeats⟩

/-- A mapping that repeats a key, and stands nowhere but as the value of a merge key. -/
def mergedOnly : Graph where
  root := 0
  nodes := #[
    ⟨Tag.map, .mapping [⟨1, 2⟩], ⟨0, 0, 0⟩, none⟩,
    ⟨Tag.merge, .scalar "<<", ⟨0, 0, 0⟩, none⟩,
    ⟨Tag.map, .mapping [⟨3, 4⟩, ⟨5, 6⟩], ⟨4, 0, 4⟩, none⟩,
    ⟨Tag.str, .scalar "a", ⟨5, 0, 5⟩, none⟩,
    ⟨Tag.int, .scalar "1", ⟨8, 0, 8⟩, none⟩,
    ⟨Tag.str, .scalar "a", ⟨11, 0, 11⟩, none⟩,
    ⟨Tag.int, .scalar "2", ⟨14, 0, 14⟩, none⟩]

def mergedOnlyText : List UInt8 :=
  "<<: \x7ba: 1, a: 2\x7d\n".toList.map fun c => c.toNat.toUInt8

/-- The key `a` is not refused, although the mapping repeats it. -/
theorem mergedOnlyText_accepted :
    ¬∀ (bytes : List UInt8) (t : Draft) (d : Document) (i j : NodeId) (e : Entry),
      t ∈ (read .usual .classic bytes).drafts → t.graph.Merges j →
      t.document .classic .allowed = .ok d →
      t.graph.Repeats t.terms i e → ∃ err, t.document .classic .refused = .error err := by
  intro h
  obtain ⟨d, hallowed⟩ : ∃ d, mergedOnly.document (.classic .classic .allowed) = .ok d :=
    exists_document (by decide +kernel)
  obtain ⟨d', hstrict⟩ : ∃ d, mergedOnly.document (.classic .classic .refused) = .ok d :=
    exists_document (by decide +kernel)
  have hread : (read .usual .classic mergedOnlyText).drafts.map (fun t => (t.terms, t.graph)) =
      [(.classic, mergedOnly)] := by decide +kernel
  obtain ⟨t, ht, hsame⟩ := List.mem_map.mp (hread ▸ List.mem_singleton_self _)
  obtain ⟨terms, g⟩ := t
  cases hsame
  have hmerges : mergedOnly.Merges 0 := ⟨⟨1, 2⟩, by decide, by decide⟩
  have hrepeats : mergedOnly.Repeats .classic 2 ⟨5, 6⟩ :=
    ⟨[⟨3, 4⟩], [], rfl, ⟨3, 4⟩, by decide, by decide +kernel⟩
  obtain ⟨err, herr⟩ := h mergedOnlyText _ d 2 0 ⟨5, 6⟩ ht hmerges hallowed hrepeats
  have hok : mergedOnly.document (.classic .classic .refused) = .error err := herr
  rw [hstrict] at hok
  cases hok

end Graph

end YamlCheck.Yaml
