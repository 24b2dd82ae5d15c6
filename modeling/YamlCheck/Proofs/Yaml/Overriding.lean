import YamlCheck.Proofs.Yaml.Repeats

/-!
# Looking for repeated keys among merged ones

Without plain values the replacing of merge keys changes no text, so a key denotes the same scalar
before and after it.  With repeated keys refused a mapping is searched as it stands when its turn
comes: it is filled as with repeated keys allowed if no key is repeated then, and refused for the
first one that is.
-/

namespace YamlCheck.Yaml

open Build Construction

namespace Graph

/-- Whether no key marks a plain value. -/
def NoValueKeys (g : Graph) : Prop :=
  ∀ i < g.nodes.size, ∀ e ∈ g.entries i, (g.node e.key).tag ≠ Tag.value

instance (g : Graph) : Decidable g.NoValueKeys :=
  inferInstanceAs (Decidable (∀ i < g.nodes.size, ∀ e ∈ g.entries i,
    (g.node e.key).tag ≠ Tag.value))

theorem NoValueKeys.tag_ne {g : Graph} {i : NodeId} {e : Entry} (h : g.NoValueKeys)
    (mem : e ∈ g.entries i) : (g.node e.key).tag ≠ Tag.value :=
  h i (lt_size_of_kind (by rw [kind_of_mem_entries mem]; simp)) e mem

theorem SameTexts.denotes_iff {g g' : Graph} {terms : Terms} {i : NodeId} {x : Scalar}
    (h : SameTexts g g') : g'.Denotes terms i x ↔ g.Denotes terms i x := by
  unfold Denotes
  rw [Build.scalar_same h rfl]

theorem SameTexts.repeats_iff {g g' : Graph} {terms : Terms} {i : NodeId} {e : Entry}
    (h : SameTexts g g') (entries : g'.entries i = g.entries i) :
    g'.Repeats terms i e ↔ g.Repeats terms i e := by
  simp only [Repeats, SameKey, h.denotes_iff, entries]

/-- Whether two nodes denote one key, found by reading both. -/
def sameKey (g : Graph) (terms : Terms) (i j : NodeId) : Bool :=
  match Build.scalar (.classic terms .allowed) g i, Build.scalar (.classic terms .allowed) g j with
  | .ok x, .ok y => x.type == y.type && x.same y
  | _, _ => false

theorem sameKey_iff {g : Graph} {terms : Terms} {i j : NodeId} :
    g.sameKey terms i j = true ↔ g.SameKey terms i j := by
  unfold sameKey SameKey Denotes
  cases Build.scalar (.classic terms .allowed) g i <;>
    cases Build.scalar (.classic terms .allowed) g j <;> simp

instance (g : Graph) (terms : Terms) (i j : NodeId) : Decidable (g.SameKey terms i j) :=
  decidable_of_iff _ sameKey_iff

theorem not_repeats_of_pairwise {g : Graph} {terms : Terms}
    (h : ∀ i < g.nodes.size, (g.entries i).Pairwise fun e' e => ¬g.SameKey terms e'.key e.key)
    (i : NodeId) (e : Entry) : ¬g.Repeats terms i e := by
  intro hrepeats
  have hi : i < g.nodes.size := lt_size_of_kind (by rw [hrepeats.kind]; simp)
  obtain ⟨before, after, hsplit, e', hmem, hsame⟩ := hrepeats
  have hpairwise := h i hi
  rw [hsplit, List.pairwise_append] at hpairwise
  exact hpairwise.2.2 e' hmem e List.mem_cons_self hsame

end Graph

/-- A construction whose graph loses its merge keys but none of its texts. -/
def Course.textual (terms : Terms) (g₀ : Graph) : Course where
  terms := terms
  graph g := g₀.Edited g ∧ Graph.SameTexts g₀ g
  node _ := True
  finished g i x := g.Denotes terms i x
  ahead _ _ := True
  below _ _ _ := trivial
  read _ denotes := denotes

namespace Course.textual

variable {terms : Terms} {g₀ g g' : Graph} {p q : Duplicates} {s s' l c c' : Construction}
  {i : NodeId} {n : Nat}

theorem faithful (terms : Terms) (g₀ : Graph) : (textual terms g₀).Faithful := fun h => h

theorem tag_ne_value (noValue : g₀.NoValueKeys) (h : (textual terms g₀).graph g) {e : Entry}
    (mem : e ∈ g.entries i) : (g.node e.key).tag ≠ Tag.value := by
  rw [h.2.tag]
  rcases h.1.flat.entries i e mem with hmem | ⟨j, -, hmem⟩
  · exact noValue.tag_ne hmem
  · exact noValue.tag_ne hmem

/-- What replacing the merge keys of a mapping does to the graph. -/
theorem replaced {r : Rules} (noValue : g₀.NoValueKeys) (h : (textual terms g₀).graph g)
    (mapping : (g.node i).content.kind = .mapping)
    (run : (Merging.replace r i).run g = .ok ((), g')) :
    Graph.Edits g₀ (Merging.Touched g₀ i) g g' ∧ Graph.SameTexts g g' ∧
      (textual terms g₀).graph g' := by
  have hedits := Merging.replace_edits h.1 mapping run
  have hmerges : g₀.MergesNoValueKey := fun e ⟨j, _, hmem⟩ => noValue.tag_ne hmem
  have htexts := Graph.SameTexts.of_edits hmerges h.1.flat (fun e => tag_ne_value noValue h) hedits
  exact ⟨hedits, htexts, h.1.edits hedits, h.2.trans htexts⟩

theorem settled_withGraph (h : c.Settled (textual terms g₀) p)
    (graph : (textual terms g₀).graph g) (texts : Graph.SameTexts c.graph g) :
    (c.withGraph g).Settled (textual terms g₀) p where
  rules := h.rules
  waits := h.waits
  room := by
    have hsize := texts.size
    have hroom := h.room
    change g.nodes.size ≤ c.progress.size
    omega
  graph := graph
  waiting := h.waiting
  stage j := by
    rcases h.stage j with huntouched | ⟨hstage, cell, hcell⟩ | ⟨x, hstage, htag, hx⟩
    · exact .inl huntouched
    · refine .inr (.inl ⟨hstage, cell, ?_⟩)
      have hsame : (g.node j).tag = (c.graph.node j).tag := texts.tag j
      exact (congrArg (emptyCell? .classic) hsame).trans hcell
    · refine .inr (.inr ⟨x, hstage, ?_, texts.denotes_iff.mpr hx⟩)
      have hsame : (g.node j).tag = (c.graph.node j).tag := texts.tag j
      exact hsame ▸ htag

theorem abreast_withGraph (h : Abreast (textual terms g₀) p q s l)
    (graph : (textual terms g₀).graph g) (texts : Graph.SameTexts s.graph g) :
    Abreast (textual terms g₀) p q (s.withGraph g) (l.withGraph g) := by
  have ahead : ∀ {a b : Construction}, Graph.SameTexts a.graph g → ∀ j,
      Ahead (textual terms g₀) a b j →
      Ahead (textual terms g₀) (a.withGraph g) (b.withGraph g) j := by
    rintro a b htexts j ⟨huntouched, x, hx, hdenotes, -⟩
    exact ⟨huntouched, x, hx, htexts.denotes_iff.mpr hdenotes, trivial⟩
  have texts' : Graph.SameTexts l.graph g := by
    rw [← h.graph]
    exact texts
  exact ⟨settled_withGraph h.left graph texts, settled_withGraph h.right graph texts', rfl,
    h.cells, h.queue, h.size,
    fun j => (h.stage j).imp id (Or.imp (ahead texts j) (ahead texts' j))⟩

/-- A mapping that is filled with repeated keys allowed: its merge keys are replaced, and its own
keys denote scalars from the start. -/
theorem filled_allowed (noValue : g₀.NoValueKeys) (h : s.Settled (textual terms g₀) .allowed)
    {es : List (Value × Value)} (run : (mapping (make (n + 1)) i).run s = .ok (es, s')) :
    ∃ g, (Merging.replace (.classic terms .allowed) i).run s.graph = .ok ((), g) ∧
      Graph.Edits g₀ (Merging.Touched g₀ i) s.graph g ∧ Graph.SameTexts s.graph g ∧
      (textual terms g₀).graph g ∧
      (classicEntries (make (n + 1)) (g.node i).mark [] (g.entries i)).run (s.withGraph g) =
        .ok (es, s') ∧
      Grows (textual terms g₀) .allowed (s.withGraph g) s' ∧
      ∀ e ∈ s.graph.entries i, s.graph.isMerge e = false →
        ∃ x, s.graph.Denotes terms e.key x := by
  obtain ⟨hkind, g, hreplace, run⟩ := mapping_allowed_ok h run
  obtain ⟨hedits, htexts, hgraph⟩ := replaced noValue h.graph hkind hreplace
  obtain ⟨hgrows, hfilled⟩ := grows_classicEntries (settled_withGraph h hgraph htexts)
    (fun _ _ => ⟨trivial, trivial⟩) run
  refine ⟨g, hreplace, hedits, htexts, hgraph, run, hgrows, fun e he hordinary => ?_⟩
  have hmem := (Graph.Flattens.of_edits hedits).ordinary i e he hordinary
  obtain ⟨-, x, hx⟩ := (hfilled e hmem).1
  rw [hgrows.graph] at hx
  exact ⟨x, htexts.denotes_iff.mp hx⟩

/-- Whether an error complains about a key that a mapping repeats as it stands in a graph. -/
def RefusedAt (terms : Terms) (g : Graph) (i : NodeId) (err : LoadError) : Prop :=
  ∃ e x, g.Repeats terms i e ∧ g.Denotes terms e.key x ∧
    err = repeatedKey (g.node i).mark (g.node e.key).mark x

/-- A mapping that is filled with repeated keys allowed is filled alike with repeated keys refused
if it repeats none as it stands, and refused for one of them otherwise. -/
theorem mapping_outcome (noValue : g₀.NoValueKeys)
    (h : Abreast (textual terms g₀) .allowed .refused s l) {es : List (Value × Value)}
    (run : (mapping (make (n + 1)) i).run s = .ok (es, s')) :
    ((∀ e, ¬s.graph.Repeats terms i e) ∧ ∃ l', (mapping (make (n + 1)) i).run l = .ok (es, l') ∧
      Abreast (textual terms g₀) .allowed .refused s' l') ∨
    ∃ err, (mapping (make (n + 1)) i).run l = .error err ∧ RefusedAt terms s.graph i err := by
  obtain ⟨g, hreplace, -, htexts, hgraph, hentries, -, keys⟩ := filled_allowed noValue h.left run
  rcases mapping_outcome_or h (kind_of_mapping_ok run) (fun _ _ _ _ finished => finished)
      (fun e he hordinary => .inr (keys e he hordinary)) (fun _ _ _ _ => trivial) hreplace
      (fun _ l₁ h₁ => abreast_withGraph h₁ hgraph htexts) (fun _ _ => ⟨trivial, trivial⟩) hentries
    with ⟨hclear, hok⟩ | ⟨e, x, hrepeats, hx, herr⟩ | ⟨e, he, hordinary, err, hunread, -⟩
  · exact .inl ⟨hclear.1, hok⟩
  · exact .inr ⟨_, herr, e, x, hrepeats, hx, rfl⟩
  · obtain ⟨x, hx⟩ := keys e he hordinary
    exact (hunread.not_denotes hx).elim

theorem fill_outcome (noValue : g₀.NoValueKeys)
    (h : Abreast (textual terms g₀) .allowed .refused s l)
    (run : (fill (make (n + 1)) i).run s = .ok ((), s')) :
    ((∀ e, ¬s.graph.Repeats terms i e) ∧ ∃ l', (fill (make (n + 1)) i).run l = .ok ((), l') ∧
      Abreast (textual terms g₀) .allowed .refused s' l') ∨
    ∃ err, (fill (make (n + 1)) i).run l = .error err ∧ RefusedAt terms s.graph i err := by
  refine fill_outcome_of (Abreast.tracks _ _ _) (fun j s l hj h => abreast_make n hj h) h trivial
    (fun hkind e hrepeats => hkind hrepeats.kind) (fun es s₁ hs => mapping_outcome noValue h hs) run

/-- What filling a cell with repeated keys allowed does to the queue and to the graph. -/
theorem fill_allowed (noValue : g₀.NoValueKeys) (h : c.Settled (textual terms g₀) .allowed)
    (run : (fill (make (n + 1)) i).run c = .ok ((), c')) :
    c'.Settled (textual terms g₀) .allowed ∧ (∃ new, Enqueues c c' new) ∧
      Graph.Edits g₀ (Merging.Touched g₀ i) c.graph c'.graph := by
  have unchanged : Grows (textual terms g₀) .allowed c c' →
      c'.Settled (textual terms g₀) .allowed ∧ (∃ new, Enqueues c c' new) ∧
        Graph.Edits g₀ (Merging.Touched g₀ i) c.graph c'.graph := by
    intro hgrows
    refine ⟨hgrows.settled, hgrows.enqueues, ?_⟩
    rw [hgrows.graph]
  have hclassic : c.rules.dialect = .classic := by
    rw [h.rules]
    rfl
  rcases fill_cases hclassic run with
    ⟨vs, c₁, hsequence, rfl⟩ | ⟨es, c₁, cell, hmapping, rfl⟩ | ⟨context, hpairs⟩
  · obtain ⟨items, -, hgrows, -⟩ := grows_sequence h trivial hsequence
    exact unchanged (hgrows.trans (.withCell hgrows.settled i _))
  · obtain ⟨g, -, hedits, -, -, -, hgrows, -⟩ := filled_allowed noValue h hmapping
    obtain ⟨new, hnew⟩ := hgrows.enqueues
    refine ⟨hgrows.settled.withCell i cell, ⟨new, hnew.queue, hnew.built, hnew.fresh, hnew.nodup⟩,
      ?_⟩
    have hsame : (c₁.withCell i cell).graph = g := hgrows.graph
    rw [hsame]
    exact hedits
  · obtain ⟨items, -, hgrows, -⟩ := grows_fillPairs h trivial hpairs
    exact unchanged hgrows

end Course.textual

end YamlCheck.Yaml
