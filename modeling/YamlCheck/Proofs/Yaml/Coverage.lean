import YamlCheck.Proofs.Yaml.Repeats

/-!
# Every node of a document is looked at

A construction that ends well has filled every collection that it started, round by round, and so
it has come to every node of the document.  With repeated keys refused it has therefore searched
every mapping, also those inside sequences, sets and lists of pairs, and found nothing.
-/

namespace YamlCheck.Yaml

open Construction Build

variable {terms : Terms} {g : Graph} {c c' : Construction} {i j : NodeId} {n : Nat}

/-- Whether a collection is complete: all its parts are made, and no key is repeated. -/
def Complete (terms : Terms) (g : Graph) (c : Construction) (i : NodeId) : Prop :=
  (∀ j, g.Holds i j →
    c.Made (.ordinary terms g) j ∨ MadePair (.ordinary terms g) c j) ∧
  ∀ e, ¬g.Repeats terms i e

theorem Complete.grows (complete : Complete terms g c i)
    (h : Grows (.ordinary terms g) .refused c c') : Complete terms g c' i :=
  ⟨fun j holds => (complete.1 j holds).imp h.made fun pair => pair.grows h, complete.2⟩

theorem Graph.not_repeats_of_entries {e : Entry} (h : g.entries i = []) :
    ¬g.Repeats terms i e := by
  rintro ⟨before, after, hsplit, -⟩
  rw [h] at hsplit
  cases before <;> cases hsplit

theorem Graph.not_repeats_of_single {e e' : Entry} (h : g.entries i = [e']) :
    ¬g.Repeats terms i e := by
  rintro ⟨before, after, hsplit, e₁, hmem, -⟩
  rw [h] at hsplit
  cases before with
  | nil => cases hmem
  | cons e₂ before =>
    rw [List.cons_append, List.cons.injEq] at hsplit
    cases before <;> cases hsplit.2

theorem Complete.of_items {items : List NodeId}
    (content : (g.node i).content = .sequence items)
    (parts : ∀ j ∈ items, c.Made (.ordinary terms g) j ∨ MadePair (.ordinary terms g) c j) :
    Complete terms g c i := by
  have hentries : g.entries i = [] := Graph.entries_of_kind (by simp [content, Content.kind])
  refine ⟨fun j holds => ?_, fun e => Graph.not_repeats_of_entries hentries⟩
  cases holds with
  | item content' mem =>
    rw [content] at content'
    cases content'
    exact parts j mem
  | key mem => simp [hentries] at mem
  | value mem => simp [hentries] at mem

/-- A mapping that is filled with repeated keys refused is complete. -/
theorem grows_mapping {es : List (Value × Value)} (plain : g.OrdinaryKeys)
    (h : c.Settled (.ordinary terms g) .refused) (reaches : g.Reaches i)
    (run : (mapping (make (n + 1)) i).run c = .ok (es, c')) :
    Grows (.ordinary terms g) .refused c c' ∧ Complete terms g c' i := by
  have hgraph : c.graph = g := h.graph
  have hkind := kind_of_mapping_ok run
  have parts : ∀ e ∈ g.entries i, g.Reaches e.key ∧ g.Reaches e.value := fun e he =>
    ⟨reaches.step (.key he), reaches.step (.value he)⟩
  rw [run_mapping_refused h hkind] at run
  obtain ⟨⟨⟩, c₁, hrefuse, run⟩ := run_bind_ok run
  rw [run_refuseRepeatedKeys, hgraph] at hrefuse
  obtain ⟨hgrows₁, -, -⟩ := grows_refuseLoop h (fun e he => (parts e he).1) hrefuse
  rw [Course.ordinary.run_classicMapping_of_ordinary plain hgrows₁.settled.graph] at run
  obtain ⟨hgrows₂, hfilled⟩ := grows_classicEntries hgrows₁.settled parts run
  have hgrows := hgrows₁.trans hgrows₂
  have keys : ∀ e ∈ g.entries i, g.isMerge e = false → ∃ x, g.Denotes terms e.key x := by
    intro e he _
    obtain ⟨-, x, hx⟩ := (hfilled e he).1
    rw [hgrows.graph, hgraph] at hx
    exact ⟨x, hx⟩
  refine ⟨hgrows, fun j holds => ?_, fun e => ?_⟩
  · cases holds with
    | item content mem =>
      rw [hgraph, content] at hkind
      cases hkind
    | key mem => exact .inl (.inr (hfilled _ mem).1)
    | value mem => exact .inl (hfilled _ mem).2
  · rintro ⟨before, after, hsplit, hsame⟩
    rcases refuseLoop_outcome (n := n) (Course.ordinary.faithful terms g) _ h hgraph keys
        (.nil terms g) with
      ⟨c₂, -, -, hnone⟩ | ⟨b, e', a, x, -, -, -, hloop⟩
    · exact hnone before e after hsplit hsame
    · rw [hloop] at hrefuse
      cases hrefuse

theorem grows_fill (plain : g.OrdinaryKeys) (h : c.Settled (.ordinary terms g) .refused)
    (reaches : g.Reaches i) (run : (fill (make (n + 1)) i).run c = .ok ((), c')) :
    Grows (.ordinary terms g) .refused c c' ∧ Complete terms g c' i := by
  have hgraph : c.graph = g := h.graph
  have hclassic : c.rules.dialect = .classic := by
    rw [h.rules]
    rfl
  rcases fill_cases hclassic run with
    ⟨vs, c₁, hsequence, rfl⟩ | ⟨es, c₁, cell, hmapping, rfl⟩ | ⟨context, hpairs⟩
  · obtain ⟨items, hcontent, hgrows, hitems⟩ := grows_sequence h reaches hsequence
    rw [hgraph] at hcontent
    have hlast := Grows.withCell hgrows.settled i (.list vs)
    exact ⟨hgrows.trans hlast, .of_items hcontent fun j hj => .inl (hlast.made (hitems j hj))⟩
  · obtain ⟨hgrows, hcomplete⟩ := grows_mapping plain h reaches hmapping
    have hlast := Grows.withCell hgrows.settled i cell
    exact ⟨hgrows.trans hlast, hcomplete.grows hlast⟩
  · obtain ⟨items, hcontent, hgrows, hmade⟩ := grows_fillPairs h reaches hpairs
    rw [hgraph] at hcontent
    exact ⟨hgrows, .of_items hcontent fun j hj => .inr (hmade j hj)⟩

/-! ## Rounds -/

/-- Whether every collection that is started is complete, waits in the queue or is among `rest`. -/
def Covered (terms : Terms) (g : Graph) (rest : List NodeId) (c : Construction) : Prop :=
  ∀ j, c.Built j → j ∈ c.queue ∨ j ∈ rest ∨ Complete terms g c j

theorem Covered.fill {rest : List NodeId} (covered : Covered terms g (i :: rest) c)
    (h : Grows (.ordinary terms g) .refused c c') (complete : Complete terms g c' i) :
    Covered terms g rest c' := by
  intro j hj
  rcases h.fresh j hj with hbuilt | hqueue
  · rcases covered j hbuilt with hqueue | hmem | hcomplete
    · exact .inl (h.queue j hqueue)
    · rcases List.mem_cons.mp hmem with rfl | hrest
      · exact .inr (.inr complete)
      · exact .inr (.inl hrest)
    · exact .inr (.inr (hcomplete.grows h))
  · exact .inl hqueue

theorem covered_round {waiting : List NodeId} (plain : g.OrdinaryKeys)
    (h : c.Settled (.ordinary terms g) .refused) (reaches : ∀ j ∈ waiting, g.Reaches j)
    (covered : Covered terms g waiting c)
    (run : (waiting.forM (fill (make (n + 1)))).run c = .ok ((), c')) :
    c'.Settled (.ordinary terms g) .refused ∧ Covered terms g [] c' ∧
      ∀ j, c.Built j → c'.Built j := by
  induction waiting generalizing c with
  | nil =>
    cases run
    exact ⟨h, covered, fun _ hj => hj⟩
  | cons i rest ih =>
    obtain ⟨⟨⟩, c₁, hfill, run⟩ := run_bind_ok run
    obtain ⟨hgrows, hcomplete⟩ := grows_fill plain h (reaches i (by simp)) hfill
    obtain ⟨hsettled, hcovered, hbuilt⟩ := ih hgrows.settled
      (fun j hj => reaches j (by simp [hj])) (covered.fill hgrows hcomplete) run
    exact ⟨hsettled, hcovered, fun j hj => hbuilt j (hgrows.built j hj)⟩

/-- When no cell waits any more, every collection that was started is complete. -/
theorem covered_queue {fuel : Nat} (plain : g.OrdinaryKeys)
    (h : c.Settled (.ordinary terms g) .refused) (covered : Covered terms g [] c)
    (run : (fillQueue (make (n + 1)) fuel).run c = .ok ((), c')) :
    c'.graph = g ∧ (∀ j, c.Built j → c'.Built j) ∧ ∀ j, c'.Built j → Complete terms g c' j := by
  induction fuel generalizing c with
  | zero => cases run
  | succ fuel ih =>
    unfold fillQueue at run
    rw [run_bind_of_ok (run_get c)] at run
    cases hqueue : c.queue with
    | nil =>
      simp only [hqueue, List.isEmpty_nil, if_true] at run
      cases run
      refine ⟨h.graph, fun _ hj => hj, fun j hj => ?_⟩
      rcases covered j hj with hwaits | hmem | hcomplete
      · rw [hqueue] at hwaits
        cases hwaits
      · cases hmem
      · exact hcomplete
    | cons i rest =>
      simp only [hqueue, List.isEmpty_cons] at run
      rw [if_neg (by simp), run_bind_of_ok (run_set _ c)] at run
      obtain ⟨⟨⟩, c₁, hround, run⟩ := run_bind_ok run
      have hstart : Covered terms g (i :: rest) { c with queue := [] } := by
        intro j hj
        rcases covered j hj with hwaits | hmem | hcomplete
        · rw [hqueue] at hwaits
          exact .inr (.inl hwaits)
        · cases hmem
        · exact .inr (.inr hcomplete)
      have hreaches : ∀ j ∈ i :: rest, g.Reaches j := fun j hj =>
        h.waiting j (by rw [hqueue]; exact hj)
      obtain ⟨hsettled, hcovered, hbuilt⟩ :=
        covered_round plain h.emptied hreaches hstart hround
      obtain ⟨hgraph, hbuilt', hcomplete⟩ := ih hsettled hcovered run
      exact ⟨hgraph, fun j hj => hbuilt' j (hbuilt j hj), hcomplete⟩

/-- Whatever is inside a document is made, but for the mappings of a list of pairs, whose parts
are. -/
theorem made_of_reaches (plain : g.OrdinaryKeys) (graph : c.graph = g)
    (root : c.Made (.ordinary terms g) g.root) (complete : ∀ j, c.Built j → Complete terms g c j)
    (reaches : g.Reaches i) :
    c.Made (.ordinary terms g) i ∨ MadePair (.ordinary terms g) c i := by
  induction reaches with
  | root => exact .inl root
  | step outer holds ih =>
    rcases ih with (hbuilt | ⟨-, x, hx⟩) | ⟨e, hcontent, hkey, hvalue⟩
    · exact (complete _ hbuilt).1 _ holds
    · rw [graph] at hx
      exact (plain.not_holds hx holds).elim
    · rw [graph] at hcontent
      have hentries := Graph.entries_of_content hcontent
      cases holds with
      | item content' _ =>
        rw [hcontent] at content'
        cases content'
      | key mem =>
        rw [hentries, List.mem_singleton] at mem
        rw [mem]
        exact .inl hkey
      | value mem =>
        rw [hentries, List.mem_singleton] at mem
        rw [mem]
        exact .inl hvalue

namespace Graph

/-- A document that is accepted with repeated keys refused repeats none. -/
theorem not_repeats_of_refused {d : Document} {e : Entry} (plain : g.OrdinaryKeys)
    (accepted : g.document (.classic terms .refused) = .ok d) (reaches : g.Reaches i) :
    ¬g.Repeats terms i e := by
  obtain ⟨c, run⟩ := document_eq_ok.mp accepted
  unfold Build.document at run
  rw [run_bind_of_ok (run_get _)] at run
  obtain ⟨v, c₁, hroot, run⟩ := run_bind_ok run
  obtain ⟨⟨⟩, c₂, hqueue, run⟩ := run_bind_ok run
  have hstart : (Construction.start (.classic terms .refused) g).Settled
      (.ordinary terms g) .refused := .start rfl
  obtain ⟨hgrows, hmade⟩ := grows_make hstart .root hroot
  have hcovered : Covered terms g [] c₁ := by
    intro j hj
    rcases hgrows.fresh j hj with hbuilt | hwaits
    · unfold Built at hbuilt
      rw [Construction.stage_start] at hbuilt
      cases hbuilt
    · exact .inl hwaits
  obtain ⟨hgraph, hbuilt, hcomplete⟩ := covered_queue plain hgrows.settled hcovered hqueue
  have hrootMade : c₂.Made (.ordinary terms g) g.root := by
    have hsame : c₂.graph = c₁.graph := hgraph.trans hgrows.settled.graph.symm
    refine hmade.made.imp (hbuilt g.root) fun hread => ?_
    unfold Read at hread ⊢
    rw [hsame]
    exact hread
  rcases made_of_reaches plain hgraph hrootMade hcomplete reaches with
    (hcell | ⟨-, x, hx⟩) | ⟨e', hcontent, -, -⟩
  · exact (hcomplete i hcell).2 e
  · rw [hgraph] at hx
    rintro ⟨before, after, hsplit, -⟩
    exact plain.not_holds hx (.key (e := e) (by simp [hsplit]))
  · rw [hgraph] at hcontent
    exact not_repeats_of_single (entries_of_content hcontent)

end Graph

end YamlCheck.Yaml
