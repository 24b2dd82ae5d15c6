import YamlCheck.Proofs.Yaml.Gathering
import YamlCheck.Proofs.Yaml.Readings
import YamlCheck.Proofs.Yaml.Turns

/-!
# The collections of a document

A document is made up of its root and of all that is inside it: the items of a list, the keys and
values of a mapping with those that merge keys bring in, and those of the entries in a list of
pairs.  A mapping that only merge keys name is not among them.  If the document is accepted, each
collection that is among them has its turn.  For what a collection has in it is built when it is
filled, and what another one can no longer bring in by then is in the mapping that has just got it.
-/

namespace YamlCheck.Yaml

open Build Construction

namespace Graph

/-- Whether an entry is one that a collection is made up of: an entry of a mapping, or one of a
list of pairs. -/
inductive Bears (g : Graph) (i : NodeId) (e : Entry) : Prop
  | entry (brings : g.Brings i e)
  | pair {items : List NodeId} {j : NodeId} (pairs : (g.node i).tag ≠ Tag.seq)
      (content : (g.node i).content = .sequence items) (mem : j ∈ items) (brings : g.Brings j e)

/-- The nodes that a collection calls on when it is filled. -/
inductive Part (g : Graph) (i : NodeId) : NodeId → Prop
  | item {items : List NodeId} {j : NodeId} (list : (g.node i).tag = Tag.seq)
      (content : (g.node i).content = .sequence items) (mem : j ∈ items) : Part g i j
  | key {e : Entry} (collects : g.collects i = true) (bears : g.Bears i e) : Part g i e.key
  | value {e : Entry} (collects : g.collects i = true) (bears : g.Bears i e) : Part g i e.value

/-- Whether a node is inside another one, or is that node. -/
abbrev Inside (g : Graph) : NodeId → NodeId → Prop := Relation.ReflTransGen g.Part

/-- Whether a node has a place in the document. -/
def Placed (g : Graph) (i : NodeId) : Prop := g.Inside g.root i

variable {g g' : Graph} {i j k : NodeId} {e : Entry} {out : List Entry}
  {brought : Entry → Prop}

theorem Part.collects (h : g.Part i j) : g.collects i = true := by
  cases h with
  | item list _ _ =>
    unfold Graph.collects
    rw [list]
    rfl
  | key collects _ => exact collects
  | value collects _ => exact collects

theorem Flattens.collects_eq (h : Flattens brought g g') (i : NodeId) :
    g'.collects i = g.collects i := by
  unfold Graph.collects
  rw [h.emptyCell?_eq]

theorem Flattens.list_iff (h : Flattens brought g g') :
    (g'.node i).tag = Tag.seq ↔ (g.node i).tag = Tag.seq :=
  h.tag_eq_iff (by simp [Tag.seq, Tag.value]) (by simp [Tag.seq, Tag.str])

theorem Gathers.bears (h : Gathers g g' out) (bears : g.Bears i e) : g'.Bears i e ∨ e ∈ out := by
  cases bears with
  | entry brings => exact (h.brings i e brings).imp .entry id
  | pair pairs content mem brings =>
    exact (h.brings _ e brings).imp
      (.pair (h.flat.list_iff.not.mpr pairs) (h.flat.sequence_iff.mpr content) mem) id

/-- What a collection calls on no more, the mapping calls on whose merge keys were replaced. -/
theorem Gathers.part (h : Gathers g g' (g'.entries i)) (unmerged : ¬g'.Merges i)
    (collects : g.collects i = true) (part : g.Part j k) : g'.Part j k ∨ g'.Part i k := by
  have hcollects : g'.collects i = true := by rw [h.flat.collects_eq, collects]
  have here : ∀ {e}, e ∈ g'.entries i → g'.Bears i e := fun he =>
    .entry (.own he (isMerge_of_not_merges unmerged he))
  cases part with
  | item list content mem =>
    exact .inl (.item (h.flat.list_iff.mpr list) (h.flat.sequence_iff.mpr content) mem)
  | key collects bears =>
    have hcollects' : g'.collects j = true := by rw [h.flat.collects_eq, collects]
    exact (h.bears bears).imp (.key hcollects') fun he => .key hcollects (here he)
  | value collects bears =>
    have hcollects' : g'.collects j = true := by rw [h.flat.collects_eq, collects]
    exact (h.bears bears).imp (.value hcollects') fun he => .value hcollects (here he)

theorem inside_or (moved : ∀ j k, g.Part j k → g'.Part j k ∨ g'.Part i k) (h : g.Inside j k) :
    g'.Inside j k ∨ g'.Inside i k := by
  induction h with
  | refl => exact .inl .refl
  | tail _ part ih =>
    rcases moved _ _ part with hpart | hpart
    · exact ih.imp (.tail · hpart) (.tail · hpart)
    · exact .inr (.single hpart)

/-- Whether no merge key is left among the entries that a collection is made up of. -/
structure Bare (g : Graph) (i : NodeId) : Prop where
  entries : ¬g.Merges i
  pairs : ∀ items, (g.node i).tag ≠ Tag.seq → (g.node i).content = .sequence items →
    ∀ j ∈ items, ¬g.Merges j

theorem Edited.not_merges (h : g.Edited g') (unmerged : ¬g.Merges i) : ¬g'.Merges i := by
  rw [h.flat.merges_iff (h.unmerged i unmerged)]
  exact unmerged

theorem Edited.brings (h : g.Edited g') (unmerged : ¬g.Merges i) (brings : g'.Brings i e) :
    g.Brings i e := by
  have he := brings.mem (h.not_merges unmerged)
  rw [h.unmerged i unmerged] at he
  exact .own he (isMerge_of_not_merges unmerged he)

theorem Bare.edited (h : g.Bare i) (edited : g.Edited g') : g'.Bare i where
  entries := edited.not_merges h.entries
  pairs items pairs content j hj := by
    rw [edited.flat.sequence_iff] at content
    exact edited.not_merges (h.pairs items (edited.flat.list_iff.not.mp pairs) content j hj)

/-- Once no merge key is left in a collection it calls on nothing new. -/
theorem Bare.part (h : g.Bare i) (edited : g.Edited g') (part : g'.Part i j) : g.Part i j := by
  have hbears : ∀ {e}, g'.Bears i e → g.Bears i e := by
    intro e bears
    cases bears with
    | entry brings => exact .entry (edited.brings h.entries brings)
    | pair pairs content mem brings =>
      have hpairs := edited.flat.list_iff.not.mp pairs
      have hcontent := edited.flat.sequence_iff.mp content
      exact .pair hpairs hcontent mem (edited.brings (h.pairs _ hpairs hcontent _ mem) brings)
  cases part with
  | item list content mem =>
    exact .item (edited.flat.list_iff.mp list) (edited.flat.sequence_iff.mp content) mem
  | key collects bears =>
    exact .key (by rw [← edited.flat.collects_eq, collects]) (hbears bears)
  | value collects bears =>
    exact .value (by rw [← edited.flat.collects_eq, collects]) (hbears bears)

/-! ## Scalars that keep their texts -/

/-- A scalar that is no plain value of a mapping stays what it is. -/
theorem Flattens.denotes {terms : Terms} {x : Scalar} (h : Flattens brought g g')
    (kind : (g.node i).content.kind ≠ .mapping) (denotes : g.Denotes terms i x) :
    g'.Denotes terms i x := by
  rcases content_of_scalar_ok rfl denotes with hscalar | ⟨hmapping, -⟩
  · exact scalar_of_flattens rfl h hscalar denotes
  · exact (kind hmapping).elim

theorem Edit.mono {g₀ : Graph} {places places' : NodeId → Prop} (h : Edit g₀ places g g')
    (sub : ∀ i, places i → places' i) : Edit g₀ places' g g' := by
  cases h with
  | settle place mem ordinary => exact .settle (sub _ place) mem ordinary
  | drop place split merge => exact .drop (sub _ place) split merge
  | add place mapping merges sources => exact .add (sub _ place) mapping merges sources

theorem Edits.mono {g₀ : Graph} {places places' : NodeId → Prop} (h : Edits g₀ places g g')
    (sub : ∀ i, places i → places' i) : Edits g₀ places' g g' :=
  Relation.ReflTransGen.mono (fun _ _ edit => Edit.mono edit sub) _ _ h

end Graph

/-- A construction whose graph loses its merge keys on the way, with what is known of the scalars
that are written as such. -/
def Course.literal (terms : Terms) (g₀ : Graph) : Course where
  terms := terms
  graph := Graph.Edits g₀ (fun _ => True) g₀
  node _ := True
  finished g i x := (g.node i).content.kind ≠ .mapping → g.Denotes terms i x
  ahead g i := (g.node i).content.kind ≠ .mapping
  below _ _ _ := trivial
  read _ denotes _ := denotes

namespace Course.literal

variable {terms : Terms} {g₀ g : Graph} {p : Duplicates} {c c' : Construction} {i j : NodeId}
  {n : Nat}

theorem edited (h : (literal terms g₀).graph g) : g₀.Edited g := (Graph.Edited.refl g₀).edits h

theorem finished_flattens {brought : Entry → Prop} {g' : Graph} (flat : Graph.Flattens brought g g')
    (i : NodeId) (x : Scalar) (h : (literal terms g₀).finished g i x) :
    (literal terms g₀).finished g' i x := by
  intro hkind
  rw [flat.kind] at hkind
  exact flat.denotes hkind (h hkind)

/-- The graph once the merge keys of a mapping are replaced. -/
theorem graph_replaced {r : Rules} {g' : Graph} (h : (literal terms g₀).graph g)
    (mapping : (g.node i).content.kind = .mapping)
    (run : (Merging.replace r i).run g = .ok ((), g')) : (literal terms g₀).graph g' :=
  h.trans ((Merging.replace_edits (edited h) mapping run).mono fun _ _ => trivial)

theorem settled_withGraph {r : Rules} (h : c.Settled (literal terms g₀) p)
    (mapping : (c.graph.node i).content.kind = .mapping)
    (run : (Merging.replace r i).run c.graph = .ok ((), g)) :
    (c.withGraph g).Settled (literal terms g₀) p := by
  have hflat := Graph.Flattens.of_edits (Merging.replace_edits (edited h.graph) mapping run)
  exact h.withGraph (graph_replaced h.graph mapping run) hflat (finished_flattens hflat)

end Course.literal

/-! ## One turn -/

namespace Construction

variable {k : Course} {p : Duplicates} {c c' : Construction} {i j : NodeId}

theorem Settled.collects_of_built (h : c.Settled k p) (built : c.Built i) :
    c.graph.collects i = true := by
  unfold Graph.collects
  rcases h.stage i with huntouched | ⟨-, cell, hcell⟩ | ⟨x, hstage, -⟩
  · rw [built] at huntouched
    cases huntouched
  · rw [hcell]
    rfl
  · rw [built] at hstage
    cases hstage

theorem Made.built (made : c.Made k i) (collects : c.graph.collects i = true) : c.Built i := by
  rcases made with hbuilt | ⟨htag, -⟩
  · exact hbuilt
  · unfold Graph.collects at collects
    rw [emptyCell?_of_mem htag] at collects
    cases collects

theorem Made.not_merge {e : Entry} (h : c.Settled k p) (made : c.Made k e.key) :
    c.graph.isMerge e = false := by
  have hcases : c.graph.collects e.key = true ∨ (c.graph.node e.key).tag ∈ scalarTags :=
    made.imp h.collects_of_built And.left
  by_contra hmerge
  have htag : (c.graph.node e.key).tag = Tag.merge := by simpa [Graph.isMerge] using hmerge
  unfold Graph.collects at hcases
  rw [htag] at hcases
  revert hcases
  decide

/-- What the turn of a collection does: it leaves no merge key in the collection and makes all that
the collection calls on, which is also what others call on no more. -/
structure Turned (k : Course) (c c' : Construction) (i : NodeId) : Prop where
  settled : c'.Settled k .allowed
  enqueues : ∃ new, Enqueues c c' new
  edited : c.graph.Edited c'.graph
  moved : ∀ j m, c.graph.Part j m → c'.graph.Part j m ∨ c'.graph.Part i m
  bare : c'.graph.Bare i
  made : ∀ j, c'.graph.Part i j → c'.Made k j
  kept : ∀ j, c.Made k j → c'.Made k j

end Construction

namespace Course.literal

variable {terms : Terms} {g₀ : Graph} {c c' c₁ : Construction} {i : NodeId} {n : Nat}

theorem turned_of_grows (grows : Grows (literal terms g₀) .allowed c c')
    (bare : c'.graph.Bare i) (made : ∀ j, c'.graph.Part i j → c'.Made (literal terms g₀) j) :
    Turned (literal terms g₀) c c' i where
  settled := grows.settled
  enqueues := grows.enqueues
  edited := by
    rw [grows.graph]
    exact .refl _
  moved j m part := by
    rw [grows.graph]
    exact .inl part
  bare := bare
  made := made
  kept _ := grows.made

theorem turned_sequence {items : List NodeId} (list : (c.graph.node i).tag = Tag.seq)
    (content : (c.graph.node i).content = .sequence items)
    (grows : Grows (literal terms g₀) .allowed c c')
    (made : ∀ j ∈ items, c'.Made (literal terms g₀) j) : Turned (literal terms g₀) c c' i := by
  have hkind : (c.graph.node i).content.kind ≠ .mapping := by rw [content]; simp [Content.kind]
  refine turned_of_grows grows ?_ fun j part => ?_
  · rw [grows.graph]
    exact ⟨Graph.not_merges_of_kind hkind, fun _ pairs => (pairs list).elim⟩
  · rw [grows.graph] at part
    have hnobody : ∀ {e}, ¬c.graph.Bears i e := by
      intro e bears
      cases bears with
      | entry brings => exact hkind brings.kind
      | pair pairs => exact pairs list
    cases part with
    | item _ content' mem =>
      rw [content] at content'
      cases content'
      exact made j mem
    | key _ bears => exact (hnobody bears).elim
    | value _ bears => exact (hnobody bears).elim

theorem turned_pairs {items : List NodeId} (pairs : (c.graph.node i).tag ≠ Tag.seq)
    (content : (c.graph.node i).content = .sequence items)
    (grows : Grows (literal terms g₀) .allowed c c')
    (made : ∀ j ∈ items, MadePair (literal terms g₀) c' j) :
    Turned (literal terms g₀) c c' i := by
  have hkind : (c.graph.node i).content.kind ≠ .mapping := by rw [content]; simp [Content.kind]
  have hpair : ∀ j ∈ items, ¬c.graph.Merges j ∧ ∀ e ∈ c.graph.entries j,
      c'.Made (literal terms g₀) e.key ∧ c'.Made (literal terms g₀) e.value := by
    intro j hj
    obtain ⟨e, hcontent, hkey, hvalue⟩ := made j hj
    rw [grows.graph] at hcontent
    rw [Graph.entries_of_content hcontent]
    have hordinary := hkey.not_merge grows.settled
    rw [grows.graph] at hordinary
    refine ⟨?_, fun e' he' => ?_⟩
    · rintro ⟨e', he', hmerge⟩
      rw [Graph.entries_of_content hcontent, List.mem_singleton] at he'
      rw [he', hordinary] at hmerge
      cases hmerge
    · rw [List.mem_singleton.mp he']
      exact ⟨hkey, hvalue⟩
  refine turned_of_grows grows ?_ fun j part => ?_
  · rw [grows.graph]
    refine ⟨Graph.not_merges_of_kind hkind, fun items' _ content' j hj => ?_⟩
    rw [content] at content'
    cases content'
    exact (hpair j hj).1
  · rw [grows.graph] at part
    have hborne : ∀ {e}, c.graph.Bears i e →
        c'.Made (literal terms g₀) e.key ∧ c'.Made (literal terms g₀) e.value := by
      intro e bears
      cases bears with
      | entry brings => exact (hkind brings.kind).elim
      | pair _ content' mem brings =>
        rw [content] at content'
        cases content'
        exact (hpair _ mem).2 e (brings.mem (hpair _ mem).1)
    cases part with
    | item list _ _ => exact (pairs list).elim
    | key _ bears => exact (hborne bears).1
    | value _ bears => exact (hborne bears).2

theorem turned_mapping (h : c.Settled (literal terms g₀) .allowed)
    (collects : c.graph.collects i = true) {es : List (Value × Value)} {cell : Cell}
    (run : (mapping (make (n + 1)) i).run c = .ok (es, c₁)) :
    Turned (literal terms g₀) c (c₁.withCell i cell) i := by
  obtain ⟨hkind, g, hreplace, run⟩ := mapping_allowed_ok h run
  have hedits := Merging.replace_edits (.refl c.graph) hkind hreplace
  have hflat := Graph.Flattens.of_edits hedits
  obtain ⟨hgathers, hunmerged⟩ :=
    Merging.replace_gathers (Rules.thorough_of_classic rfl) hkind hreplace
  obtain ⟨hgrows, hfilled⟩ := grows_classicEntries (settled_withGraph h hkind hreplace)
    (fun _ _ => ⟨trivial, trivial⟩) run
  have hgraph : (c₁.withCell i cell).graph = g := hgrows.graph
  have hlater := hgrows.trans (.withCell hgrows.settled i cell)
  have hkind' : (g.node i).content.kind = .mapping := by rw [hflat.kind, hkind]
  have hnotSequence : ∀ items, (g.node i).content ≠ .sequence items := by
    intro items hcontent
    rw [hcontent] at hkind'
    cases hkind'
  obtain ⟨new, hnew⟩ := hlater.enqueues
  refine ⟨hlater.settled, ⟨new, hnew.queue, hnew.built, hnew.fresh, hnew.nodup⟩, ?_, ?_, ?_, ?_, ?_⟩
  · rw [hgraph]
    exact (Graph.Edited.refl c.graph).edits hedits
  · rw [hgraph]
    exact fun j m part => hgathers.part hunmerged collects part
  · rw [hgraph]
    exact ⟨hunmerged, fun items _ content => (hnotSequence items content).elim⟩
  · intro j part
    rw [hgraph] at part
    have hborne : ∀ {e}, g.Bears i e → (c₁.withCell i cell).Made (literal terms g₀) e.key ∧
        (c₁.withCell i cell).Made (literal terms g₀) e.value := by
      intro e bears
      cases bears with
      | entry brings =>
        obtain ⟨hkey, hvalue⟩ := hfilled e (brings.mem hunmerged)
        exact ⟨.inr hkey, hvalue⟩
      | pair _ content _ _ => exact (hnotSequence _ content).elim
    cases part with
    | item _ content _ => exact (hnotSequence _ content).elim
    | key _ bears => exact (hborne bears).1
    | value _ bears => exact (hborne bears).2
  · intro j made
    refine hlater.made (made.imp id ?_)
    rintro ⟨htag, x, hx⟩
    exact ⟨hflat.mem_scalarTags htag, x, finished_flattens hflat j x hx⟩

theorem turned (h : c.Settled (literal terms g₀) .allowed) (built : c.Built i)
    (run : (fill (make (n + 1)) i).run c = .ok ((), c')) : Turned (literal terms g₀) c c' i := by
  rcases fill_ways run with ⟨hlist, vs, c₁, hsequence, rfl⟩ | ⟨es, c₁, cell, hmapping, rfl⟩ |
    ⟨hpairs, ⟨context, hfill⟩ | ⟨hmodern, -⟩⟩
  · obtain ⟨items, hcontent, hgrows, hmade⟩ := grows_sequence h trivial hsequence
    have hlater := Grows.withCell hgrows.settled i (.list vs)
    exact turned_sequence hlist hcontent (hgrows.trans hlater) fun j hj => hlater.made (hmade j hj)
  · exact turned_mapping h (h.collects_of_built built) hmapping
  · obtain ⟨items, hcontent, hgrows, hmade⟩ := grows_fillPairs h trivial hfill
    exact turned_pairs hpairs hcontent hgrows hmade
  · rw [h.rules] at hmodern
    cases hmodern

end Course.literal

/-! ## All turns -/

/-- What is known between two turns: the collections whose turns are to come are built, each
collection of the document is inside one that is built, and one that is built and whose turn does
not come any more has had it and has all made that it calls on. -/
structure Survey (terms : Terms) (g : Graph) (c : Construction) (rest : List NodeId) : Prop where
  settled : c.Settled (.literal terms g) .allowed
  built : ∀ j ∈ rest ++ c.queue, c.Built j
  covered : ∀ j, g.Placed j → g.collects j = true → ∃ i, c.Built i ∧ c.graph.Inside i j
  past : ∀ j, c.Built j → j ∉ rest ++ c.queue →
    (∃ c₁ rest₁, Turns (.classic terms .allowed) g c₁ (j :: rest₁)) ∧
      c.graph.Bare j ∧ ∀ m, c.graph.Part j m → c.Made (.literal terms g) m

variable {terms : Terms} {g : Graph} {c c' : Construction} {i : NodeId} {rest : List NodeId}

theorem Survey.filled (h : Survey terms g c (i :: rest))
    (turn : Turns (.classic terms .allowed) g c (i :: rest))
    (run : (fill (make (terms.limits.building + 1)) i).run c = .ok ((), c')) :
    Survey terms g c' rest := by
  have hbuilt := h.built i List.mem_cons_self
  have hturned := Course.literal.turned h.settled hbuilt run
  obtain ⟨new, hnew⟩ := hturned.enqueues
  have hqueue : rest ++ c'.queue = (rest ++ c.queue) ++ new := by
    rw [hnew.queue, List.append_assoc]
  refine ⟨hturned.settled, fun j hj => ?_, fun j placed collects => ?_, fun j hj hlater => ?_⟩
  · rw [hqueue, List.mem_append] at hj
    exact (hnew.built j).mpr (hj.imp (fun hj => h.built j (List.mem_cons_of_mem i hj)) id)
  · obtain ⟨w, hw, hinside⟩ := h.covered j placed collects
    rcases Graph.inside_or hturned.moved hinside with hinside | hinside
    · exact ⟨w, (hnew.built w).mpr (.inl hw), hinside⟩
    · exact ⟨i, (hnew.built i).mpr (.inl hbuilt), hinside⟩
  · rw [hqueue, List.mem_append, not_or] at hlater
    by_cases hji : j = i
    · subst hji
      exact ⟨⟨c, rest, turn⟩, hturned.bare, hturned.made⟩
    · have hold : c.Built j := ((hnew.built j).mp hj).resolve_right hlater.2
      obtain ⟨hturn, hbare, hmade⟩ := h.past j hold (by
        rw [List.cons_append, List.mem_cons, not_or]
        exact ⟨hji, hlater.1⟩)
      refine ⟨hturn, hbare.edited hturned.edited, fun m part => ?_⟩
      exact hturned.kept m (hmade m (hbare.part hturned.edited part))

theorem Turns.survey (turns : Turns (.classic terms .allowed) g c rest) :
    Survey terms g c rest := by
  induction turns with
  | @begun v c run =>
    have hstart : (Construction.start (.classic terms .allowed) g).Settled
        (.literal terms g) .allowed := .start .refl
    obtain ⟨hgrows, hmade⟩ := grows_make hstart trivial run
    obtain ⟨new, hnew⟩ := hgrows.enqueues
    have hqueue : c.queue = new := hnew.queue
    have hnothing : ∀ j, ¬(Construction.start (.classic terms .allowed) g).Built j := by
      intro j hj
      unfold Construction.Built at hj
      rw [stage_start] at hj
      cases hj
    refine ⟨hgrows.settled, fun j hj => ?_, fun j placed collects => ?_, fun j hj hlater => ?_⟩
    · rw [hqueue] at hj
      exact (hnew.built j).mpr (.inr hj)
    · have hroot : g.collects g.root = true := by
        cases placed.cases_head with
        | inl heq => rw [heq, collects]
        | inr hpart => exact hpart.choose_spec.1.collects
      refine ⟨g.root, hmade.made.built ?_, ?_⟩
      · rw [hgrows.graph]
        exact hroot
      · rw [hgrows.graph]
        exact placed
    · rw [hqueue] at hlater
      exact (((hnew.built j).mp hj).elim (hnothing j) hlater).elim
  | @round c last ih =>
    have hqueue : c.queue ++ [] = [] ++ c.queue := List.append_nil _
    refine ⟨ih.settled.emptied, ?_, ih.covered, ?_⟩
    · rw [hqueue]
      exact ih.built
    · rw [hqueue]
      exact ih.past
  | filled turn run ih => exact ih.filled turn run

/-! ## The end -/

theorem Turns.forM {r : Rules} (turns : Turns r g c rest)
    (run : (rest.forM (fill (make (r.limits.building + 1)))).run c = .ok ((), c')) :
    Turns r g c' [] := by
  induction rest generalizing c with
  | nil =>
    cases run
    exact turns
  | cons i rest ih =>
    obtain ⟨⟨⟩, c₁, hfill, run⟩ := run_bind_ok run
    exact ih (.filled turns hfill) run

theorem Turns.fillQueue {r : Rules} {fuel : Nat} (turns : Turns r g c [])
    (run : (fillQueue (make (r.limits.building + 1)) fuel).run c = .ok ((), c')) :
    Turns r g c' [] ∧ c'.queue = [] := by
  induction fuel generalizing c with
  | zero => cases run
  | succ fuel ih =>
    unfold Build.fillQueue at run
    rw [run_bind_of_ok (run_get c)] at run
    cases hqueue : c.queue with
    | nil =>
      simp only [hqueue, List.isEmpty_nil, if_true] at run
      cases run
      exact ⟨turns, hqueue⟩
    | cons i waiting =>
      simp only [hqueue, List.isEmpty_cons] at run
      rw [if_neg (by simp), run_bind_of_ok (run_set _ c)] at run
      obtain ⟨⟨⟩, c₁, hround, run⟩ := run_bind_ok run
      have hturns := Turns.round turns
      rw [hqueue] at hturns
      exact ih (hturns.forM hround) run

/-- Each collection that has a place in an accepted document has its turn. -/
theorem Graph.Placed.turn {d : Document}
    (accepted : g.document (.classic terms .allowed) = .ok d) (placed : g.Placed i)
    (collects : g.collects i = true) :
    ∃ c rest, Turns (.classic terms .allowed) g c (i :: rest) := by
  obtain ⟨c', hdocument⟩ := Graph.document_eq_ok.mp accepted
  obtain ⟨v, c, hroot, hqueue, -⟩ := run_document_ok hdocument
  obtain ⟨hturns, hempty⟩ := (Turns.begun hroot).fillQueue hqueue
  have hsurvey := hturns.survey
  have hpast : ∀ j, c'.Built j → _ := fun j hj =>
    hsurvey.past j hj (by rw [hempty]; exact List.not_mem_nil)
  -- From a collection that is built the way leads through collections that are built.
  have hinside : ∀ {w}, c'.graph.Inside w i → c'.Built w → c'.Built i := by
    intro w inside
    induction inside using Relation.ReflTransGen.head_induction_on with
    | refl => exact id
    | head part inside ih =>
      intro hw
      refine ih (((hpast _ hw).2.2 _ part).built ?_)
      rcases inside.cases_head with rfl | ⟨m, hpart, -⟩
      · rw [(Course.literal.edited hsurvey.settled.graph).flat.collects_eq, collects]
      · exact hpart.collects
  obtain ⟨w, hw, inside⟩ := hsurvey.covered i placed collects
  exact (hpast i (hinside inside hw)).1

end YamlCheck.Yaml
