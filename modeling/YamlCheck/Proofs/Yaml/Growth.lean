import YamlCheck.Proofs.Yaml.Abreast

/-!
# What a classic construction adds

A construction only ever adds: collections that are built stay built, and one that is newly built
waits in the queue.  The lemmas here say so for each part of the construction of a document, and
name the nodes that a part has made when it ends well.
-/

namespace YamlCheck.Yaml

namespace Construction

def Built (c : Construction) (i : NodeId) : Prop := c.stage i = .finished (.ref i)

def Read (k : Course) (c : Construction) (i : NodeId) : Prop :=
  (c.graph.node i).tag ∈ Build.scalarTags ∧ ∃ x, k.finished c.graph i x

def Made (k : Course) (c : Construction) (i : NodeId) : Prop := c.Built i ∨ c.Read k i

/-- What a later state has put into the queue: the collections that were built in the meantime, each
of them once. -/
structure Enqueues (c c' : Construction) (new : List NodeId) : Prop where
  queue : c'.queue = c.queue ++ new
  built : ∀ j, c'.Built j ↔ c.Built j ∨ j ∈ new
  fresh : ∀ j ∈ new, ¬c.Built j
  nodup : new.Nodup

/-- A later state of a construction over the same graph. -/
structure Grows (k : Course) (p : Duplicates) (c c' : Construction) : Prop where
  settled : c'.Settled k p
  graph : c'.graph = c.graph
  enqueues : ∃ new, Enqueues c c' new

variable {k : Course} {p : Duplicates} {c c' c₁ c₂ : Construction} {i : NodeId}

theorem Settled.built_enqueue {cell : Cell} (h : c.Settled k p)
    (collection : Build.emptyCell? .classic (c.graph.node i).tag = some cell) (j : NodeId) :
    (c.enqueue i cell).Built j ↔ j = i ∨ c.Built j := by
  have hlt : i < c.progress.size := by
    refine Nat.lt_of_lt_of_le (Graph.lt_size_of_tag fun hnull => ?_) h.room
    rw [hnull] at collection
    cases collection
  unfold Built
  rw [stage_enqueue]
  by_cases hij : i = j
  · subst hij
    simp [hlt]
  · simp [hij, Ne.symm hij]

theorem Enqueues.nothing (queue : c'.queue = c.queue) (built : ∀ j, c'.Built j ↔ c.Built j) :
    Enqueues c c' [] :=
  ⟨by simp [queue], by simp [built], by simp, .nil⟩

theorem Enqueues.append {new new' : List NodeId} (h : Enqueues c c₁ new)
    (h' : Enqueues c₁ c₂ new') : Enqueues c c₂ (new ++ new') where
  queue := by rw [h'.queue, h.queue, List.append_assoc]
  built j := by rw [h'.built, h.built, List.mem_append, or_assoc]
  fresh j hj := by
    rcases List.mem_append.mp hj with hnew | hnew'
    · exact h.fresh j hnew
    · exact fun hbuilt => h'.fresh j hnew' ((h.built j).mpr (.inl hbuilt))
  nodup := by
    refine List.nodup_append.mpr ⟨h.nodup, h'.nodup, ?_⟩
    rintro j hj _ hj' rfl
    exact h'.fresh j hj' ((h.built j).mpr (.inr hj))

namespace Grows

theorem built (h : Grows k p c c') (j : NodeId) (hj : c.Built j) : c'.Built j := by
  obtain ⟨new, hnew⟩ := h.enqueues
  exact (hnew.built j).mpr (.inl hj)

theorem queue (h : Grows k p c c') (j : NodeId) (hj : j ∈ c.queue) : j ∈ c'.queue := by
  obtain ⟨new, hnew⟩ := h.enqueues
  rw [hnew.queue]
  exact List.mem_append_left new hj

theorem fresh (h : Grows k p c c') (j : NodeId) (hj : c'.Built j) :
    c.Built j ∨ j ∈ c'.queue := by
  obtain ⟨new, hnew⟩ := h.enqueues
  rw [hnew.queue]
  exact ((hnew.built j).mp hj).imp id (List.mem_append_right c.queue)

theorem refl (h : c.Settled k p) : Grows k p c c :=
  ⟨h, rfl, [], .nothing rfl fun _ => .rfl⟩

theorem trans (h : Grows k p c c₁) (h' : Grows k p c₁ c₂) : Grows k p c c₂ := by
  obtain ⟨new, hnew⟩ := h.enqueues
  obtain ⟨new', hnew'⟩ := h'.enqueues
  exact ⟨h'.settled, h'.graph.trans h.graph, new ++ new', hnew.append hnew'⟩

theorem read (h : Grows k p c c') (read : c.Read k i) : c'.Read k i := by
  unfold Read
  rw [h.graph]
  exact read

theorem made (h : Grows k p c c') (made : c.Made k i) : c'.Made k i :=
  made.imp (h.built i) h.read

theorem learn {x : Scalar} (h : c.Settled k p) (untouched : c.stage i = .untouched)
    (denotes : c.graph.Denotes k.terms i x) : Grows k p c (c.learn i x) := by
  refine ⟨h.learn denotes, rfl, [], .nothing rfl fun j => ?_⟩
  unfold Built
  rw [stage_learn]
  split
  · rename_i hij
    rw [← hij.1, untouched]
    simp
  · rfl

theorem enqueue {cell : Cell} (h : c.Settled k p) (node : k.node i)
    (untouched : c.stage i = .untouched)
    (collection : Build.emptyCell? .classic (c.graph.node i).tag = some cell) :
    Grows k p c (c.enqueue i cell) := by
  refine ⟨h.enqueue node collection, rfl, [i], rfl, fun j => ?_, fun j hj => ?_, by simp⟩
  · rw [h.built_enqueue collection, List.mem_singleton, or_comm]
  · rw [List.mem_singleton.mp hj]
    unfold Built
    rw [untouched]
    simp

theorem withCell (h : c.Settled k p) (i : NodeId) (cell : Cell) :
    Grows k p c (c.withCell i cell) :=
  ⟨h.withCell i cell, rfl, [], .nothing rfl fun _ => .rfl⟩

end Grows

end Construction

namespace Build

open Construction

variable {k : Course} {p : Duplicates} {c c' : Construction} {i : NodeId} {n : Nat}

/-- The value that a node is made into: a reference to its cell or a scalar. -/
def MadeAs (k : Course) (c : Construction) (i : NodeId) (v : Value) : Prop :=
  (v = .ref i ∧ c.Built i) ∨ ((∃ x, v = .scalar x) ∧ c.Read k i)

theorem MadeAs.made {v : Value} (h : MadeAs k c i v) : c.Made k i :=
  h.imp And.right And.right

theorem MadeAs.read {v : Value} (h : MadeAs k c i v) (scalar : v.collection? = none) :
    c.Read k i := by
  rcases h with ⟨rfl, -⟩ | ⟨-, hread⟩
  · cases scalar
  · exact hread

theorem grows_make {v : Value} (h : c.Settled k p) (node : k.node i)
    (run : (make (n + 1) i false).run c = .ok (v, c')) : Grows k p c c' ∧ MadeAs k c' i v := by
  have hmakes := makes h n i
  rw [run] at hmakes
  cases hmakes with
  | known hstage =>
    refine ⟨.refl h, ?_⟩
    rcases h.stage i with huntouched | ⟨hcell, -⟩ | ⟨x, hscalar, htag, hx⟩
    · rw [huntouched] at hstage
      cases hstage
    · rw [hcell] at hstage
      cases hstage
      exact .inl ⟨rfl, hcell⟩
    · rw [hscalar] at hstage
      cases hstage
      exact .inr ⟨⟨x, rfl⟩, htag, x, hx⟩
  | read huntouched hdenotes =>
    rename_i x
    exact ⟨.learn h huntouched hdenotes,
      .inr ⟨⟨x, rfl⟩, tag_mem_of_scalar_ok hdenotes, x, k.read h.graph hdenotes⟩⟩
  | waits huntouched hcell =>
    exact ⟨.enqueue h node huntouched hcell,
      .inl ⟨rfl, (h.built_enqueue hcell i).mpr (.inl rfl)⟩⟩

/-- The keys of a mapping that is filled denote scalars. -/
theorem grows_classicEntries {around : Mark} {es : List Entry} {acc r : List (Value × Value)}
    (h : c.Settled k p) (parts : ∀ e ∈ es, k.node e.key ∧ k.node e.value)
    (run : (classicEntries (make (n + 1)) around acc es).run c = .ok (r, c')) :
    Grows k p c c' ∧ ∀ e ∈ es, c'.Read k e.key ∧ c'.Made k e.value := by
  induction es generalizing acc c with
  | nil =>
    cases run
    exact ⟨.refl h, by simp⟩
  | cons e rest ih =>
    have he := parts e (by simp)
    unfold classicEntries at run
    obtain ⟨key, c₁, hkey, run⟩ := run_bind_ok run
    obtain ⟨hgrows₁, hmade₁⟩ := grows_make h he.1 hkey
    by_cases hcollection : key.collection?.isSome
    · simp only [hcollection, if_true] at run
      obtain ⟨_, _, -, run⟩ := run_bind_ok run
      obtain ⟨_, _, hthrow, -⟩ := run_bind_ok run
      cases hthrow
    · simp only [hcollection] at run
      rw [if_neg (by simp)] at run
      obtain ⟨value, c₂, hvalue, run⟩ := run_bind_ok run
      obtain ⟨hgrows₂, hmade₂⟩ := grows_make hgrows₁.settled he.2 hvalue
      obtain ⟨hgrows₃, hrest⟩ := ih hgrows₂.settled (fun e he => parts e (by simp [he])) run
      refine ⟨(hgrows₁.trans hgrows₂).trans hgrows₃, fun e' he' => ?_⟩
      rcases List.mem_cons.mp he' with rfl | he'
      · have hscalar : key.collection? = none := by simpa using hcollection
        exact ⟨(hgrows₂.trans hgrows₃).read (hmade₁.read hscalar), hgrows₃.made hmade₂.made⟩
      · exact hrest e' he'

theorem grows_items {items : List NodeId} {vs : List Value} (h : c.Settled k p)
    (parts : ∀ j ∈ items, k.node j)
    (run : (items.mapM fun j => make (n + 1) j false).run c = .ok (vs, c')) :
    Grows k p c c' ∧ ∀ j ∈ items, c'.Made k j := by
  induction items generalizing c vs with
  | nil =>
    rw [List.mapM_nil] at run
    cases run
    exact ⟨.refl h, by simp⟩
  | cons j rest ih =>
    rw [List.mapM_cons] at run
    obtain ⟨v, c₁, hmake, run⟩ := run_bind_ok run
    obtain ⟨ws, c₂, hrest, run⟩ := run_bind_ok run
    cases run
    obtain ⟨hgrows₁, hmade₁⟩ := grows_make h (parts j (by simp)) hmake
    obtain ⟨hgrows₂, hmade₂⟩ := ih hgrows₁.settled (fun m hm => parts m (by simp [hm])) hrest
    refine ⟨hgrows₁.trans hgrows₂, fun m hm => ?_⟩
    rcases List.mem_cons.mp hm with rfl | hm
    · exact hgrows₂.made hmade₁.made
    · exact hmade₂ m hm

theorem kind_of_sequence_ok {make : Builder} {vs : List Value}
    (run : (sequence make i).run c = .ok (vs, c')) :
    (c.graph.node i).content.kind = .sequence := by
  unfold sequence at run
  rw [run_bind_of_ok (run_node i c)] at run
  cases hcontent : (c.graph.node i).content with
  | sequence items => rfl
  | _ =>
    rw [hcontent] at run
    cases run

theorem grows_sequence {vs : List Value} (h : c.Settled k p) (node : k.node i)
    (run : (sequence (make (n + 1)) i).run c = .ok (vs, c')) :
    ∃ items, (c.graph.node i).content = .sequence items ∧ Grows k p c c' ∧
      ∀ j ∈ items, c'.Made k j := by
  unfold sequence at run
  rw [run_bind_of_ok (run_node i c)] at run
  cases hcontent : (c.graph.node i).content with
  | scalar text =>
    rw [hcontent] at run
    cases run
  | mapping es =>
    rw [hcontent] at run
    cases run
  | sequence items =>
    rw [hcontent] at run
    exact ⟨items, rfl, grows_items h (fun j hj => k.below h.graph node (.item hcontent hj)) run⟩

def MadePair (k : Course) (c : Construction) (j : NodeId) : Prop :=
  ∃ e, (c.graph.node j).content = .mapping [e] ∧ c.Made k e.key ∧ c.Made k e.value

theorem MadePair.grows {j : NodeId} (pair : MadePair k c j) (h : Grows k p c c') :
    MadePair k c' j := by
  obtain ⟨e, hcontent, hkey, hvalue⟩ := pair
  exact ⟨e, by rw [h.graph, hcontent], h.made hkey, h.made hvalue⟩

theorem grows_pairs {context : Context} {around : Mark} {items : List NodeId} {acc : List Value}
    (h : c.Settled k p) (parts : ∀ j ∈ items, k.node j)
    (run : (fillPairs.loop (make (n + 1)) context i around acc items).run c = .ok ((), c')) :
    Grows k p c c' ∧ ∀ j ∈ items, MadePair k c' j := by
  induction items generalizing c acc with
  | nil =>
    cases run
    exact ⟨.refl h, by simp⟩
  | cons j rest ih =>
    unfold fillPairs.loop at run
    obtain ⟨e, c₀, hentry, run⟩ := run_bind_ok run
    obtain ⟨hcontent, hsame⟩ := singleEntry_ok hentry
    rw [hsame] at run
    have hmem : e ∈ c.graph.entries j := by
      rw [Graph.entries_of_content hcontent]
      exact List.mem_singleton_self e
    have hj := parts j (by simp)
    obtain ⟨key, c₁, hkey, run⟩ := run_bind_ok run
    obtain ⟨value, c₂, hvalue, run⟩ := run_bind_ok run
    obtain ⟨⟨⟩, c₃, hcell, run⟩ := run_bind_ok run
    cases hcell
    obtain ⟨hgrows₁, hmade₁⟩ := grows_make h (k.below h.graph hj (.key hmem)) hkey
    obtain ⟨hgrows₂, hmade₂⟩ :=
      grows_make hgrows₁.settled (k.below h.graph hj (.value hmem)) hvalue
    have hgrows₃ := Grows.withCell hgrows₂.settled i (.list (acc ++ [.tuple [key, value]]))
    obtain ⟨hgrows₄, hrest⟩ := ih hgrows₃.settled (fun m hm => parts m (by simp [hm])) run
    have hpair : MadePair k c₂ j :=
      ⟨e, by rw [hgrows₂.graph, hgrows₁.graph, hcontent], hgrows₂.made hmade₁.made, hmade₂.made⟩
    have hlater := hgrows₃.trans hgrows₄
    refine ⟨(hgrows₁.trans hgrows₂).trans hlater, fun m hm => ?_⟩
    rcases List.mem_cons.mp hm with rfl | hm
    · exact hpair.grows hlater
    · exact hrest m hm

/-- The items of a list of pairs that is filled have one entry each, whose parts are made. -/
theorem grows_fillPairs {context : Context} (h : c.Settled k p) (node : k.node i)
    (run : (fillPairs (make (n + 1)) context i).run c = .ok ((), c')) :
    ∃ items, (c.graph.node i).content = .sequence items ∧ Grows k p c c' ∧
      ∀ j ∈ items, MadePair k c' j := by
  unfold fillPairs at run
  obtain ⟨⟨around, items⟩, c₀, hitems, run⟩ := run_bind_ok run
  obtain ⟨-, hcontent, hsame⟩ := pairItems_ok hitems
  rw [hsame] at run
  exact ⟨items, hcontent,
    grows_pairs h (fun j hj => k.below h.graph node (.item hcontent hj)) run⟩

/-- The ways in which the cell of a collection is filled. -/
theorem fill_ways {make : Builder} (run : (fill make i).run c = .ok ((), c')) :
    ((c.graph.node i).tag = Tag.seq ∧
      ∃ vs c₁, (sequence make i).run c = .ok (vs, c₁) ∧ c' = c₁.withCell i (.list vs)) ∨
    (∃ es c₁ cell, (mapping make i).run c = .ok (es, c₁) ∧ c' = c₁.withCell i cell) ∨
    ((c.graph.node i).tag ≠ Tag.seq ∧
      ((∃ context, (fillPairs make context i).run c = .ok ((), c')) ∨
      (c.rules.dialect = .modern ∧ (fillOrderedMap make i).run c = .ok ((), c')))) := by
  unfold fill at run
  rw [run_bind_of_ok (run_node i c), run_bind_of_ok (run_get c)] at run
  have mapped : ∀ f : List (Value × Value) → Cell,
      (mapping make i >>= fun es => setCell i (f es)).run c = .ok ((), c') →
      ∃ es c₁ cell, (mapping make i).run c = .ok (es, c₁) ∧ c' = c₁.withCell i cell := by
    intro f run
    obtain ⟨es, c₁, hmapping, hcell⟩ := run_bind_ok run
    cases hcell
    exact ⟨es, c₁, f es, hmapping, rfl⟩
  by_cases hseq : (c.graph.node i).tag == Tag.seq
  · simp only [hseq, if_true] at run
    obtain ⟨vs, c₁, hsequence, hcell⟩ := run_bind_ok run
    cases hcell
    exact .inl ⟨by simpa using hseq, vs, c₁, hsequence, rfl⟩
  have hother : (c.graph.node i).tag ≠ Tag.seq := by simpa using hseq
  by_cases hmap : (c.graph.node i).tag == Tag.map
  · simp only [hseq, hmap, if_true] at run
    exact .inr (.inl (mapped .map run))
  by_cases hset : (c.graph.node i).tag == Tag.set
  · simp only [hseq, hmap, hset, if_true, Bool.false_eq_true, if_false] at run
    exact .inr (.inl (mapped (fun es => .set (es.map (·.1))) run))
  by_cases hpairs : (c.graph.node i).tag == Tag.pairs
  · simp only [hseq, hmap, hset, hpairs, if_true] at run
    exact .inr (.inr ⟨hother, .inl ⟨.pairs, run⟩⟩)
  simp only [hseq, hmap, hset, hpairs] at run
  by_cases hclassic : c.rules.dialect == .classic
  · simp only [hclassic, if_true] at run
    exact .inr (.inr ⟨hother, .inl ⟨.orderedMap, run⟩⟩)
  · simp only [hclassic] at run
    refine .inr (.inr ⟨hother, .inr ⟨?_, run⟩⟩)
    cases hdialect : c.rules.dialect with
    | classic => simp [hdialect] at hclassic
    | modern => rfl

/-- A node that is filled and has entries is filled as a mapping. -/
theorem mapping_of_fill {make : Builder} (run : (fill make i).run c = .ok ((), c'))
    (kind : (c.graph.node i).content.kind = .mapping) :
    ∃ es c₁, (mapping make i).run c = .ok (es, c₁) := by
  have unpaired : ∀ {context c₀ pairs}, (pairItems context i).run c ≠ .ok (pairs, c₀) := by
    intro context c₀ pairs hitems
    obtain ⟨-, hcontent, -⟩ := pairItems_ok hitems
    rw [hcontent] at kind
    cases kind
  rcases fill_ways run with
    ⟨-, vs, c₁, hsequence, -⟩ | ⟨es, c₁, cell, hmapping, -⟩ | ⟨-, ⟨context, hpairs⟩ | ⟨-, hpairs⟩⟩
  · have hcontent := kind_of_sequence_ok hsequence
    rw [kind] at hcontent
    cases hcontent
  · exact ⟨es, c₁, hmapping⟩
  · obtain ⟨items, c₀, hitems, -⟩ := run_bind_ok hpairs
    exact (unpaired hitems).elim
  · obtain ⟨items, c₀, hitems, -⟩ := run_bind_ok hpairs
    exact (unpaired hitems).elim

/-- A collection is filled alike in two runs, or the second one is refused, if that is so of the
mappings among the collections. -/
theorem fill_outcome_of {R : Construction → Construction → Prop} {P : NodeId → Prop}
    {make : Builder} {Clear : Prop} {Refused : LoadError → Prop} {s s' l : Construction}
    (tracks : Tracks R P)
    (makes : ∀ j s l, P j → R s l → Follows R Refused (make j false) (make j false) s l)
    (h : R s l) (node : P i) (unmapped : (s.graph.node i).content.kind ≠ .mapping → Clear)
    (filled : ∀ es s₁, (mapping make i).run s = .ok (es, s₁) →
      (Clear ∧ ∃ l₁, (mapping make i).run l = .ok (es, l₁) ∧ R s₁ l₁) ∨
        ∃ err, (mapping make i).run l = .error err ∧ Refused err)
    (run : (fill make i).run s = .ok ((), s')) :
    (Clear ∧ ∃ l', (fill make i).run l = .ok ((), l') ∧ R s' l') ∨
      ∃ err, (fill make i).run l = .error err ∧ Refused err := by
  have follows : Follows R Refused (mapping make i) (mapping make i) s l := fun es s₁ hs =>
    (filled es s₁ hs).imp And.right id
  rcases follows_fill tracks makes h node follows () s' run with ⟨l', hl, h'⟩ | hrefused
  · refine .inl ⟨?_, l', hl, h'⟩
    by_cases hkind : (s.graph.node i).content.kind = .mapping
    · have hgraph := tracks.graph h
      obtain ⟨es, s₁, hs⟩ := mapping_of_fill run hkind
      obtain ⟨es', l₁, hl⟩ := mapping_of_fill hl (by rw [← hgraph]; exact hkind)
      rcases filled es s₁ hs with ⟨hclear, -⟩ | ⟨err, herr, -⟩
      · exact hclear
      · rw [hl] at herr
        cases herr
    · exact unmapped hkind
  · exact .inr hrefused

/-- The ways in which the cell of a collection is filled in the classic dialect. -/
theorem fill_cases {make : Builder} (classic : c.rules.dialect = .classic)
    (run : (fill make i).run c = .ok ((), c')) :
    (∃ vs c₁, (sequence make i).run c = .ok (vs, c₁) ∧ c' = c₁.withCell i (.list vs)) ∨
    (∃ es c₁ cell, (mapping make i).run c = .ok (es, c₁) ∧ c' = c₁.withCell i cell) ∨
    ∃ context, (fillPairs make context i).run c = .ok ((), c') := by
  rcases fill_ways run with ⟨-, hsequence⟩ | hmapping | ⟨-, hpairs | ⟨hmodern, -⟩⟩
  · exact .inl hsequence
  · exact .inr (.inl hmapping)
  · exact .inr (.inr hpairs)
  · rw [classic] at hmodern
    cases hmodern

end Build

end YamlCheck.Yaml
