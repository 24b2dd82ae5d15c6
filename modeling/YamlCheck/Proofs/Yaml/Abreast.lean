import YamlCheck.Proofs.Yaml.PlainValue

/-!
# Classic constructions abreast

In the classic dialect a node is made in one step: a scalar is read, and a collection gets an empty
cell and waits in the queue.  With repeated keys refused the scalars among the keys of a mapping
are read before the mapping is filled.  So the two policies pass through states that agree in all
but this: one run may have read a scalar that the other one has still to read.
-/

namespace YamlCheck.Yaml

def Rules.classic (terms : Terms) (duplicates : Duplicates) : Rules :=
  ⟨terms, .classic, duplicates⟩

def Terms.classic : Terms := ⟨.usual, .classic⟩

/-- Whether a node denotes a scalar in the classic dialect. -/
def Graph.Denotes (g : Graph) (terms : Terms) (i : NodeId) (x : Scalar) : Prop :=
  Build.scalar (.classic terms .allowed) g i = .ok x

/-- What holds throughout the construction of a document: of its graph, of the nodes that it comes
to, of the scalars that are finished, and of the nodes that only one of two runs may have read. -/
structure Course where
  terms : Terms
  graph : Graph → Prop
  node : NodeId → Prop
  finished : Graph → NodeId → Scalar → Prop
  ahead : Graph → NodeId → Prop
  below : ∀ {g i j}, graph g → node i → g.Holds i j → node j
  read : ∀ {g i x}, graph g → g.Denotes terms i x → finished g i x

namespace Construction

/-- The construction once the scalar of a node is read. -/
def learn (c : Construction) (i : NodeId) (x : Scalar) : Construction :=
  c.withProgress i (.finished (.scalar x))

def enqueue (c : Construction) (i : NodeId) (cell : Cell) : Construction :=
  { (c.withCell i cell).withProgress i (.finished (.ref i)) with queue := c.queue ++ [i] }

/-- A state of a classic construction between two nodes. -/
structure Settled (k : Course) (policy : Duplicates) (c : Construction) : Prop where
  rules : c.rules = .classic k.terms policy
  waits : c.atOnce = false
  room : c.graph.nodes.size ≤ c.progress.size
  graph : k.graph c.graph
  waiting : ∀ j ∈ c.queue, k.node j
  stage : ∀ i, c.stage i = .untouched ∨
    (c.stage i = .finished (.ref i) ∧
      ∃ cell, Build.emptyCell? .classic (c.graph.node i).tag = some cell) ∨
    ∃ x, c.stage i = .finished (.scalar x) ∧ (c.graph.node i).tag ∈ Build.scalarTags ∧
      k.finished c.graph i x

theorem stage_learn (c : Construction) (i j : NodeId) (x : Scalar) :
    (c.learn i x).stage j =
      if i = j ∧ i < c.progress.size then .finished (.scalar x) else c.stage j :=
  c.stage_withProgress i j _

theorem stage_enqueue (c : Construction) (i j : NodeId) (cell : Cell) :
    (c.enqueue i cell).stage j =
      if i = j ∧ i < c.progress.size then .finished (.ref i) else c.stage j :=
  (c.withCell i cell).stage_withProgress i j _

theorem size_learn (c : Construction) (i : NodeId) (x : Scalar) :
    (c.learn i x).progress.size = c.progress.size := by
  simp [learn, withProgress]

theorem size_enqueue (c : Construction) (i : NodeId) (cell : Cell) :
    (c.enqueue i cell).progress.size = c.progress.size := by
  simp [enqueue, withProgress, withCell]

variable {k : Course} {p : Duplicates} {c : Construction} {i : NodeId}

theorem Settled.scalar_eq (h : c.Settled k p) (g : Graph) (i : NodeId) :
    Build.scalar c.rules g i = Build.scalar (.classic k.terms .allowed) g i := by
  rw [h.rules]
  rfl

theorem Settled.emptyCell?_eq (h : c.Settled k p) (tag : String) :
    Build.emptyCell? c.rules.dialect tag = Build.emptyCell? .classic tag := by
  rw [h.rules]
  rfl

theorem Settled.learn {x : Scalar} (h : c.Settled k p) (denotes : c.graph.Denotes k.terms i x) :
    (c.learn i x).Settled k p where
  rules := h.rules
  waits := h.waits
  room := by
    rw [size_learn]
    exact h.room
  graph := h.graph
  waiting := h.waiting
  stage j := by
    rw [stage_learn]
    split
    · rename_i hj
      rw [← hj.1]
      exact .inr (.inr ⟨x, rfl, Build.tag_mem_of_scalar_ok denotes, k.read h.graph denotes⟩)
    · exact h.stage j

theorem Settled.enqueue {cell : Cell} (h : c.Settled k p) (node : k.node i)
    (collection : Build.emptyCell? .classic (c.graph.node i).tag = some cell) :
    (c.enqueue i cell).Settled k p where
  rules := h.rules
  waits := h.waits
  room := by
    rw [size_enqueue]
    exact h.room
  graph := h.graph
  waiting j hj := by
    rcases List.mem_append.mp hj with hold | hnew
    · exact h.waiting j hold
    · rw [List.mem_singleton.mp hnew]
      exact node
  stage j := by
    rw [stage_enqueue]
    split
    · rename_i hj
      rw [← hj.1]
      exact .inr (.inl ⟨rfl, cell, collection⟩)
    · exact h.stage j

theorem Settled.withCell (h : c.Settled k p) (i : NodeId) (cell : Cell) :
    (c.withCell i cell).Settled k p :=
  ⟨h.rules, h.waits, h.room, h.graph, h.waiting, h.stage⟩

theorem Settled.emptied (h : c.Settled k p) :
    Construction.Settled k p { c with queue := [] } :=
  ⟨h.rules, h.waits, h.room, h.graph, by simp, h.stage⟩

theorem stage_start (r : Rules) (g : Graph) (i : NodeId) :
    (start r g).stage i = .untouched := by
  unfold stage start
  rw [Array.getD_eq_getD_getElem?, Array.getElem?_replicate]
  split <;> rfl

theorem Settled.start {g : Graph} (graph : k.graph g) :
    (Construction.start (.classic k.terms p) g).Settled k p where
  rules := rfl
  waits := rfl
  room := by simp [Construction.start]
  graph := graph
  waiting := by simp [Construction.start]
  stage i := .inl (stage_start _ g i)

end Construction

/-- One run has read a scalar that the other one has not. -/
def Ahead (k : Course) (a b : Construction) (i : NodeId) : Prop :=
  b.stage i = .untouched ∧
    ∃ x, a.stage i = .finished (.scalar x) ∧ a.graph.Denotes k.terms i x ∧ k.ahead a.graph i

/-- Two classic constructions that agree up to scalars that only one of them has read. -/
structure Abreast (k : Course) (p q : Duplicates) (s l : Construction) : Prop where
  left : s.Settled k p
  right : l.Settled k q
  graph : s.graph = l.graph
  cells : s.cells = l.cells
  queue : s.queue = l.queue
  size : s.progress.size = l.progress.size
  stage : ∀ i, s.stage i = l.stage i ∨ Ahead k s l i ∨ Ahead k l s i

theorem Abreast.symm {k : Course} {p q : Duplicates} {s l : Construction}
    (h : Abreast k p q s l) : Abreast k q p l s where
  left := h.right
  right := h.left
  graph := h.graph.symm
  cells := h.cells.symm
  queue := h.queue.symm
  size := h.size.symm
  stage i := (h.stage i).imp Eq.symm Or.symm

theorem Construction.withProgress_withProgress (c : Construction) (i : NodeId)
    (p q : Progress) : (c.withProgress i p).withProgress i q = c.withProgress i q := by
  unfold withProgress
  simp only [Array.setIfInBounds_setIfInBounds]

namespace Abreast

variable {k : Course} {p q : Duplicates} {s l : Construction} {i : NodeId} {x : Scalar}

theorem start {g : Graph} (graph : k.graph g) :
    Abreast k p q (Construction.start (.classic k.terms p) g)
      (Construction.start (.classic k.terms q) g) where
  left := .start graph
  right := .start graph
  graph := rfl
  cells := rfl
  queue := rfl
  size := rfl
  stage i := .inl (by rw [Construction.stage_start, Construction.stage_start])

/-- One run reads a scalar before the other one does, or after it has. -/
theorem learn_right (h : Abreast k p q s l) (untouched : l.stage i = .untouched)
    (denotes : l.graph.Denotes k.terms i x) (ahead : k.ahead l.graph i) :
    Abreast k p q s (l.learn i x) where
  left := h.left
  right := h.right.learn denotes
  graph := h.graph
  cells := h.cells
  queue := h.queue
  size := h.size.trans (Construction.size_learn l i x).symm
  stage j := by
    rw [Construction.stage_learn]
    by_cases hj : i = j ∧ i < l.progress.size
    · rw [if_pos hj, ← hj.1]
      have hlearned : (l.learn i x).stage i = .finished (.scalar x) := by
        rw [Construction.stage_learn, if_pos ⟨rfl, hj.2⟩]
      rcases h.stage i with hsame | ⟨-, y, hy, hdenotes, -⟩ | ⟨huntouched, -⟩
      · exact .inr (.inr ⟨hsame.trans untouched, x, hlearned, denotes, ahead⟩)
      · rw [h.graph] at hdenotes
        have hxy : x = y := Except.ok.inj (denotes.symm.trans hdenotes)
        exact .inl (by rw [hy, hxy])
      · exact .inr (.inr ⟨huntouched, x, hlearned, denotes, ahead⟩)
    · rw [if_neg hj]
      rcases h.stage j with hsame | ⟨hu, y, hy⟩ | ⟨hu, y, hy, hrest⟩
      · exact .inl hsame
      · exact .inr (.inl ⟨by rw [Construction.stage_learn, if_neg hj, hu], y, hy⟩)
      · exact .inr (.inr ⟨hu, y, by rw [Construction.stage_learn, if_neg hj, hy], hrest⟩)

theorem stage_finish (h : Abreast k p q s l) (i : NodeId) (v : Value) {s' l' : Construction}
    (hs : s'.progress = s.progress.setIfInBounds i (.finished v)) (hsg : s'.graph = s.graph)
    (hl : l'.progress = l.progress.setIfInBounds i (.finished v)) (hlg : l'.graph = l.graph)
    (j : NodeId) : s'.stage j = l'.stage j ∨ Ahead k s' l' j ∨ Ahead k l' s' j := by
  have hstage (c c' : Construction)
      (hc : c'.progress = c.progress.setIfInBounds i (.finished v)) :
      c'.stage j = if i = j ∧ i < c.progress.size then .finished v else c.stage j := by
    rw [← c.stage_withProgress]
    unfold Construction.stage Construction.withProgress
    rw [hc]
  have hs' := hstage s s' hs
  have hl' := hstage l l' hl
  by_cases hj : i = j ∧ i < s.progress.size
  · rw [hs', hl', if_pos hj, if_pos (by rw [← h.size]; exact hj)]
    exact .inl rfl
  · rw [if_neg hj] at hs'
    rw [if_neg (by rw [← h.size]; exact hj)] at hl'
    unfold Ahead
    rw [hs', hl', hsg, hlg]
    exact h.stage j

theorem learn_both (h : Abreast k p q s l) (denotes : s.graph.Denotes k.terms i x) :
    Abreast k p q (s.learn i x) (l.learn i x) where
  left := h.left.learn denotes
  right := h.right.learn (by rw [← h.graph]; exact denotes)
  graph := h.graph
  cells := h.cells
  queue := h.queue
  size := by rw [Construction.size_learn, Construction.size_learn, h.size]
  stage := h.stage_finish i _ rfl rfl rfl rfl

theorem enqueue_both {cell : Cell} (h : Abreast k p q s l) (node : k.node i)
    (collection : Build.emptyCell? .classic (s.graph.node i).tag = some cell) :
    Abreast k p q (s.enqueue i cell) (l.enqueue i cell) where
  left := h.left.enqueue node collection
  right := h.right.enqueue node (by rw [← h.graph]; exact collection)
  graph := h.graph
  cells := by
    unfold Construction.enqueue Construction.withCell Construction.withProgress
    rw [h.cells]
  queue := by
    unfold Construction.enqueue
    rw [h.queue]
  size := by rw [Construction.size_enqueue, Construction.size_enqueue, h.size]
  stage := h.stage_finish i _ rfl rfl rfl rfl

theorem tracks (k : Course) (p q : Duplicates) : Build.Tracks (Abreast k p q) k.node where
  graph h := h.graph
  dialect h := by
    rw [h.left.rules, h.right.rules]
    rfl
  cells h := h.cells
  queue h := h.queue
  withCell i cell h := by
    refine ⟨h.left.withCell i cell, h.right.withCell i cell, h.graph, ?_, h.queue, h.size,
      h.stage⟩
    unfold Construction.withCell
    rw [h.cells]
  emptied h :=
    ⟨h.left.emptied, h.right.emptied, h.graph, h.cells, rfl, h.size, h.stage⟩
  waiting h := h.left.waiting
  below h hi holds := k.below h.left.graph hi holds

end Abreast

namespace Build

variable {c : Construction} {i : NodeId} {fuel : Nat}

/-! ## Making one node -/

theorem run_make_of_finished {whole : Bool} {v : Value} (h : c.stage i = .finished v) :
    (make (fuel + 1) i whole).run c = .ok (v, c) := by
  unfold make makeWith
  have hstage : c.progress.getD i .untouched = .finished v := h
  rw [run_bind_of_ok (run_get c), hstage]
  rfl

theorem run_fresh_scalar {make : Builder}
    (scalar : emptyCell? c.rules.dialect (c.graph.node i).tag = none) :
    (fresh make i).run c = (Build.scalar c.rules c.graph i).map fun x => (.scalar x, c) := by
  unfold fresh
  rw [run_bind_of_ok (run_get _), scalar]
  cases Build.scalar c.rules c.graph i with
  | error e => rfl
  | ok x => rfl

/-- A scalar is made in the same way whether or not it has to be complete. -/
theorem run_make_scalar {whole : Bool} (untouched : c.stage i = .untouched)
    (scalar : emptyCell? c.rules.dialect (c.graph.node i).tag = none) :
    (make (fuel + 1) i whole).run c =
      (Build.scalar c.rules c.graph i).map fun x => (.scalar x, c.learn i x) := by
  unfold make makeWith
  have hstage : c.progress.getD i .untouched = .untouched := untouched
  rw [run_bind_of_ok (run_get c), hstage]
  have hfresh : ∀ c₁ : Construction, c₁.rules = c.rules → c₁.graph = c.graph →
      (fresh (make fuel) i).run c₁ =
        (Build.scalar c.rules c.graph i).map fun x => (.scalar x, c₁) := by
    intro c₁ hrules hgraph
    rw [run_fresh_scalar (by rw [hrules, hgraph]; exact scalar), hrules, hgraph]
  cases whole with
  | false =>
    change (setProgress i (.started none) >>= fun _ => fresh (make fuel) i >>= fun v =>
      setProgress i (.finished v) >>= fun _ => pure v).run c = _
    rw [run_bind_of_ok (run_setProgress i _ c)]
    have hscalar := hfresh (c.withProgress i (.started none)) rfl rfl
    cases hread : Build.scalar c.rules c.graph i with
    | error e =>
      rw [hread] at hscalar
      rw [run_bind_of_error hscalar]
      rfl
    | ok x =>
      rw [hread] at hscalar
      rw [run_bind_of_ok hscalar, run_bind_of_ok (run_setProgress i _ _), run_pure,
        Construction.withProgress_withProgress]
      rfl
  | true =>
    change (setAtOnce true >>= fun _ => setProgress i (.started none) >>= fun _ =>
      fresh (make fuel) i >>= fun v => setProgress i (.finished v) >>= fun _ =>
        setAtOnce c.atOnce >>= fun _ => pure v).run c = _
    rw [run_bind_of_ok (run_setAtOnce true c), run_bind_of_ok (run_setProgress i _ _)]
    have hscalar := hfresh
      (Construction.withProgress { c with atOnce := true } i (.started none)) rfl rfl
    cases hread : Build.scalar c.rules c.graph i with
    | error e =>
      rw [hread] at hscalar
      rw [run_bind_of_error hscalar]
      rfl
    | ok x =>
      rw [hread] at hscalar
      rw [run_bind_of_ok hscalar, run_bind_of_ok (run_setProgress i _ _),
        run_bind_of_ok (run_setAtOnce _ _), run_pure, Construction.withProgress_withProgress]
      rfl

theorem run_make_cell {cell : Cell} (untouched : c.stage i = .untouched)
    (waits : c.atOnce = false)
    (collection : emptyCell? c.rules.dialect (c.graph.node i).tag = some cell) :
    (make (fuel + 1) i false).run c = .ok (.ref i, c.enqueue i cell) := by
  unfold make makeWith
  have hstage : c.progress.getD i .untouched = .untouched := untouched
  rw [run_bind_of_ok (run_get c), hstage]
  have hfresh : (fresh (make fuel) i).run (c.withProgress i (.started none)) =
      .ok (.ref i, { (c.withProgress i (.started none)).withCell i cell with
        queue := c.queue ++ [i] }) := by
    unfold fresh
    rw [run_bind_of_ok (run_get _)]
    have hcell : emptyCell? (c.withProgress i (.started none)).rules.dialect
        ((c.withProgress i (.started none)).graph.node i).tag = some cell := collection
    rw [hcell]
    unfold start
    rw [run_bind_of_ok (run_setCell i cell _), run_bind_of_ok (run_get _)]
    have hwaits : ((c.withProgress i (.started none)).withCell i cell).atOnce = false := waits
    dsimp only
    rw [if_neg (by rw [hwaits]; simp)]
    rfl
  change (setProgress i (.started none) >>= fun _ => fresh (make fuel) i >>= fun v =>
    setProgress i (.finished v) >>= fun _ => pure v).run c = _
  rw [run_bind_of_ok (run_setProgress i _ c), run_bind_of_ok hfresh,
    run_bind_of_ok (run_setProgress i _ _), run_pure]
  unfold Construction.enqueue Construction.withProgress Construction.withCell
  simp only [Array.setIfInBounds_setIfInBounds]

/-- The ways in which the making of a node can go. -/
inductive Makes (terms : Terms) (c : Construction) (i : NodeId) :
    Except LoadError (Value × Construction) → Prop
  | known {v : Value} (stage : c.stage i = .finished v) : Makes terms c i (.ok (v, c))
  | read {x : Scalar} (untouched : c.stage i = .untouched)
      (denotes : c.graph.Denotes terms i x) :
      Makes terms c i (.ok (.scalar x, c.learn i x))
  | unread {e : LoadError} (untouched : c.stage i = .untouched)
      (fails : scalar (.classic terms .allowed) c.graph i = .error e) :
      Makes terms c i (.error e)
  | waits {cell : Cell} (untouched : c.stage i = .untouched)
      (collection : emptyCell? .classic (c.graph.node i).tag = some cell) :
      Makes terms c i (.ok (.ref i, c.enqueue i cell))

variable {k : Course} {p q : Duplicates}

theorem run_make_of_denotes {x : Scalar} (h : c.Settled k p) (untouched : c.stage i = .untouched)
    (denotes : c.graph.Denotes k.terms i x) :
    (make (fuel + 1) i false).run c = .ok (.scalar x, c.learn i x) := by
  have hcell := emptyCell?_of_mem (d := .classic) (tag_mem_of_scalar_ok denotes)
  rw [run_make_scalar untouched ((h.emptyCell?_eq _).trans hcell), h.scalar_eq]
  have hscalar : scalar (.classic k.terms .allowed) c.graph i = .ok x := denotes
  rw [hscalar]
  rfl

theorem run_make_of_cell {cell : Cell} (h : c.Settled k p) (untouched : c.stage i = .untouched)
    (collection : emptyCell? .classic (c.graph.node i).tag = some cell) :
    (make (fuel + 1) i false).run c = .ok (.ref i, c.enqueue i cell) :=
  run_make_cell untouched h.waits ((h.emptyCell?_eq _).trans collection)

theorem makes (h : c.Settled k p) (fuel : Nat) (i : NodeId) :
    Makes k.terms c i ((make (fuel + 1) i false).run c) := by
  have untouched_case (untouched : c.stage i = .untouched) :
      Makes k.terms c i ((make (fuel + 1) i false).run c) := by
    cases hcell : emptyCell? .classic (c.graph.node i).tag with
    | some cell =>
      rw [run_make_of_cell h untouched hcell]
      exact .waits untouched hcell
    | none =>
      rw [run_make_scalar untouched ((h.emptyCell?_eq _).trans hcell), h.scalar_eq]
      cases hscalar : scalar (.classic k.terms .allowed) c.graph i with
      | error e => exact .unread untouched hscalar
      | ok x => exact .read untouched hscalar
  rcases h.stage i with huntouched | ⟨hstage, -⟩ | ⟨x, hstage, -⟩
  · exact untouched_case huntouched
  · rw [run_make_of_finished hstage]
    exact .known hstage
  · rw [run_make_of_finished hstage]
    exact .known hstage

/-- A node that one of two runs makes, the other one makes as well. -/
theorem abreast_make {refusal : LoadError → Prop} {s l : Construction} (fuel : Nat)
    (node : k.node i) (h : Abreast k p q s l) :
    Follows (Abreast k p q) refusal (make (fuel + 1) i false) (make (fuel + 1) i false) s l := by
  intro v s' hrun
  refine .inl ?_
  rcases h.stage i with hsame | ⟨huntouched, x, hx, hdenotes, hahead⟩ |
    ⟨huntouched, x, hx, hdenotes, hahead⟩
  · have hs := makes h.left fuel i
    rw [hrun] at hs
    cases hs with
    | known hstage =>
      rw [hsame] at hstage
      exact ⟨l, run_make_of_finished hstage, h⟩
    | read huntouched hdenotes =>
      rw [hsame] at huntouched
      rename_i x
      have hl : l.graph.Denotes k.terms i x := by rw [← h.graph]; exact hdenotes
      exact ⟨_, run_make_of_denotes h.right huntouched hl, h.learn_both hdenotes⟩
    | waits huntouched hcell =>
      rw [hsame] at huntouched
      rename_i cell
      have hl : emptyCell? .classic (l.graph.node i).tag = some cell := by
        rw [← h.graph, hcell]
      exact ⟨_, run_make_of_cell h.right huntouched hl, h.enqueue_both node hcell⟩
  · rw [run_make_of_finished hx] at hrun
    cases hrun
    rw [h.graph] at hdenotes hahead
    exact ⟨_, run_make_of_denotes h.right huntouched hdenotes,
      h.learn_right huntouched hdenotes hahead⟩
  · rw [← h.graph] at hdenotes hahead
    rw [run_make_of_denotes h.left huntouched hdenotes] at hrun
    cases hrun
    exact ⟨l, run_make_of_finished hx,
      (h.symm.learn_right huntouched hdenotes hahead).symm⟩

end Build

end YamlCheck.Yaml
