import YamlCheck.Yaml.Construction

/-!
# Two constructions side by side

The two policies for repeated keys run the same program over two states.  `Follows` says that
whatever one run brings to a good end the other one does as well, with the same value and states
that are still related, unless it is stopped by a refusal.  The rules below take a program apart
along its steps; those parts of a construction that only make nodes and set cells then follow
under any relation that `Tracks` them.
-/

namespace YamlCheck.Yaml

/-- Whether a node is a part of another: an item, a key or a value. -/
inductive Graph.Holds (g : Graph) (i : NodeId) : NodeId → Prop
  | item {items : List NodeId} {j : NodeId} (content : (g.node i).content = .sequence items)
      (mem : j ∈ items) : Graph.Holds g i j
  | key {e : Entry} (mem : e ∈ g.entries i) : Graph.Holds g i e.key
  | value {e : Entry} (mem : e ∈ g.entries i) : Graph.Holds g i e.value

theorem Content.exists_text {content : Content} (h : content.kind = .scalar) :
    ∃ text, content = .scalar text := by
  cases content with
  | scalar text => exact ⟨text, rfl⟩
  | sequence items => cases h
  | mapping es => cases h

theorem Graph.entries_of_content {g : Graph} {i : NodeId} {es : List Entry}
    (h : (g.node i).content = .mapping es) : g.entries i = es := by
  simp [Graph.entries, h]

theorem Graph.entries_of_kind {g : Graph} {i : NodeId}
    (h : (g.node i).content.kind ≠ .mapping) : g.entries i = [] := by
  unfold Graph.entries
  split
  · rename_i es hcontent
    simp [hcontent, Content.kind] at h
  · rfl

namespace Construction

def withCell (c : Construction) (i : NodeId) (cell : Cell) : Construction :=
  { c with cells := c.cells.setIfInBounds i (some cell) }

def withProgress (c : Construction) (i : NodeId) (p : Progress) : Construction :=
  { c with progress := c.progress.setIfInBounds i p }

def withGraph (c : Construction) (g : Graph) : Construction := { c with graph := g }

/-- How far a node is built. -/
def stage (c : Construction) (i : NodeId) : Progress := c.progress.getD i .untouched

theorem stage_withProgress (c : Construction) (i j : NodeId) (p : Progress) :
    (c.withProgress i p).stage j =
      if i = j ∧ i < c.progress.size then p else c.stage j := by
  unfold stage withProgress
  simp only [Array.getD_eq_getD_getElem?, Array.getElem?_setIfInBounds]
  by_cases hij : i = j
  · subst hij
    by_cases hi : i < c.progress.size
    · simp [hi]
    · simp [hi]
  · simp [hij]

end Construction

/-! ## Runs taken apart -/

section Runs

variable {σ α β : Type}

@[simp] theorem run_pure (v : α) (s : σ) :
    (pure v : StateT σ (Except LoadError) α).run s = .ok (v, s) := rfl

@[simp] theorem run_throw (e : LoadError) (s : σ) :
    (throw e : StateT σ (Except LoadError) α).run s = .error e := rfl

@[simp] theorem run_get (s : σ) :
    (get : StateT σ (Except LoadError) σ).run s = .ok (s, s) := rfl

@[simp] theorem run_set (c s : σ) :
    (set c : StateT σ (Except LoadError) PUnit).run s = .ok ((), c) := rfl

@[simp] theorem run_modify (f : σ → σ) (s : σ) :
    (modify f : StateT σ (Except LoadError) PUnit).run s = .ok ((), f s) := rfl

theorem run_bind (m : StateT σ (Except LoadError) α) (f : α → StateT σ (Except LoadError) β)
    (s : σ) : (m >>= f).run s = (m.run s).bind fun p => (f p.1).run p.2 := rfl

/-- A run of two steps that ends well has ended well after the first. -/
theorem run_bind_ok {m : StateT σ (Except LoadError) α} {f : α → StateT σ (Except LoadError) β}
    {s s' : σ} {b : β} (h : (m >>= f).run s = .ok (b, s')) :
    ∃ a t, m.run s = .ok (a, t) ∧ (f a).run t = .ok (b, s') := by
  rw [run_bind] at h
  cases hm : m.run s with
  | error e => simp [hm, Except.bind] at h
  | ok p =>
    rw [hm] at h
    exact ⟨p.1, p.2, rfl, h⟩

theorem run_bind_of_ok {m : StateT σ (Except LoadError) α}
    {f : α → StateT σ (Except LoadError) β} {s t : σ} {a : α} (h : m.run s = .ok (a, t)) :
    (m >>= f).run s = (f a).run t := by
  rw [run_bind, h]
  rfl

theorem run_bind_of_error {m : StateT σ (Except LoadError) α}
    {f : α → StateT σ (Except LoadError) β} {s : σ} {e : LoadError} (h : m.run s = .error e) :
    (m >>= f).run s = .error e := by
  rw [run_bind, h]
  rfl

end Runs

/-! ## One run after the other -/

/-- Whatever `m` brings to a good end from `s`, `m'` does from `l`, or it is refused. -/
def Follows {σ α : Type} (R : σ → σ → Prop) (refusal : LoadError → Prop)
    (m m' : StateT σ (Except LoadError) α) (s l : σ) : Prop :=
  ∀ v s', m.run s = .ok (v, s') →
    (∃ l', m'.run l = .ok (v, l') ∧ R s' l') ∨ ∃ e, m'.run l = .error e ∧ refusal e

namespace Follows

section Rules

variable {σ α β : Type} {R : σ → σ → Prop} {refusal : LoadError → Prop} {s l : σ}

protected theorem pure (v : α) (h : R s l) : Follows R refusal (pure v) (pure v) s l := by
  intro w s' hrun
  simp only [run_pure, Except.ok.injEq, Prod.mk.injEq] at hrun
  obtain ⟨rfl, rfl⟩ := hrun
  exact .inl ⟨l, rfl, h⟩

theorem throw_bind (e : LoadError) (f : α → StateT σ (Except LoadError) β)
    (m' : StateT σ (Except LoadError) β) : Follows R refusal (throw e >>= f) m' s l := by
  intro w s' hrun
  rw [run_bind_of_error (run_throw e s)] at hrun
  cases hrun

protected theorem throw (e : LoadError) (m' : StateT σ (Except LoadError) α) :
    Follows R refusal (throw e) m' s l := by
  intro w s' hrun
  cases hrun

protected theorem bind {m m' : StateT σ (Except LoadError) α}
    {f f' : α → StateT σ (Except LoadError) β} (first : Follows R refusal m m' s l)
    (next : ∀ v s' l', m.run s = .ok (v, s') → R s' l' → Follows R refusal (f v) (f' v) s' l') :
    Follows R refusal (m >>= f) (m' >>= f') s l := by
  intro w s'' hrun
  obtain ⟨v, s', hm, hf⟩ := run_bind_ok hrun
  rcases first v s' hm with ⟨l', hl', hR⟩ | ⟨e, he, hrefusal⟩
  · rw [run_bind_of_ok hl']
    exact next v s' l' hm hR w s'' hf
  · exact .inr ⟨e, run_bind_of_error he, hrefusal⟩

theorem step {m m' : StateT σ (Except LoadError) α} {f f' : α → StateT σ (Except LoadError) β}
    {v v' : α} {s' l' : σ} (hs : m.run s = .ok (v, s')) (hl : m'.run l = .ok (v', l'))
    (next : Follows R refusal (f v) (f' v') s' l') :
    Follows R refusal (m >>= f) (m' >>= f') s l := by
  intro w s'' hrun
  rw [run_bind_of_ok hs] at hrun
  rw [run_bind_of_ok hl]
  exact next w s'' hrun

/-- A check that changes nothing. -/
theorem check {m m' : StateT σ (Except LoadError) α}
    {f f' : α → StateT σ (Except LoadError) β}
    (passes : ∀ v s', m.run s = .ok (v, s') → s' = s ∧ m'.run l = .ok (v, l))
    (next : ∀ v, Follows R refusal (f v) (f' v) s l) :
    Follows R refusal (m >>= f) (m' >>= f') s l := by
  intro w s'' hrun
  obtain ⟨v, s', hm, hf⟩ := run_bind_ok hrun
  obtain ⟨rfl, hl⟩ := passes v s' hm
  rw [run_bind_of_ok hl]
  exact next v w s'' hf

protected theorem get {f f' : σ → StateT σ (Except LoadError) β}
    (next : Follows R refusal (f s) (f' l) s l) :
    Follows R refusal (get >>= f) (get >>= f') s l :=
  .step (run_get s) (run_get l) next

protected theorem set {c c' : σ} (h : R c c') : Follows R refusal (set c) (set c') s l := by
  intro w s' hrun
  simp only [run_set, Except.ok.injEq, Prod.mk.injEq] at hrun
  obtain ⟨-, rfl⟩ := hrun
  exact .inl ⟨c', rfl, h⟩

protected theorem modify {f f' : σ → σ} (h : R (f s) (f' l)) :
    Follows R refusal (modify f) (modify f') s l := by
  intro w s' hrun
  simp only [run_modify, Except.ok.injEq, Prod.mk.injEq] at hrun
  obtain ⟨-, rfl⟩ := hrun
  exact .inl ⟨f' l, rfl, h⟩

protected theorem mapM {f f' : NodeId → StateT σ (Except LoadError) α} {xs : List NodeId}
    (each : ∀ x ∈ xs, ∀ s l, R s l → Follows R refusal (f x) (f' x) s l) (h : R s l) :
    Follows R refusal (xs.mapM f) (xs.mapM f') s l := by
  induction xs generalizing s l with
  | nil =>
    rw [List.mapM_nil, List.mapM_nil]
    exact .pure _ h
  | cons x xs ih =>
    rw [List.mapM_cons, List.mapM_cons]
    refine .bind (each x (by simp) s l h) fun v s' l' _ h' => ?_
    refine .bind (ih (fun y hy => each y (by simp [hy])) h') fun vs s'' l'' _ h'' => ?_
    exact .pure _ h''

protected theorem forM {f f' : NodeId → StateT σ (Except LoadError) PUnit} {xs : List NodeId}
    (each : ∀ x ∈ xs, ∀ s l, R s l → Follows R refusal (f x) (f' x) s l) (h : R s l) :
    Follows R refusal (xs.forM f) (xs.forM f') s l := by
  induction xs generalizing s l with
  | nil => exact .pure _ h
  | cons x xs ih =>
    refine .bind (each x (by simp) s l h) fun v s' l' _ h' => ?_
    exact ih (fun y hy => each y (by simp [hy])) h'

end Rules

end Follows

namespace Build

@[simp] theorem run_lift {α : Type} (r : Except LoadError α) (s : Construction) :
    (lift r).run s = r.map fun v => (v, s) := by
  cases r <;> rfl

@[simp] theorem run_node (i : NodeId) (s : Construction) :
    (node i).run s = .ok (s.graph.node i, s) := rfl

@[simp] theorem run_setCell (i : NodeId) (cell : Cell) (s : Construction) :
    (setCell i cell).run s = .ok ((), s.withCell i cell) := rfl

@[simp] theorem run_setProgress (i : NodeId) (p : Progress) (s : Construction) :
    (setProgress i p).run s = .ok ((), s.withProgress i p) := rfl

@[simp] theorem run_setAtOnce (b : Bool) (s : Construction) :
    (setAtOnce b).run s = .ok ((), { s with atOnce := b }) := rfl

theorem refuseReference_ok {around mark : Mark} {k : Value} {u : Unit} {s s' l : Construction}
    (h : (refuseReference around mark k).run s = .ok (u, s')) :
    s' = s ∧ (refuseReference around mark k).run l = .ok (u, l) := by
  cases k with
  | ref j => cases h
  | scalar x =>
    cases h
    exact ⟨rfl, rfl⟩
  | tuple items =>
    cases h
    exact ⟨rfl, rfl⟩

theorem refuseUnhashable_ok {k : Value} {u : Unit} {s s' l : Construction}
    (h : (refuseUnhashable k).run s = .ok (u, s')) :
    s' = s ∧ (refuseUnhashable k).run l = .ok (u, l) := by
  unfold refuseUnhashable at h ⊢
  split
  · rename_i j hj
    simp only [hj] at h
    rw [run_bind_of_ok (run_get s)] at h
    cases h
  · rename_i hk
    rw [hk] at h
    cases h
    exact ⟨rfl, rfl⟩

theorem run_lift_ok {α : Type} {r : Except LoadError α} {s s' : Construction} {v : α}
    (h : (lift r).run s = .ok (v, s')) : r = .ok v ∧ s' = s := by
  rw [run_lift] at h
  cases r with
  | error e => simp [Except.map] at h
  | ok w =>
    simp only [Except.map, Except.ok.injEq, Prod.mk.injEq] at h
    exact ⟨by rw [h.1], h.2.symm⟩

theorem run_replaceMerges {c : Construction} {g : Graph} {i : NodeId}
    (replaced : (Merging.replace c.rules i).run c.graph = .ok ((), g)) :
    (replaceMerges i).run c = .ok ((), c.withGraph g) := by
  unfold replaceMerges
  rw [run_bind_of_ok (run_get c), run_bind_of_ok (a := ((), g)) (t := c)]
  · rfl
  · rw [run_lift, replaced]
    rfl

theorem run_replaceMerges_ok {c c' : Construction} {u : Unit} {i : NodeId}
    (run : (replaceMerges i).run c = .ok (u, c')) :
    ∃ g, (Merging.replace c.rules i).run c.graph = .ok ((), g) ∧ c' = c.withGraph g := by
  unfold replaceMerges at run
  rw [run_bind_of_ok (run_get c)] at run
  obtain ⟨⟨⟨⟩, g⟩, c₁, hlift, hset⟩ := run_bind_ok run
  obtain ⟨hreplace, rfl⟩ := run_lift_ok hlift
  cases hset
  exact ⟨g, hreplace, rfl⟩

/-! ## The parts that only make nodes and set cells -/

/-- What a relation has to say of two constructions for their common steps to keep it; `P` holds
of the nodes that the constructions come to. -/
structure Tracks (R : Construction → Construction → Prop) (P : NodeId → Prop) : Prop where
  graph : ∀ {s l}, R s l → s.graph = l.graph
  dialect : ∀ {s l}, R s l → s.rules.dialect = l.rules.dialect
  cells : ∀ {s l}, R s l → s.cells = l.cells
  queue : ∀ {s l}, R s l → s.queue = l.queue
  withCell : ∀ {s l} i cell, R s l → R (s.withCell i cell) (l.withCell i cell)
  emptied : ∀ {s l}, R s l → R { s with queue := [] } { l with queue := [] }
  waiting : ∀ {s l}, R s l → ∀ j ∈ s.queue, P j
  below : ∀ {s l i j}, R s l → P i → s.graph.Holds i j → P j

section Parts

variable {R : Construction → Construction → Prop} {refusal : LoadError → Prop}
variable {P : NodeId → Prop} {make make' : Builder} {s l : Construction} {i : NodeId}

theorem follows_node {α : Type} {f f' : Node → Build α} (tracks : Tracks R P) (h : R s l)
    (next : Follows R refusal (f (s.graph.node i)) (f' (s.graph.node i)) s l) :
    Follows R refusal (node i >>= f) (node i >>= f') s l := by
  have hl : (node i).run l = .ok (s.graph.node i, l) := by
    rw [run_node, ← tracks.graph h]
  exact .step (run_node i s) hl next

theorem follows_setCell (tracks : Tracks R P) (h : R s l) (cell : Cell) :
    Follows R refusal (setCell i cell) (setCell i cell) s l := by
  intro v s' hrun
  simp only [run_setCell, Except.ok.injEq, Prod.mk.injEq] at hrun
  obtain ⟨-, rfl⟩ := hrun
  exact .inl ⟨l.withCell i cell, rfl, tracks.withCell i cell h⟩

theorem singleEntry_ok {context : Context} {around : Mark} {e : Entry} {s' : Construction}
    (h : (singleEntry context around i).run s = .ok (e, s')) :
    (s.graph.node i).content = .mapping [e] ∧ s' = s := by
  unfold singleEntry at h
  rw [run_bind_of_ok (run_node i s)] at h
  split at h
  · rename_i e' hcontent
    simp only [run_pure, Except.ok.injEq, Prod.mk.injEq] at h
    obtain ⟨rfl, rfl⟩ := h
    exact ⟨hcontent, rfl⟩
  · cases h
  · cases h

theorem run_singleEntry {context : Context} {around : Mark} {e : Entry}
    (h : (s.graph.node i).content = .mapping [e]) :
    (singleEntry context around i).run s = .ok (e, s) := by
  unfold singleEntry
  rw [run_bind_of_ok (run_node i s), h]
  rfl

theorem pairItems_ok {context : Context} {p : Mark × List NodeId} {s' : Construction}
    (h : (pairItems context i).run s = .ok (p, s')) :
    p.1 = (s.graph.node i).mark ∧ (s.graph.node i).content = .sequence p.2 ∧ s' = s := by
  unfold pairItems at h
  rw [run_bind_of_ok (run_node i s)] at h
  split at h
  · rename_i items hcontent
    simp only [run_pure, Except.ok.injEq, Prod.mk.injEq] at h
    obtain ⟨rfl, rfl⟩ := h
    exact ⟨rfl, hcontent, rfl⟩
  · cases h

theorem run_pairItems {context : Context} {items : List NodeId}
    (h : (s.graph.node i).content = .sequence items) :
    (pairItems context i).run s = .ok (((s.graph.node i).mark, items), s) := by
  unfold pairItems
  rw [run_bind_of_ok (run_node i s), h]
  rfl

theorem follows_singleEntry {α : Type} {context : Context} {around : Mark}
    {f f' : Entry → Build α} (tracks : Tracks R P) (h : R s l) (hi : P i)
    (next : ∀ e, P e.key → P e.value → Follows R refusal (f e) (f' e) s l) :
    Follows R refusal (singleEntry context around i >>= f) (singleEntry context around i >>= f')
      s l := by
  intro v s' hrun
  obtain ⟨e, t, he, hf⟩ := run_bind_ok hrun
  obtain ⟨hcontent, rfl⟩ := singleEntry_ok he
  have hmem : e ∈ t.graph.entries i := by
    rw [Graph.entries_of_content hcontent]
    exact List.mem_singleton_self e
  have hl : (l.graph.node i).content = .mapping [e] := by rw [← tracks.graph h, hcontent]
  rw [run_bind_of_ok (run_singleEntry hl)]
  exact next e (tracks.below h hi (.key hmem)) (tracks.below h hi (.value hmem)) v s' hf

theorem follows_pairItems {α : Type} {context : Context} {f f' : Mark × List NodeId → Build α}
    (tracks : Tracks R P) (h : R s l)
    (next : ∀ items, (s.graph.node i).content = .sequence items →
      Follows R refusal (f ((s.graph.node i).mark, items)) (f' ((s.graph.node i).mark, items))
        s l) :
    Follows R refusal (pairItems context i >>= f) (pairItems context i >>= f') s l := by
  intro v s' hrun
  obtain ⟨⟨mark, items⟩, t, hp, hf⟩ := run_bind_ok hrun
  obtain ⟨hmark, hcontent, rfl⟩ := pairItems_ok hp
  have hl : (l.graph.node i).content = .sequence items := by rw [← tracks.graph h, hcontent]
  rw [run_bind_of_ok (run_pairItems hl), ← tracks.graph h]
  simp only at hmark
  subst hmark
  exact next items hcontent v s' hf

variable (tracks : Tracks R P)
variable (makes : ∀ i s l, P i → R s l → Follows R refusal (make i false) (make' i false) s l)

include tracks makes

theorem follows_sequence (h : R s l) (hi : P i) :
    Follows R refusal (sequence make i) (sequence make' i) s l := by
  refine follows_node tracks h ?_
  cases hcontent : (s.graph.node i).content with
  | scalar text => exact .throw _ _
  | mapping es => exact .throw _ _
  | sequence items =>
    refine .mapM (fun j hj s' l' h' => ?_) h
    exact makes j s' l' (tracks.below h hi (.item hcontent hj)) h'

theorem follows_classicEntries {around : Mark} {es : List Entry}
    (parts : ∀ e ∈ es, P e.key ∧ P e.value) (acc : List (Value × Value)) (h : R s l) :
    Follows R refusal (classicEntries make around acc es)
      (classicEntries make' around acc es) s l := by
  induction es generalizing acc s l with
  | nil => exact .pure _ h
  | cons e rest ih =>
    have he := parts e (by simp)
    unfold classicEntries
    refine .bind (makes e.key s l he.1 h) fun k s₁ l₁ _ h₁ => ?_
    by_cases hk : k.collection?.isSome
    · simp only [hk, if_true]
      exact follows_node tracks h₁ (.throw_bind _ _ _)
    · simp only [hk]
      exact .bind (makes e.value s₁ l₁ he.2 h₁) fun v s₂ l₂ _ h₂ =>
        ih (fun e he => parts e (by simp [he])) _ h₂

theorem follows_pairs {context : Context} {around : Mark} {items : List NodeId}
    (parts : ∀ j ∈ items, P j) (acc : List Value) (h : R s l) :
    Follows R refusal (fillPairs.loop make context i around acc items)
      (fillPairs.loop make' context i around acc items) s l := by
  induction items generalizing acc s l with
  | nil => exact .pure _ h
  | cons j rest ih =>
    unfold fillPairs.loop
    refine follows_singleEntry tracks h (parts j (by simp)) fun e hkey hvalue => ?_
    refine .bind (makes e.key s l hkey h) fun k s₁ l₁ _ h₁ => ?_
    refine .bind (makes e.value s₁ l₁ hvalue h₁) fun v s₂ l₂ _ h₂ => ?_
    refine .bind (follows_setCell tracks h₂ _) fun _ s₃ l₃ _ h₃ => ?_
    exact ih (fun j hj => parts j (by simp [hj])) _ h₃

theorem follows_fillPairs {context : Context} (h : R s l) (hi : P i) :
    Follows R refusal (fillPairs make context i) (fillPairs make' context i) s l := by
  unfold fillPairs
  refine follows_pairItems tracks h fun items hcontent => ?_
  have parts : ∀ j ∈ items, P j := fun j hj => tracks.below h hi (.item hcontent hj)
  exact follows_pairs tracks makes parts [] h

theorem follows_orderedPairs {around : Mark} {items : List NodeId} (parts : ∀ j ∈ items, P j)
    (acc : List (Value × Value)) (h : R s l) :
    Follows R refusal (fillOrderedMap.loop make i around acc items)
      (fillOrderedMap.loop make' i around acc items) s l := by
  induction items generalizing acc s l with
  | nil => exact .pure _ h
  | cons j rest ih =>
    unfold fillOrderedMap.loop
    refine follows_singleEntry tracks h (parts j (by simp)) fun e hkey hvalue => ?_
    refine .bind (makes e.key s l hkey h) fun k s₁ l₁ _ h₁ => ?_
    refine .check (fun _ _ => refuseUnhashable_ok) fun _ => ?_
    by_cases hrepeated : (Value.get? acc k).isSome
    · simp only [hrepeated, if_true]
      exact .throw_bind _ _ _
    · simp only [hrepeated]
      refine .bind (makes e.value s₁ l₁ hvalue h₁) fun v s₂ l₂ _ h₂ => ?_
      refine .bind (follows_setCell tracks h₂ _) fun _ s₃ l₃ _ h₃ => ?_
      exact ih (fun j hj => parts j (by simp [hj])) _ h₃

theorem follows_fillOrderedMap (h : R s l) (hi : P i) :
    Follows R refusal (fillOrderedMap make i) (fillOrderedMap make' i) s l := by
  unfold fillOrderedMap
  refine follows_pairItems tracks h fun items hcontent => ?_
  have parts : ∀ j ∈ items, P j := fun j hj => tracks.below h hi (.item hcontent hj)
  exact follows_orderedPairs tracks makes parts [] h

theorem follows_fill (h : R s l) (hi : P i)
    (filled : Follows R refusal (mapping make i) (mapping make' i) s l) :
    Follows R refusal (fill make i) (fill make' i) s l := by
  unfold fill
  refine follows_node tracks h (.get ?_)
  rw [← tracks.dialect h]
  have keeps : ∀ f : List (Value × Value) → Cell,
      Follows R refusal (mapping make i >>= fun es => setCell i (f es))
        (mapping make' i >>= fun es => setCell i (f es)) s l := fun f =>
    .bind filled fun es s₁ l₁ _ h₁ => follows_setCell tracks h₁ _
  by_cases hseq : (s.graph.node i).tag == Tag.seq
  · simp only [hseq, if_true]
    exact .bind (follows_sequence tracks makes h hi) fun v s₁ l₁ _ h₁ =>
      follows_setCell tracks h₁ _
  by_cases hmap : (s.graph.node i).tag == Tag.map
  · simp only [hseq, hmap, if_true]
    exact keeps .map
  by_cases hset : (s.graph.node i).tag == Tag.set
  · simp only [hseq, hmap, hset, if_true]
    exact keeps fun es => .set (es.map (·.1))
  by_cases hpairs : (s.graph.node i).tag == Tag.pairs
  · simp only [hseq, hmap, hset, hpairs, if_true]
    exact follows_fillPairs tracks makes h hi
  · simp only [hseq, hmap, hset, hpairs]
    by_cases hclassic : s.rules.dialect == .classic
    · simp only [hclassic, if_true]
      exact follows_fillPairs tracks makes h hi
    · simp only [hclassic]
      exact follows_fillOrderedMap tracks makes h hi

variable (maps : ∀ i s l, P i → R s l → Follows R refusal (mapping make i) (mapping make' i) s l)

include maps

theorem follows_fillQueue (fuel : Nat) (h : R s l) :
    Follows R refusal (fillQueue make fuel) (fillQueue make' fuel) s l := by
  induction fuel generalizing s l with
  | zero => exact .throw _ _
  | succ fuel ih =>
    unfold fillQueue
    refine .get ?_
    rw [← tracks.queue h]
    split
    · exact .pure _ h
    · refine .bind (.set (tracks.emptied h)) fun _ s₁ l₁ _ h₁ => ?_
      refine .bind (.forM (fun j hj s' l' h' => ?_) h₁) fun _ s₂ l₂ _ h₂ => ih h₂
      have hj := tracks.waiting h j hj
      exact follows_fill tracks makes h' hj (maps j s' l' hj h')

omit makes maps in
/-- A whole document follows if its nodes and its mappings do. -/
theorem follows_document (h : R s l) (root : P s.graph.root)
    (makes : ∀ i s' l', P i → R s' l' →
      Follows R refusal (Build.make (s.rules.limits.building + 1) i false)
        (Build.make (l.rules.limits.building + 1) i false) s' l')
    (maps : ∀ i s' l', P i → R s' l' →
      Follows R refusal (mapping (Build.make (s.rules.limits.building + 1)) i)
        (mapping (Build.make (l.rules.limits.building + 1)) i) s' l') :
    Follows R refusal document document s l := by
  unfold document
  refine .get ?_
  rw [← tracks.graph h]
  refine .bind (makes _ s l root h) fun v s₁ l₁ _ h₁ => ?_
  refine .bind (follows_fillQueue tracks makes maps _ h₁) fun _ s₂ l₂ _ h₂ => .get ?_
  rw [← tracks.cells h₂]
  exact .pure _ h₂

end Parts

end Build

namespace Graph

variable {g : Graph} {r : Rules}

theorem document_eq_ok {d : Document} :
    g.document r = .ok d ↔ ∃ s, Build.document.run (Construction.start r g) = .ok (d, s) := by
  unfold Graph.document
  cases Build.document.run (Construction.start r g) with
  | error e => simp [Except.map]
  | ok p =>
    obtain ⟨d', s⟩ := p
    simp [Except.map]

theorem document_eq_error {e : LoadError} :
    g.document r = .error e ↔ Build.document.run (Construction.start r g) = .error e := by
  unfold Graph.document
  cases Build.document.run (Construction.start r g) <;> simp [Except.map]

theorem exists_document (h : (g.document r).isOk = true) : ∃ d, g.document r = .ok d := by
  cases hdocument : g.document r with
  | error e =>
    rw [hdocument] at h
    cases h
  | ok d => exact ⟨d, rfl⟩

end Graph

end YamlCheck.Yaml
