import YamlCheck.Proofs.Yaml.Growth

/-!
# Accepting under either policy

With repeated keys refused, the classic dialect builds the keys of a mapping before it replaces
the merge keys.  That makes no difference as long as those keys denote the same scalars afterwards.
They may not if a key is a mapping that stands for its plain value, since the key of that value
becomes an ordinary one once a merge key names its mapping.
-/

namespace YamlCheck.Yaml

/-! ## Keys read in advance -/

namespace Construction

/-- Whether one state comes from another by reading scalars among some nodes. -/
inductive Learns (terms : Terms) (among : NodeId → Prop) (c : Construction) :
    Construction → Prop
  | refl : Learns terms among c c
  | read {c' : Construction} {i : NodeId} {x : Scalar} (first : Learns terms among c c')
      (untouched : c'.stage i = .untouched) (denotes : c'.graph.Denotes terms i x)
      (mem : among i) : Learns terms among c (c'.learn i x)

variable {terms : Terms} {among : NodeId → Prop} {c c₁ c₂ : Construction}

theorem Learns.graph (h : Learns terms among c c₁) : c₁.graph = c.graph := by
  induction h with
  | refl => rfl
  | read _ _ _ _ ih => exact ih

theorem Learns.trans (h : Learns terms among c c₁) (h' : Learns terms among c₁ c₂) :
    Learns terms among c c₂ := by
  induction h' with
  | refl => exact h
  | read _ untouched denotes mem ih => exact .read ih untouched denotes mem

theorem Learns.mono {among' : NodeId → Prop} (h : Learns terms among c c₁)
    (sub : ∀ i, among i → among' i) : Learns terms among' c c₁ := by
  induction h with
  | refl => exact .refl
  | read _ untouched denotes mem ih => exact .read ih untouched denotes (sub _ mem)

end Construction

/-- A run stays abreast of another one while it reads ahead. -/
theorem Abreast.learns {k : Course} {p q : Duplicates} {among : NodeId → Prop}
    {s s' l : Construction} (h : Abreast k p q s l)
    (learns : Construction.Learns k.terms among s s')
    (ahead : ∀ i x, among i → s.graph.Denotes k.terms i x → k.ahead s.graph i) :
    Abreast k p q s' l := by
  induction learns with
  | refl => exact h
  | read first untouched denotes mem ih =>
    refine (ih.symm.learn_right untouched denotes ?_).symm
    rw [first.graph] at denotes ⊢
    exact ahead _ _ mem denotes

/-- How a repeated key ends a construction: with a complaint, unless the key cannot be shown. -/
def repeatedKey (around key : Mark) (x : Scalar) : LoadError :=
  match x.display with
  | .ok shown => .complaint .constructing {
      context := some .mappingValue, contextMark := some around
      problem := some (.repeatedKey shown), problemMark := some key }
  | .error e => e

namespace Build

open Construction

variable {k : Course} {p : Duplicates} {c c' : Construction} {i : NodeId} {n : Nat}

theorem learns_make {v : Value} (h : c.Settled k p)
    (scalar : emptyCell? .classic (c.graph.node i).tag = none)
    (run : (make (n + 1) i false).run c = .ok (v, c')) :
    Learns k.terms (fun j => j = i) c c' := by
  have hmakes := makes h n i
  rw [run] at hmakes
  cases hmakes with
  | known _ => exact .refl
  | read huntouched hdenotes => exact .read .refl huntouched hdenotes rfl
  | waits _ hcell =>
    rw [scalar] at hcell
    cases hcell

theorem run_refuseRepeatedKeys (make : Builder) (i : NodeId) (c : Construction) :
    (refuseRepeatedKeys make i).run c =
      (refuseRepeatedKeys.loop make (c.graph.node i).mark [] (c.graph.entries i)).run c := rfl

theorem run_complainOf_bind {α β : Type} (around key : Mark) (x : Scalar) (f : α → Build β) :
    (complainOf around x key >>= f).run c = .error (repeatedKey around key x) := by
  refine run_bind_of_error ?_
  unfold complainOf repeatedKey
  cases x.display with
  | ok shown => rfl
  | error e => rfl

section RefuseLoop

variable {make : Builder} {around : Mark} {seen : List Scalar} {e : Entry} {rest : List Entry}

theorem run_refuseLoop_merge (merge : c.graph.isMerge e = true) :
    (refuseRepeatedKeys.loop make around seen (e :: rest)).run c =
      (refuseRepeatedKeys.loop make around seen rest).run c := by
  have htag : ((c.graph.node e.key).tag == Tag.merge) = true := merge
  rw [refuseRepeatedKeys.loop, run_bind_of_ok (run_node e.key c)]
  simp only [htag, if_true]

theorem run_refuseLoop_scalar {x : Scalar} {c₁ : Construction}
    (ordinary : c.graph.isMerge e = false) (made : (make e.key false).run c = .ok (.scalar x, c₁)) :
    (refuseRepeatedKeys.loop make around seen (e :: rest)).run c =
      if seen.any fun t => t.type == x.type && t.same x then
        .error (repeatedKey around (c.graph.node e.key).mark x)
      else (refuseRepeatedKeys.loop make around (x :: seen) rest).run c₁ := by
  have htag : ((c.graph.node e.key).tag == Tag.merge) = false := ordinary
  rw [refuseRepeatedKeys.loop, run_bind_of_ok (run_node e.key c)]
  simp only [htag]
  rw [if_neg (by simp), run_bind_of_ok made]
  by_cases hany : seen.any fun t => t.type == x.type && t.same x
  · simp only [hany, if_true]
    exact run_complainOf_bind _ _ x _
  · simp only [hany]
    rfl

theorem run_refuseLoop_error {err : LoadError} (ordinary : c.graph.isMerge e = false)
    (made : (make e.key false).run c = .error err) :
    (refuseRepeatedKeys.loop make around seen (e :: rest)).run c = .error err := by
  have htag : ((c.graph.node e.key).tag == Tag.merge) = false := ordinary
  rw [refuseRepeatedKeys.loop, run_bind_of_ok (run_node e.key c)]
  simp only [htag]
  rw [if_neg (by simp), run_bind_of_error made]

/-- A round of the search that ends well makes an ordinary key and goes on. -/
theorem refuseLoop_ok (ordinary : c.graph.isMerge e = false)
    (run : (refuseRepeatedKeys.loop make around seen (e :: rest)).run c = .ok ((), c')) :
    ∃ v c₁ seen', (make e.key false).run c = .ok (v, c₁) ∧
      (refuseRepeatedKeys.loop make around seen' rest).run c₁ = .ok ((), c') := by
  have htag : ((c.graph.node e.key).tag == Tag.merge) = false := ordinary
  have hround := run
  rw [refuseRepeatedKeys.loop, run_bind_of_ok (run_node e.key c)] at hround
  simp only [htag] at hround
  rw [if_neg (by simp)] at hround
  obtain ⟨v, c₁, hkey, hround⟩ := run_bind_ok hround
  cases v with
  | ref j => exact ⟨.ref j, c₁, seen, hkey, hround⟩
  | tuple items => exact ⟨.tuple items, c₁, seen, hkey, hround⟩
  | scalar x =>
    rw [run_refuseLoop_scalar ordinary hkey] at run
    split at run
    · cases run
    · exact ⟨.scalar x, c₁, x :: seen, hkey, run⟩

end RefuseLoop

def OrdinaryKey (g : Graph) (es : List Entry) (i : NodeId) : Prop :=
  ∃ e ∈ es, g.isMerge e = false ∧ e.key = i

theorem OrdinaryKey.tail {g : Graph} {e : Entry} {rest : List Entry} {j : NodeId}
    (h : OrdinaryKey g rest j) : OrdinaryKey g (e :: rest) j := by
  obtain ⟨e', he', hkey⟩ := h
  exact ⟨e', by simp [he'], hkey⟩

/-- Looking for repeated keys makes the ordinary keys, and does nothing else if they all denote
scalars. -/
theorem grows_refuseLoop {around : Mark} {es : List Entry} {seen : List Scalar}
    (h : c.Settled k p) (parts : ∀ e ∈ es, k.node e.key)
    (run : (refuseRepeatedKeys.loop (make (n + 1)) around seen es).run c = .ok ((), c')) :
    Grows k p c c' ∧ (∀ e ∈ es, c.graph.isMerge e = false → c'.Made k e.key) ∧
      ((∀ e ∈ es, c.graph.isMerge e = false →
        emptyCell? .classic (c.graph.node e.key).tag = none) →
        Learns k.terms (OrdinaryKey c.graph es) c c') := by
  induction es generalizing seen c with
  | nil =>
    cases run
    exact ⟨.refl h, by simp, fun _ => .refl⟩
  | cons e rest ih =>
    have hrest : ∀ e' ∈ rest, k.node e'.key := fun e' he' => parts e' (by simp [he'])
    by_cases hmerge : c.graph.isMerge e
    · rw [run_refuseLoop_merge hmerge] at run
      obtain ⟨hgrows, hmade, hlearns⟩ := ih h hrest run
      refine ⟨hgrows, fun e' he' hordinary => ?_, fun scalars => ?_⟩
      · rcases List.mem_cons.mp he' with rfl | he'
        · rw [hordinary] at hmerge
          cases hmerge
        · exact hmade e' he' hordinary
      · exact (hlearns fun e he => scalars e (by simp [he])).mono fun j hj => hj.tail
    · have hordinary : c.graph.isMerge e = false := by simpa using hmerge
      obtain ⟨v, c₁, seen', hkey, hloop⟩ := refuseLoop_ok hordinary run
      obtain ⟨hgrows₁, hmade₁⟩ := grows_make h (parts e (by simp)) hkey
      obtain ⟨hgrows, hmade, hlearns⟩ := ih hgrows₁.settled hrest hloop
      rw [hgrows₁.graph] at hmade hlearns
      refine ⟨hgrows₁.trans hgrows, fun e' he' hordinary' => ?_, fun scalars => ?_⟩
      · rcases List.mem_cons.mp he' with rfl | he'
        · exact hgrows.made hmade₁.made
        · exact hmade e' he' hordinary'
      · have hfirst := learns_make h (scalars e (by simp) hordinary) hkey
        have hothers := hlearns fun e he => scalars e (by simp [he])
        exact (hfirst.mono fun j hj => ⟨e, by simp, hordinary, hj.symm⟩).trans
          (hothers.mono fun j hj => hj.tail)

/-! ## Mappings -/

theorem run_mapping_allowed {make : Builder} (h : c.Settled k .allowed)
    (mapping : (c.graph.node i).content.kind = .mapping) :
    (Build.mapping make i).run c = (classicMapping make i).run c := by
  unfold Build.mapping
  rw [run_bind_of_ok (run_get c), run_bind_of_ok (run_node i c)]
  simp only [mapping, h.rules]
  rfl

theorem run_mapping_refused {make : Builder} (h : c.Settled k .refused)
    (mapping : (c.graph.node i).content.kind = .mapping) :
    (Build.mapping make i).run c =
      (refuseRepeatedKeys make i >>= fun _ => classicMapping make i).run c := by
  unfold Build.mapping
  rw [run_bind_of_ok (run_get c), run_bind_of_ok (run_node i c)]
  simp only [mapping, h.rules]
  rfl

theorem kind_of_mapping_ok {make : Builder} {es : List (Value × Value)}
    (run : (Build.mapping make i).run c = .ok (es, c')) :
    (c.graph.node i).content.kind = .mapping := by
  by_cases hkind : (c.graph.node i).content.kind = .mapping
  · exact hkind
  · unfold Build.mapping at run
    rw [run_bind_of_ok (run_get c), run_bind_of_ok (run_node i c)] at run
    have hne : ((c.graph.node i).content.kind != .mapping) = true := by simp [hkind]
    simp only [hne, if_true] at run
    obtain ⟨_, _, hthrow, -⟩ := run_bind_ok run
    cases hthrow

theorem run_classicMapping_ok {make : Builder} {es : List (Value × Value)}
    (run : (classicMapping make i).run c = .ok (es, c')) :
    ∃ g, (Merging.replace c.rules i).run c.graph = .ok ((), g) ∧
      (classicEntries make (g.node i).mark [] (g.entries i)).run (c.withGraph g) =
        .ok (es, c') := by
  unfold classicMapping at run
  obtain ⟨⟨⟩, c₁, hreplace, run⟩ := run_bind_ok run
  obtain ⟨g, hg, rfl⟩ := run_replaceMerges_ok hreplace
  exact ⟨g, hg, run⟩

/-- A mapping that is filled with repeated keys allowed has its merge keys replaced first. -/
theorem mapping_allowed_ok {make : Builder} {es : List (Value × Value)}
    (h : c.Settled k .allowed) (run : (mapping make i).run c = .ok (es, c')) :
    (c.graph.node i).content.kind = .mapping ∧
      ∃ g, (Merging.replace (.classic k.terms .allowed) i).run c.graph = .ok ((), g) ∧
        (classicEntries make (g.node i).mark [] (g.entries i)).run (c.withGraph g) =
          .ok (es, c') := by
  have hkind := kind_of_mapping_ok run
  rw [run_mapping_allowed h hkind] at run
  obtain ⟨g, hreplace, run⟩ := run_classicMapping_ok run
  rw [h.rules] at hreplace
  exact ⟨hkind, g, hreplace, run⟩

theorem run_classicMapping {make : Builder} {g : Graph}
    (replaced : (Merging.replace c.rules i).run c.graph = .ok ((), g)) :
    (classicMapping make i).run c =
      (classicEntries make (g.node i).mark [] (g.entries i)).run (c.withGraph g) := by
  unfold classicMapping
  rw [run_bind_of_ok (run_replaceMerges replaced)]
  rfl

end Build

/-! ## Merge keys between the reading of a key and its use -/

namespace Graph

/-- Whether some key is a mapping that stands for its plain value. -/
def HasMappingKey (g : Graph) : Prop :=
  ∃ i, ∃ e ∈ g.entries i, (g.node e.key).content.kind = .mapping ∧
    Build.emptyCell? .classic (g.node e.key).tag = none

/-- Whether a key might denote another scalar once the merge keys of its mapping are replaced:
some key is a mapping that stands for its plain value, and some merge key names a mapping that has
a plain value. -/
def UnsettledKeys (g : Graph) : Prop := g.HasMappingKey ∧ ¬g.MergesNoValueKey

theorem Flattens.mem_scalarTags {brought : Entry → Prop} {g g' : Graph} {i : NodeId}
    (h : Flattens brought g g') (mem : (g.node i).tag ∈ Build.scalarTags) :
    (g'.node i).tag ∈ Build.scalarTags := by
  rcases h.tag i with heq | ⟨hvalue, -⟩
  · rw [heq]
    exact mem
  · exact (Build.ne_value_of_mem mem hvalue).elim

/-- If some key is a mapping that stands for its plain value, one has been so from the first. -/
theorem Flattens.hasMappingKey {g₀ g : Graph} {i : NodeId} {e : Entry}
    (h : Flattens g₀.Brought g₀ g) (mem : e ∈ g.entries i)
    (mapping : (g.node e.key).content.kind = .mapping)
    (scalar : (g.node e.key).tag ∈ Build.scalarTags) : g₀.HasMappingKey := by
  have hmapping := (h.kind e.key).symm.trans mapping
  have hcell : Build.emptyCell? .classic (g₀.node e.key).tag = none := by
    rw [← h.emptyCell?_eq]
    exact Build.emptyCell?_of_mem scalar
  rcases h.entries i e mem with hmem | ⟨j, -, hmem⟩
  · exact ⟨i, e, hmem, hmapping, hcell⟩
  · exact ⟨j, e, hmem, hmapping, hcell⟩

end Graph

/-- A construction is as good over a flattened graph if that denotes what is finished already. -/
theorem Construction.Settled.withGraph {k : Course} {p : Duplicates} {c : Construction} {g : Graph}
    {brought : Entry → Prop} (h : c.Settled k p) (graph : k.graph g)
    (flat : Graph.Flattens brought c.graph g)
    (finished : ∀ i x, k.finished c.graph i x → k.finished g i x) :
    (c.withGraph g).Settled k p where
  rules := h.rules
  waits := h.waits
  room := by
    have hsize := flat.size
    have hroom := h.room
    change g.nodes.size ≤ c.progress.size
    omega
  graph := graph
  waiting := h.waiting
  stage j := by
    rcases h.stage j with huntouched | ⟨hstage, cell, hcell⟩ | ⟨x, hstage, htag, hx⟩
    · exact .inl huntouched
    · exact .inr (.inl ⟨hstage, cell, (flat.emptyCell?_eq j).trans hcell⟩)
    · exact .inr (.inr ⟨x, hstage, flat.mem_scalarTags htag, finished j x hx⟩)

/-- A construction whose graph loses its merge keys on the way.  Where merged mappings have plain
values, only scalars with a text of their own may be read ahead. -/
def Course.merging (terms : Terms) (g₀ : Graph) : Course where
  terms := terms
  graph := g₀.Edited
  node _ := True
  finished _ _ _ := True
  ahead g i := (g.node i).content.kind = .scalar ∨ g₀.MergesNoValueKey
  below _ _ _ := trivial
  read _ _ := trivial

namespace Course.merging

variable {terms : Terms} {g₀ g : Graph} {p q : Duplicates} {s l c : Construction} {i : NodeId}

theorem settled_withGraph {places : NodeId → Prop} (h : c.Settled (merging terms g₀) p)
    (edits : Graph.Edits g₀ places c.graph g) : (c.withGraph g).Settled (merging terms g₀) p :=
  h.withGraph (Graph.Edited.edits h.graph edits) (.of_edits edits) fun _ _ finished => finished

theorem ahead_withGraph {j : NodeId} (flat : Graph.Flattens g₀.Brought s.graph g)
    (texts : g₀.MergesNoValueKey → Graph.SameTexts s.graph g)
    (h : Ahead (merging terms g₀) s l j) :
    Ahead (merging terms g₀) (s.withGraph g) (l.withGraph g) j := by
  obtain ⟨huntouched, x, hx, hdenotes, hahead⟩ := h
  refine ⟨huntouched, x, hx, ?_, ?_⟩
  · rcases hahead with hscalar | hmerges
    · exact Build.scalar_of_flattens rfl flat hscalar hdenotes
    · exact (Build.scalar_same (texts hmerges) rfl j).trans hdenotes
  · exact hahead.imp (fun hscalar => (flat.kind j).trans hscalar) id

/-- Two runs stay abreast when the merge keys of a mapping without a plain value are replaced. -/
theorem abreast_withGraph {r : Rules} (h : Abreast (merging terms g₀) p q s l)
    (mapping : (s.graph.node i).content.kind = .mapping)
    (own : ∀ e ∈ s.graph.entries i, (s.graph.node e.key).tag ≠ Tag.value)
    (replaced : (Merging.replace r i).run s.graph = .ok ((), g)) :
    Abreast (merging terms g₀) p q (s.withGraph g) (l.withGraph g) := by
  have hedits := Merging.replace_edits h.left.graph mapping replaced
  have hflat := Graph.Flattens.of_edits hedits
  have htexts : g₀.MergesNoValueKey → Graph.SameTexts s.graph g := fun merges =>
    .of_edits merges (Graph.Edited.flat h.left.graph) own hedits
  refine ⟨settled_withGraph h.left hedits,
    settled_withGraph h.right (by rw [← h.graph]; exact hedits), rfl, h.cells, h.queue, h.size,
    fun j => ?_⟩
  rcases h.stage j with hsame | hleft | hright
  · exact .inl hsame
  · exact .inr (.inl (ahead_withGraph hflat htexts hleft))
  · rw [h.graph] at hflat htexts
    exact .inr (.inr (ahead_withGraph hflat htexts hright))

/-- A key that is read before the merge keys of its mapping are replaced and denotes a scalar has
a text of its own, or no plain value is lost. -/
theorem ahead_of_key (settledKeys : ¬g₀.UnsettledKeys) (flat : Graph.Flattens g₀.Brought g₀ g)
    {e : Entry} (mem : e ∈ g.entries i) {x : Scalar} (denotes : g.Denotes terms e.key x) :
    (merging terms g₀).ahead g e.key := by
  rcases Build.content_of_scalar_ok rfl denotes with hscalar | ⟨hmapping, -⟩
  · exact .inl hscalar
  by_cases hmerges : g₀.MergesNoValueKey
  · exact .inr hmerges
  have hkey := flat.hasMappingKey mem hmapping (Build.tag_mem_of_scalar_ok denotes)
  exact (settledKeys ⟨hkey, hmerges⟩).elim

theorem tag_ne_value_of_made {k : Course} (h : c.Settled k p) (made : c.Made k i) :
    (c.graph.node i).tag ≠ Tag.value := by
  rcases made with hbuilt | ⟨htag, -⟩
  · intro hvalue
    rcases h.stage i with huntouched | ⟨-, cell, hcell⟩ | ⟨x, hstage, -⟩
    · rw [hbuilt] at huntouched
      cases huntouched
    · rw [hvalue] at hcell
      cases hcell
    · rw [hbuilt] at hstage
      cases hstage
  · exact Build.ne_value_of_mem htag

theorem abreast_make (n : Nat) (i : NodeId) (s l : Construction) (_ : True)
    (h : Abreast (merging terms g₀) p q s l) :
    Follows (Abreast (merging terms g₀) p q) neverRefused (Build.make (n + 1) i false)
      (Build.make (n + 1) i false) s l :=
  Build.abreast_make n trivial h

/-- A mapping without repeated keys is filled in the same way whether or not they are looked
for. -/
theorem abreast_mapping (settledKeys : ¬g₀.UnsettledKeys) (n : Nat) (i : NodeId)
    (s l : Construction) (_ : True) (h : Abreast (merging terms g₀) .refused .allowed s l) :
    Follows (Abreast (merging terms g₀) .refused .allowed) neverRefused
      (Build.mapping (Build.make (n + 1)) i) (Build.mapping (Build.make (n + 1)) i) s l := by
  intro es s' run
  have hkind := Build.kind_of_mapping_ok run
  rw [Build.run_mapping_refused h.left hkind] at run
  obtain ⟨⟨⟩, s₁, hrefuse, run⟩ := run_bind_ok run
  rw [Build.run_refuseRepeatedKeys] at hrefuse
  obtain ⟨hgrows, hmade, hlearns⟩ := Build.grows_refuseLoop h.left (fun _ _ => trivial) hrefuse
  have hgraph := hgrows.graph
  obtain ⟨g, hreplace, run⟩ := Build.run_classicMapping_ok run
  rw [hgraph] at hreplace
  have hedits := Merging.replace_edits h.left.graph hkind hreplace
  have hflat := Graph.Flattens.of_edits hedits
  -- All keys turn out to be scalars, so nothing but scalars was read ahead.
  have hsettled : (s₁.withGraph g).Settled (merging terms g₀) .refused :=
    settled_withGraph hgrows.settled (by rw [hgraph]; exact hedits)
  obtain ⟨hfilled, hkeys⟩ := Build.grows_classicEntries hsettled
    (fun _ _ => ⟨trivial, trivial⟩) run
  have hscalars : ∀ e ∈ s.graph.entries i, s.graph.isMerge e = false →
      Build.emptyCell? .classic (s.graph.node e.key).tag = none := by
    intro e he hordinary
    have hread := (hkeys e (hflat.ordinary i e he hordinary)).1.1
    rw [hfilled.graph] at hread
    rw [← hflat.emptyCell?_eq]
    exact Build.emptyCell?_of_mem hread
  have hown : ∀ e ∈ s.graph.entries i, (s.graph.node e.key).tag ≠ Tag.value := by
    intro e he
    by_cases hmerge : s.graph.isMerge e
    · have htag : (s.graph.node e.key).tag = Tag.merge := by simpa [Graph.isMerge] using hmerge
      rw [htag]
      decide
    · have hne := tag_ne_value_of_made hgrows.settled (hmade e he (by simpa using hmerge))
      rw [hgraph] at hne
      exact hne
  have habreast : Abreast (merging terms g₀) .refused .allowed s₁ l := by
    refine h.learns (hlearns hscalars) fun j x hj hdenotes => ?_
    obtain ⟨e, he, -, rfl⟩ := hj
    exact ahead_of_key settledKeys (Graph.Edited.flat h.left.graph) he hdenotes
  have hnext : Abreast (merging terms g₀) .refused .allowed (s₁.withGraph g)
      (l.withGraph g) := by
    refine abreast_withGraph habreast (by rw [hgraph]; exact hkind) ?_
      (by rw [hgraph]; exact hreplace)
    rw [hgraph]
    exact hown
  have hreplace' : (Merging.replace l.rules i).run l.graph = .ok ((), g) := by
    have hrules : l.rules = s₁.rules.allowing := by
      rw [hgrows.settled.rules, h.right.rules]
      rfl
    rw [hrules, ← h.graph]
    exact Merging.replace_allowing hreplace
  rw [Build.run_mapping_allowed h.right (by rw [← h.graph]; exact hkind),
    Build.run_classicMapping hreplace']
  exact Build.follows_classicEntries (Abreast.tracks _ _ _) (abreast_make n)
    (fun _ _ => ⟨trivial, trivial⟩) [] hnext es s' run

end Course.merging

/-- What the classic dialect accepts with repeated keys refused it accepts with repeated keys
allowed, with the same value, unless a key might denote another scalar once merge keys are
replaced. -/
theorem Graph.document_allowing_of_classic {g : Graph} {terms : Terms} {d : Document}
    (settledKeys : ¬g.UnsettledKeys) (accepted : g.document (.classic terms .refused) = .ok d) :
    g.document (.classic terms .allowed) = .ok d := by
  have h : Abreast (.merging terms g) .refused .allowed
      (Construction.start (.classic terms .refused) g)
      (Construction.start (.classic terms .allowed) g) :=
    .start (Graph.Edited.refl g)
  have follows : Follows (Abreast (.merging terms g) .refused .allowed) neverRefused
      Build.document Build.document _ _ :=
    Build.follows_document (Abreast.tracks _ _ _) h trivial (Course.merging.abreast_make _)
      (Course.merging.abreast_mapping settledKeys _)
  obtain ⟨s, hrun⟩ := Graph.document_eq_ok.mp accepted
  obtain ⟨l, hl, -⟩ := follows.run_eq hrun
  exact Graph.document_eq_ok.mpr ⟨l, hl⟩

end YamlCheck.Yaml
