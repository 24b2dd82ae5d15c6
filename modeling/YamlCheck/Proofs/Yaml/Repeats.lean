import YamlCheck.Proofs.Yaml.Policy

/-!
# Looking for repeated keys

In a document without merge keys and plain values the graph never changes, and every node denotes
the same scalar throughout.  So the search for repeated keys in a mapping finds exactly the keys
that denote what an earlier one does, and where it finds none it leaves the construction as if it
had not taken place, but for keys that are read already.
-/

namespace YamlCheck.Yaml

namespace Graph

/-- Whether no key merges another mapping or marks a plain value. -/
def OrdinaryKeys (g : Graph) : Prop :=
  ∀ i < g.nodes.size, ∀ e ∈ g.entries i,
    (g.node e.key).tag ≠ Tag.merge ∧ (g.node e.key).tag ≠ Tag.value

instance (g : Graph) : Decidable g.OrdinaryKeys :=
  inferInstanceAs (Decidable (∀ i < g.nodes.size, ∀ e ∈ g.entries i,
    (g.node e.key).tag ≠ Tag.merge ∧ (g.node e.key).tag ≠ Tag.value))

/-- The nodes of a document: the root and what is inside it. -/
inductive Reaches (g : Graph) : NodeId → Prop
  | root : Reaches g g.root
  | step {i j : NodeId} (outer : Reaches g i) (holds : g.Holds i j) : Reaches g j

/-- Whether two nodes denote one key: values of one type that are equal, or the very same one. -/
def SameKey (g : Graph) (terms : Terms) (i j : NodeId) : Prop :=
  ∃ x y, g.Denotes terms i x ∧ g.Denotes terms j y ∧ x.type = y.type ∧ x.same y = true

/-- Whether an entry of a mapping stands after another one with the same key. -/
def Repeats (g : Graph) (terms : Terms) (i : NodeId) (e : Entry) : Prop :=
  ∃ before after, g.entries i = before ++ e :: after ∧
    ∃ e' ∈ before, g.SameKey terms e'.key e.key

variable {g : Graph} {terms : Terms} {i j : NodeId} {e : Entry} {x y : Scalar}

theorem Repeats.kind (h : g.Repeats terms i e) : (g.node i).content.kind = .mapping := by
  obtain ⟨before, after, hsplit, -⟩ := h
  exact kind_of_mem_entries (e := e) (by simp [hsplit])

theorem Denotes.unique (hx : g.Denotes terms i x) (hy : g.Denotes terms i y) : x = y :=
  Except.ok.inj (hx.symm.trans hy)

theorem OrdinaryKeys.tag_ne (h : g.OrdinaryKeys) (mem : e ∈ g.entries i) :
    (g.node e.key).tag ≠ Tag.merge ∧ (g.node e.key).tag ≠ Tag.value :=
  h i (lt_size_of_kind (by rw [kind_of_mem_entries mem]; simp)) e mem

theorem OrdinaryKeys.isMerge (h : g.OrdinaryKeys) (mem : e ∈ g.entries i) :
    g.isMerge e = false := by
  have hne := (h.tag_ne mem).1
  simp [Graph.isMerge, hne]

theorem OrdinaryKeys.plainEntry? (h : g.OrdinaryKeys) (i : NodeId) : g.plainEntry? i = none := by
  unfold Graph.plainEntry?
  rw [List.find?_eq_none]
  intro e he
  have hne := (h.tag_ne he).2
  simp [isValueKey, hne]

/-- Without plain values only a scalar denotes one, so there is nothing inside. -/
theorem OrdinaryKeys.not_holds (h : g.OrdinaryKeys) (denotes : g.Denotes terms i x) :
    ¬g.Holds i j := by
  have hkind : (g.node i).content.kind = .scalar := by
    rcases Build.content_of_scalar_ok rfl denotes with hscalar | ⟨-, e, he⟩
    · exact hscalar
    · rw [h.plainEntry?] at he
      cases he
  have hentries : g.entries i = [] := entries_of_kind (by simp [hkind])
  intro holds
  cases holds with
  | item content _ => simp [content, Content.kind] at hkind
  | key mem => simp [hentries] at mem
  | value mem => simp [hentries] at mem

theorem foldl_settle_of_ne {es : List Entry}
    (h : ∀ e ∈ es, (g.node e.key).tag ≠ Tag.value) : es.foldl settleValueKey g = g := by
  induction es with
  | nil => rfl
  | cons e es ih =>
    rw [List.foldl_cons, settleValueKey_of_ne (h e (by simp))]
    exact ih fun e' he' => h e' (by simp [he'])

end Graph

namespace Merging

/-- In a mapping without merge keys and plain values there is nothing to replace. -/
theorem replace_of_ordinaryKeys {r : Rules} {g : Graph} {i : NodeId}
    (ordinary : ∀ e ∈ g.entries i, g.isMerge e = false)
    (settled : ∀ e ∈ g.entries i, (g.node e.key).tag ≠ Tag.value) :
    (replace r i).run g = .ok ((), g) := by
  have hpassed : (g.entries i).takeWhile (fun e => !g.isMerge e) = g.entries i := by
    rw [List.takeWhile_eq_self_iff]
    intro e he
    simp [ordinary e he]
  have hrest : (g.entries i).dropWhile (fun e => !g.isMerge e) = [] := by
    rw [List.dropWhile_eq_nil_iff]
    intro e he
    simp [ordinary e he]
  have hsettled : (g.entries i).foldl Graph.settleValueKey g = g :=
    Graph.foldl_settle_of_ne settled
  have hfrom : (replaceFrom r (r.limits.merging + 1) i 0 []).run g = .ok ([], g) := by
    unfold replaceFrom
    rw [run_bind_of_ok (run_get g)]
    unfold rounds replaceNext
    rw [run_bind_of_ok (run_get g), run_bind_of_ok (run_set _ g)]
    simp only [List.drop_zero, hpassed, hsettled, hrest]
    rfl
  unfold replace
  rw [run_bind_of_ok hfrom]
  rfl

theorem eq_of_replaced {r : Rules} {g g' : Graph} {i : NodeId}
    (ordinary : ∀ e ∈ g.entries i, g.isMerge e = false)
    (settled : ∀ e ∈ g.entries i, (g.node e.key).tag ≠ Tag.value)
    (replaced : (replace r i).run g = .ok ((), g')) : g' = g := by
  have hboth := replaced.symm.trans (replace_of_ordinaryKeys ordinary settled)
  cases hboth
  rfl

theorem replace_of_ordinary {r : Rules} {g : Graph} (h : g.OrdinaryKeys) (i : NodeId) :
    (replace r i).run g = .ok ((), g) :=
  replace_of_ordinaryKeys (fun _ he => h.isMerge he) fun _ he => (h.tag_ne he).2

theorem rounds_classic (terms : Terms) (p q : Duplicates) (inner : Replacer) (fuel : Nat) :
    rounds (.classic terms p) inner fuel = rounds (.classic terms q) inner fuel := by
  induction fuel with
  | zero => rfl
  | succ fuel ih =>
    funext i n merged
    unfold rounds
    rw [ih]
    rfl

/-- The classic dialect replaces merge keys alike under either policy. -/
theorem replaceFrom_classic (terms : Terms) (p q : Duplicates) (depth : Nat) :
    replaceFrom (.classic terms p) depth = replaceFrom (.classic terms q) depth := by
  induction depth with
  | zero => rfl
  | succ depth ih =>
    funext i n merged
    unfold replaceFrom
    rw [ih]
    simp only [rounds_classic terms p q]

theorem replace_classic (terms : Terms) (p q : Duplicates) (i : NodeId) :
    replace (.classic terms p) i = replace (.classic terms q) i := by
  unfold replace
  rw [replaceFrom_classic terms p q]
  rfl

end Merging

theorem Graph.not_denotes_of_merge {g : Graph} {terms : Terms} {e : Entry} {x : Scalar}
    (merge : g.isMerge e = true) : ¬g.Denotes terms e.key x := by
  intro denotes
  have htag : (g.node e.key).tag = Tag.merge := by simpa [Graph.isMerge] using merge
  have hmem := Build.tag_mem_of_scalar_ok denotes
  rw [htag] at hmem
  revert hmem
  decide

/-! ## The search -/

/-- Whether no entry of a list denotes the key of an earlier one, or of one in `before`. -/
def NoneRepeated (terms : Terms) (g : Graph) (before es : List Entry) : Prop :=
  ∀ b e a, es = b ++ e :: a → ¬∃ e' ∈ before ++ b, g.SameKey terms e'.key e.key

theorem NoneRepeated.cons {terms : Terms} {g : Graph} {before es : List Entry} {e : Entry}
    (first : ¬∃ e' ∈ before, g.SameKey terms e'.key e.key)
    (rest : NoneRepeated terms g (before ++ [e]) es) :
    NoneRepeated terms g before (e :: es) := by
  intro b e₁ a hsplit
  cases b with
  | nil =>
    rw [List.nil_append, List.cons.injEq] at hsplit
    rw [← hsplit.1, List.append_nil]
    exact first
  | cons e₂ b =>
    rw [List.cons_append, List.cons.injEq] at hsplit
    have hrest := rest b e₁ a hsplit.2
    rw [← hsplit.1]
    simpa using hrest

/-- Whether the scalars that have been seen are those that the keys of some entries denote. -/
def Noted (terms : Terms) (g : Graph) (before : List Entry) (seen : List Scalar) : Prop :=
  ∀ t, t ∈ seen ↔ ∃ e ∈ before, g.Denotes terms e.key t

section Noted

variable {terms : Terms} {g : Graph} {before : List Entry} {seen : List Scalar} {e : Entry}
  {x : Scalar}

theorem Noted.nil (terms : Terms) (g : Graph) : Noted terms g [] [] := by
  simp [Noted]

theorem Noted.cons (h : Noted terms g before seen) (hx : g.Denotes terms e.key x) :
    Noted terms g (before ++ [e]) (x :: seen) := by
  intro t
  rw [List.mem_cons, h t]
  constructor
  · rintro (rfl | ⟨e', he', ht⟩)
    · exact ⟨e, by simp, hx⟩
    · exact ⟨e', by simp [he'], ht⟩
  · rintro ⟨e', he', ht⟩
    rcases List.mem_append.mp he' with he' | he'
    · exact .inr ⟨e', he', ht⟩
    · rw [List.mem_singleton.mp he'] at ht
      exact .inl (ht.unique hx)

theorem Noted.skip (h : Noted terms g before seen) (merge : g.isMerge e = true) :
    Noted terms g (before ++ [e]) seen := by
  intro t
  rw [h t]
  constructor
  · rintro ⟨e', he', ht⟩
    exact ⟨e', by simp [he'], ht⟩
  · rintro ⟨e', he', ht⟩
    rcases List.mem_append.mp he' with he' | he'
    · exact ⟨e', he', ht⟩
    · rw [List.mem_singleton.mp he'] at ht
      exact (g.not_denotes_of_merge merge ht).elim

theorem Noted.any_iff (h : Noted terms g before seen) (hx : g.Denotes terms e.key x) :
    (seen.any fun t => t.type == x.type && t.same x) = true ↔
      ∃ e' ∈ before, g.SameKey terms e'.key e.key := by
  simp only [List.any_eq_true, Bool.and_eq_true, beq_iff_eq]
  constructor
  · rintro ⟨t, ht, htype, hsame⟩
    obtain ⟨e', he', hdenotes⟩ := (h t).mp ht
    exact ⟨e', he', t, x, hdenotes, hx, htype, hsame⟩
  · rintro ⟨e', he', t, y, ht, hy, htype, hsame⟩
    rw [hy.unique hx] at htype hsame
    exact ⟨t, (h t).mpr ⟨e', he', ht⟩, htype, hsame⟩

end Noted

/-- Whether what is finished in the course of a construction is what the graph still denotes. -/
def Course.Faithful (k : Course) : Prop :=
  ∀ {g i x}, k.finished g i x → g.Denotes k.terms i x

/-- The complaint about a key that marks a plain value. -/
def valueKey (key : Mark) : LoadError := Build.complaint (.unknownTag Tag.value) key

/-- Whether a node with the tag of no collection cannot be read, and for what error. -/
def Graph.Unread (g : Graph) (terms : Terms) (i : NodeId) (err : LoadError) : Prop :=
  Build.emptyCell? .classic (g.node i).tag = none ∧
    Build.scalar (.classic terms .allowed) g i = .error err

section Unread

variable {g : Graph} {terms : Terms} {i : NodeId} {err : LoadError} {x : Scalar}

theorem Graph.unread_of_value (value : (g.node i).tag = Tag.value) :
    g.Unread terms i (valueKey (g.node i).mark) := by
  constructor
  · rw [value]
    rfl
  · unfold Build.scalar
    simp only [value]
    rfl

theorem Graph.Unread.eq_valueKey (h : g.Unread terms i err)
    (value : (g.node i).tag = Tag.value) : err = valueKey (g.node i).mark :=
  Except.error.inj (h.2.symm.trans (unread_of_value value).2)

theorem Graph.Unread.not_denotes (h : g.Unread terms i err) : ¬g.Denotes terms i x := by
  intro denotes
  have hread := h.2.symm.trans denotes
  cases hread

theorem Graph.unread_or_denotes (scalar : Build.emptyCell? .classic (g.node i).tag = none) :
    (∃ err, g.Unread terms i err) ∨ ∃ x, g.Denotes terms i x := by
  cases hread : Build.scalar (.classic terms .allowed) g i with
  | error err => exact .inl ⟨err, scalar, hread⟩
  | ok x => exact .inr ⟨x, hread⟩

end Unread

theorem Abreast.withGraph_self {k : Course} {p q : Duplicates} {s l : Construction}
    (h : Abreast k p q s l) : Abreast k p q (s.withGraph s.graph) (l.withGraph s.graph) := by
  have hl : l.withGraph s.graph = l := by
    rw [h.graph]
    rfl
  rw [hl]
  exact h

namespace Build

open Construction

variable {k : Course} {p : Duplicates} {c : Construction} {g : Graph} {n : Nat}

theorem make_of_denotes {i : NodeId} {x : Scalar} (h : c.Settled k p)
    (faithful : ∀ y, k.finished c.graph i y → c.graph.Denotes k.terms i y)
    (denotes : c.graph.Denotes k.terms i x) :
    ∃ c', (make (n + 1) i false).run c = .ok (.scalar x, c') ∧ c'.Settled k p ∧
      Learns k.terms (fun j => j = i) c c' := by
  rcases h.stage i with huntouched | ⟨-, cell, hcell⟩ | ⟨y, hstage, -, hy⟩
  · exact ⟨c.learn i x, run_make_of_denotes h huntouched denotes, h.learn denotes,
      .read .refl huntouched denotes rfl⟩
  · rw [emptyCell?_of_mem (tag_mem_of_scalar_ok denotes)] at hcell
    cases hcell
  · have hxy : x = y := denotes.unique (faithful y hy)
    rw [← hxy] at hstage
    exact ⟨c, run_make_of_finished hstage, h, .refl⟩

theorem make_of_unread {i : NodeId} {err : LoadError} (h : c.Settled k p)
    (faithful : ∀ y, k.finished c.graph i y → c.graph.Denotes k.terms i y)
    (unread : c.graph.Unread k.terms i err) :
    (make (n + 1) i false).run c = .error err := by
  rcases h.stage i with huntouched | ⟨-, cell, hcell⟩ | ⟨y, -, -, hy⟩
  · rw [run_make_scalar huntouched ((h.emptyCell?_eq _).trans unread.1), h.scalar_eq, unread.2]
    rfl
  · rw [unread.1] at hcell
    cases hcell
  · exact (unread.not_denotes (faithful y hy)).elim

/-- The search for repeated keys among entries whose own keys have the tags of no collections: it
reads the keys and finds none repeated, or it complains about the first that is, or about one that
cannot be read. -/
theorem refuseLoop_outcome_or (around : Mark) {es before : List Entry} {seen : List Scalar}
    (h : c.Settled k p) (graph : c.graph = g)
    (faithful : ∀ e ∈ es, g.isMerge e = false → ∀ y, k.finished g e.key y →
      g.Denotes k.terms e.key y)
    (keys : ∀ e ∈ es, g.isMerge e = false →
      (∃ err, g.Unread k.terms e.key err) ∨ ∃ x, g.Denotes k.terms e.key x)
    (noted : Noted k.terms g before seen) :
    (∃ c', (refuseRepeatedKeys.loop (make (n + 1)) around seen es).run c = .ok ((), c') ∧
      Learns k.terms (OrdinaryKey g es) c c' ∧ NoneRepeated k.terms g before es ∧
      ∀ e ∈ es, g.isMerge e = false → ∃ x, g.Denotes k.terms e.key x) ∨
    (∃ b e a x, es = b ++ e :: a ∧ (∃ e' ∈ before ++ b, g.SameKey k.terms e'.key e.key) ∧
      g.Denotes k.terms e.key x ∧
      (refuseRepeatedKeys.loop (make (n + 1)) around seen es).run c =
        .error (repeatedKey around (g.node e.key).mark x)) ∨
    ∃ e ∈ es, g.isMerge e = false ∧ ∃ err, g.Unread k.terms e.key err ∧
      (refuseRepeatedKeys.loop (make (n + 1)) around seen es).run c = .error err := by
  induction es generalizing c before seen with
  | nil => exact .inl ⟨c, rfl, .refl, fun b e a hsplit => by simp at hsplit, by simp⟩
  | cons e rest ih =>
    have hfaithful : ∀ e ∈ rest, g.isMerge e = false → ∀ y, k.finished g e.key y →
        g.Denotes k.terms e.key y :=
      fun e he => faithful e (by simp [he])
    have hrest : ∀ e ∈ rest, g.isMerge e = false →
        (∃ err, g.Unread k.terms e.key err) ∨ ∃ x, g.Denotes k.terms e.key x :=
      fun e he => keys e (by simp [he])
    by_cases hmerge : g.isMerge e
    · rw [run_refuseLoop_merge (by rw [graph]; exact hmerge)]
      rcases ih h graph hfaithful hrest (noted.skip hmerge) with
        ⟨c', hrun, hlearns, hnone, hread⟩ | ⟨b, e₁, a, y, hsplit, hsame, hy, hrun⟩ |
        ⟨e₁, he₁, hordinary₁, hunread⟩
      · refine .inl ⟨c', hrun, hlearns.mono fun j hj => hj.tail, .cons ?_ hnone, ?_⟩
        · rintro ⟨e', -, x, y, -, hy, -⟩
          exact g.not_denotes_of_merge hmerge hy
        · intro e' he' hordinary
          rcases List.mem_cons.mp he' with rfl | he'
          · rw [hmerge] at hordinary
            cases hordinary
          · exact hread e' he' hordinary
      · exact .inr (.inl ⟨e :: b, e₁, a, y, by simp [hsplit], by simpa using hsame, hy, hrun⟩)
      · exact .inr (.inr ⟨e₁, by simp [he₁], hordinary₁, hunread⟩)
    have hordinary : g.isMerge e = false := by simpa using hmerge
    rcases keys e (by simp) hordinary with ⟨err, hunread⟩ | ⟨x, hx⟩
    · have hmake := make_of_unread (n := n) h (by rw [graph]; exact faithful e (by simp) hordinary)
        (by rw [graph]; exact hunread)
      exact .inr (.inr ⟨e, by simp, hordinary, err, hunread,
        run_refuseLoop_error (by rw [graph]; exact hordinary) hmake⟩)
    obtain ⟨c₁, hmake, hsettled, hlearns⟩ := make_of_denotes (n := n) h
      (by rw [graph]; exact faithful e (by simp) hordinary) (by rw [graph]; exact hx)
    rw [run_refuseLoop_scalar (by rw [graph]; exact hordinary) hmake, graph]
    have hany := noted.any_iff hx
    by_cases hrepeated : (seen.any fun t => t.type == x.type && t.same x) = true
    · refine .inr (.inl ⟨[], e, rest, x, rfl, ?_, hx, if_pos hrepeated⟩)
      rw [List.append_nil]
      exact hany.mp hrepeated
    · rw [if_neg hrepeated]
      rcases ih hsettled (hlearns.graph.trans graph) hfaithful hrest (noted.cons hx) with
        ⟨c', hrun, hlearns', hnone, hread⟩ | ⟨b, e₁, a, y, hsplit, hsame, hy, hrun⟩ |
        ⟨e₁, he₁, hordinary₁, hunread⟩
      · refine .inl ⟨c', hrun, ?_, .cons (fun hsame => hrepeated (hany.mpr hsame)) hnone, ?_⟩
        · exact (hlearns.mono fun j hj => ⟨e, by simp, hordinary, hj.symm⟩).trans
            (hlearns'.mono fun j hj => hj.tail)
        · intro e' he' hordinary'
          rcases List.mem_cons.mp he' with rfl | he'
          · exact ⟨x, hx⟩
          · exact hread e' he' hordinary'
      · exact .inr (.inl ⟨e :: b, e₁, a, y, by simp [hsplit], by simpa using hsame, hy, hrun⟩)
      · exact .inr (.inr ⟨e₁, by simp [he₁], hordinary₁, hunread⟩)

/-- The search among entries whose own keys all denote scalars. -/
theorem refuseLoop_outcome (faithful : k.Faithful) (around : Mark) {es before : List Entry}
    {seen : List Scalar} (h : c.Settled k p) (graph : c.graph = g)
    (keys : ∀ e ∈ es, g.isMerge e = false → ∃ x, g.Denotes k.terms e.key x)
    (noted : Noted k.terms g before seen) :
    (∃ c', (refuseRepeatedKeys.loop (make (n + 1)) around seen es).run c = .ok ((), c') ∧
      Learns k.terms (OrdinaryKey g es) c c' ∧ NoneRepeated k.terms g before es) ∨
    ∃ b e a x, es = b ++ e :: a ∧ (∃ e' ∈ before ++ b, g.SameKey k.terms e'.key e.key) ∧
      g.Denotes k.terms e.key x ∧
      (refuseRepeatedKeys.loop (make (n + 1)) around seen es).run c =
        .error (repeatedKey around (g.node e.key).mark x) := by
  rcases refuseLoop_outcome_or (n := n) around h graph (fun _ _ _ _ finished => faithful finished)
      (fun e he hordinary => .inr (keys e he hordinary)) noted with
    ⟨c', hrun, hlearns, hnone, -⟩ | hrepeated | ⟨e, he, hordinary, err, hunread, -⟩
  · exact .inl ⟨c', hrun, hlearns, hnone⟩
  · exact .inr hrepeated
  · obtain ⟨x, hx⟩ := keys e he hordinary
    exact (hunread.not_denotes hx).elim

variable {s s' l : Construction} {i : NodeId}

/-- A mapping that is filled with repeated keys allowed is filled alike with repeated keys refused
if all its keys can be read as it stands and none is repeated; otherwise it is refused for one of
them. -/
theorem mapping_outcome_or (h : Abreast k .allowed .refused s l)
    (mapping : (s.graph.node i).content.kind = .mapping)
    (faithful : ∀ e ∈ s.graph.entries i, s.graph.isMerge e = false → ∀ y,
      k.finished s.graph e.key y → s.graph.Denotes k.terms e.key y)
    (keys : ∀ e ∈ s.graph.entries i, s.graph.isMerge e = false →
      (∃ err, s.graph.Unread k.terms e.key err) ∨ ∃ x, s.graph.Denotes k.terms e.key x)
    (ahead : ∀ e ∈ s.graph.entries i, ∀ x, s.graph.Denotes k.terms e.key x →
      k.ahead s.graph e.key)
    (replaced : (Merging.replace (.classic k.terms .allowed) i).run s.graph = .ok ((), g))
    (withGraph : (∀ e ∈ s.graph.entries i, s.graph.isMerge e = false →
        ∃ x, s.graph.Denotes k.terms e.key x) →
      ∀ l₁, Abreast k .allowed .refused s l₁ →
        Abreast k .allowed .refused (s.withGraph g) (l₁.withGraph g))
    (parts : ∀ e ∈ g.entries i, k.node e.key ∧ k.node e.value) {es : List (Value × Value)}
    (run : (classicEntries (make (n + 1)) (g.node i).mark [] (g.entries i)).run (s.withGraph g) =
      .ok (es, s')) :
    (((∀ e, ¬s.graph.Repeats k.terms i e) ∧ ∀ e ∈ s.graph.entries i, s.graph.isMerge e = false →
        ∃ x, s.graph.Denotes k.terms e.key x) ∧
      ∃ l', (Build.mapping (make (n + 1)) i).run l = .ok (es, l') ∧
        Abreast k .allowed .refused s' l') ∨
    (∃ e x, s.graph.Repeats k.terms i e ∧ s.graph.Denotes k.terms e.key x ∧
      (Build.mapping (make (n + 1)) i).run l =
        .error (repeatedKey (s.graph.node i).mark (s.graph.node e.key).mark x)) ∨
    ∃ e ∈ s.graph.entries i, s.graph.isMerge e = false ∧
      ∃ err, s.graph.Unread k.terms e.key err ∧
        (Build.mapping (make (n + 1)) i).run l = .error err := by
  rw [run_mapping_refused h.right (by rw [← h.graph]; exact mapping)]
  have hrefuse := run_refuseRepeatedKeys (make (n + 1)) i l
  rw [← h.graph] at hrefuse
  rcases refuseLoop_outcome_or (n := n) (s.graph.node i).mark h.right h.graph.symm faithful keys
      (.nil k.terms s.graph) with
    ⟨l₁, hloop, hlearns, hnone, hread⟩ | ⟨b, e, a, x, hsplit, ⟨e', he', hsame⟩, hx, hloop⟩ |
    ⟨e, he, hordinary, err, hunread, hloop⟩
  · refine .inl ⟨⟨?_, hread⟩, ?_⟩
    · rintro e ⟨before, after, hsplit, hrepeated⟩
      exact hnone before e after hsplit hrepeated
    · have habreast := (h.symm.learns hlearns fun j x hj hx => by
        obtain ⟨e, he, -, rfl⟩ := hj
        rw [← h.graph] at hx ⊢
        exact ahead e he x hx).symm
      have hreplace : (Merging.replace l₁.rules i).run l₁.graph = .ok ((), g) := by
        rw [habreast.right.rules, ← habreast.graph]
        exact (congrArg (fun m => m.run s.graph)
          (Merging.replace_classic k.terms .refused .allowed i)).trans replaced
      rw [run_bind_of_ok (hrefuse.trans hloop), run_classicMapping hreplace]
      have makes : ∀ j s l, k.node j → Abreast k .allowed .refused s l →
          Follows (Abreast k .allowed .refused) neverRefused (make (n + 1) j false)
            (make (n + 1) j false) s l :=
        fun j s l hj h => abreast_make n hj h
      exact (follows_classicEntries (Abreast.tracks _ _ _) makes parts []
        (withGraph hread l₁ habreast)).run_eq run
  · rw [run_bind_of_error (hrefuse.trans hloop)]
    exact .inr (.inl ⟨e, x, ⟨b, a, hsplit, e', he', hsame⟩, hx, rfl⟩)
  · rw [run_bind_of_error (hrefuse.trans hloop)]
    exact .inr (.inr ⟨e, he, hordinary, err, hunread, rfl⟩)

end Build

/-- A construction over a graph that never changes, from its root on. -/
def Course.ordinary (terms : Terms) (g : Graph) : Course where
  terms := terms
  graph g' := g' = g
  node := g.Reaches
  finished g' i x := g'.Denotes terms i x
  ahead _ _ := True
  below hg hi holds := by
    subst hg
    exact hi.step holds
  read _ denotes := denotes

/-- Whether an error complains about a repeated key of some mapping of a document. -/
def RefusedFor (terms : Terms) (g : Graph) (e : LoadError) : Prop :=
  ∃ i entry x, g.Reaches i ∧ g.Repeats terms i entry ∧ g.Denotes terms entry.key x ∧
    e = repeatedKey (g.node i).mark (g.node entry.key).mark x

namespace Course.ordinary

open Build Construction

variable {terms : Terms} {g : Graph} {p q : Duplicates} {c c' s l : Construction} {n : Nat}

theorem faithful (terms : Terms) (g : Graph) : (ordinary terms g).Faithful := fun h => h

theorem run_classicMapping_of_ordinary {make : Builder} {i : NodeId} (plain : g.OrdinaryKeys)
    (graph : c.graph = g) :
    (classicMapping make i).run c =
      (classicEntries make (g.node i).mark [] (g.entries i)).run c := by
  subst graph
  rw [run_classicMapping (Merging.replace_of_ordinary plain i)]
  rfl

/-- A mapping that is filled with repeated keys allowed is filled in the same way with repeated
keys refused, or refused for one of them. -/
theorem abreast_mapping (plain : g.OrdinaryKeys) (n : Nat) (i : NodeId) (s l : Construction)
    (reaches : g.Reaches i) (h : Abreast (ordinary terms g) .allowed .refused s l) :
    Follows (Abreast (ordinary terms g) .allowed .refused) (RefusedFor terms g)
      (mapping (make (n + 1)) i) (mapping (make (n + 1)) i) s l := by
  intro es s' run
  obtain rfl : s.graph = g := h.left.graph
  have hkind := kind_of_mapping_ok run
  have parts : ∀ e ∈ s.graph.entries i, s.graph.Reaches e.key ∧ s.graph.Reaches e.value :=
    fun e he => ⟨reaches.step (.key he), reaches.step (.value he)⟩
  rw [run_mapping_allowed h.left hkind, run_classicMapping_of_ordinary plain rfl] at run
  obtain ⟨hgrows, hfilled⟩ := grows_classicEntries h.left parts run
  have keys : ∀ e ∈ s.graph.entries i, ∃ x, s.graph.Denotes terms e.key x := by
    intro e he
    obtain ⟨-, x, hx⟩ := (hfilled e he).1
    rw [hgrows.graph] at hx
    exact ⟨x, hx⟩
  rcases mapping_outcome_or h hkind (fun _ _ _ _ finished => finished)
      (fun e he _ => .inr (keys e he)) (fun _ _ _ _ => trivial)
      (Merging.replace_of_ordinary plain i) (fun _ _ h₁ => h₁.withGraph_self) parts run with
    ⟨-, hok⟩ | ⟨e, x, hrepeats, hx, herr⟩ | ⟨e, he, -, err, hunread, -⟩
  · exact .inl hok
  · exact .inr ⟨_, herr, i, e, x, reaches, hrepeats, hx, rfl⟩
  · obtain ⟨x, hx⟩ := keys e he
    exact (hunread.not_denotes hx).elim

end Course.ordinary

namespace Graph

/-- A document that is accepted with repeated keys allowed is accepted with repeated keys refused
as well, with the same value, or it is refused for one of them. -/
theorem document_refused_or {g : Graph} {terms : Terms} {d : Document}
    (plain : g.OrdinaryKeys) (accepted : g.document (.classic terms .allowed) = .ok d) :
    g.document (.classic terms .refused) = .ok d ∨
      ∃ e, g.document (.classic terms .refused) = .error e ∧ RefusedFor terms g e := by
  have h : Abreast (.ordinary terms g) .allowed .refused
      (Construction.start (.classic terms .allowed) g)
      (Construction.start (.classic terms .refused) g) := .start rfl
  have follows : Follows (Abreast (.ordinary terms g) .allowed .refused) (RefusedFor terms g)
      Build.document Build.document _ _ :=
    Build.follows_document (Abreast.tracks _ _ _) h .root
      (fun _ _ _ hi h => Build.abreast_make _ hi h) (Course.ordinary.abreast_mapping plain _)
  obtain ⟨s, hrun⟩ := document_eq_ok.mp accepted
  rcases follows d s hrun with ⟨l, hl, -⟩ | ⟨e, he, hrefused⟩
  · exact .inl (document_eq_ok.mpr ⟨l, hl⟩)
  · exact .inr ⟨e, document_eq_error.mpr he, hrefused⟩

end Graph

end YamlCheck.Yaml
