import YamlCheck.Proofs.Yaml.Refusing
import YamlCheck.Proofs.Yaml.Visiting

/-!
# Keys that mark plain values

With repeated keys allowed, the key that marks the plain value of a mapping becomes an ordinary one
before the keys are read.  With repeated keys refused the keys are read first, as they stand, and
nothing can be read from such a key.  So a document without merge keys that is accepted with
repeated keys allowed is refused with repeated keys refused as soon as some mapping in it has a key
of this kind, even if no mapping repeats a key.  That does not go for a mapping which is never built
as one, because it stands for its plain value.
-/

namespace YamlCheck.Yaml

open Build Construction

namespace Graph

/-- Whether a mapping has a key that marks its plain value. -/
def MarksPlain (g : Graph) (i : NodeId) : Prop :=
  ∃ e ∈ g.entries i, (g.node e.key).tag = Tag.value

/-- Whether all keys of a mapping can be read as it stands, and none is repeated. -/
structure ReadableKeys (g : Graph) (terms : Terms) (i : NodeId) : Prop where
  read : ∀ e ∈ g.entries i, ∃ x, g.Denotes terms e.key x
  once : ∀ e, ¬g.Repeats terms i e

/-- Whether an error complains about a key of a mapping as it stands: about one that is repeated,
or, where a key marks a plain value, about one that cannot be read. -/
def StopsAt (g : Graph) (terms : Terms) (i : NodeId) (err : LoadError) : Prop :=
  Course.textual.RefusedAt terms g i err ∨
    (g.MarksPlain i ∧ ∃ e ∈ g.entries i, g.Unread terms e.key err)

variable {terms : Terms} {g : Graph} {i : NodeId} {err : LoadError}

theorem ReadableKeys.not_marksPlain (h : g.ReadableKeys terms i) : ¬g.MarksPlain i := by
  rintro ⟨e, he, hvalue⟩
  obtain ⟨x, hx⟩ := h.read e he
  exact (unread_of_value hvalue).not_denotes hx

theorem StopsAt.marksPlain_or (h : g.StopsAt terms i err) :
    g.MarksPlain i ∨ ∃ e, g.Repeats terms i e := by
  rcases h with ⟨e, -, hrepeats, -⟩ | ⟨hmarks, -⟩
  · exact .inr ⟨e, hrepeats⟩
  · exact .inl hmarks

end Graph

/-- A construction over a graph that has not changed so far. -/
def Course.still (terms : Terms) (g : Graph) : Course where
  terms := terms
  graph g' := g' = g
  node _ := True
  finished g' i x := g'.Denotes terms i x
  ahead _ _ := True
  below _ _ _ := trivial
  read _ denotes := denotes

/-! ## One mapping -/

namespace Course.still

variable {terms : Terms} {g : Graph} {p : Duplicates} {c c' s s' l : Construction} {i : NodeId}
  {n : Nat} {es : List (Value × Value)}

theorem settled_literal (h : c.Settled (still terms g) p) :
    c.Settled (literal terms c.graph) p where
  rules := h.rules
  waits := h.waits
  room := h.room
  graph := .refl
  waiting := h.waiting
  stage j := by
    refine (h.stage j).imp id (Or.imp id ?_)
    rintro ⟨x, hstage, htag, hx⟩
    exact ⟨x, hstage, htag, fun _ => hx⟩

/-- The keys of a mapping that is filled are no collections, not even before it is filled. -/
theorem emptyCell?_key (h : c.Settled (still terms g) .allowed)
    (run : (mapping (make (n + 1)) i).run c = .ok (es, c')) {e : Entry}
    (mem : e ∈ c.graph.entries i) (ordinary : c.graph.isMerge e = false) :
    emptyCell? .classic (c.graph.node e.key).tag = none := by
  -- The graph may change now, so the rest is read along a course that lets it.
  have hliteral := settled_literal h
  obtain ⟨hkind, g', hreplace, run⟩ := mapping_allowed_ok h run
  have hflat := Graph.Flattens.of_edits (Merging.replace_edits (.refl c.graph) hkind hreplace)
  obtain ⟨hgrows, hfilled⟩ := grows_classicEntries
    (literal.settled_withGraph hliteral hkind hreplace) (fun _ _ => ⟨trivial, trivial⟩) run
  obtain ⟨htag, -⟩ := (hfilled e (hflat.ordinary i e mem ordinary)).1
  rw [hgrows.graph] at htag
  rw [← hflat.emptyCell?_eq]
  exact emptyCell?_of_mem htag

/-- Where no key marks a plain value, all keys of a mapping that is filled can be read before. -/
theorem denotes_key (h : c.Settled (still terms g) .allowed)
    (run : (mapping (make (n + 1)) i).run c = .ok (es, c')) (unmerged : ¬c.graph.Merges i)
    (plain : ¬c.graph.MarksPlain i) {e : Entry} (mem : e ∈ c.graph.entries i) :
    ∃ x, c.graph.Denotes terms e.key x := by
  obtain ⟨-, g', hreplace, run⟩ := mapping_allowed_ok h run
  obtain rfl := Merging.eq_of_replaced (fun _ he => Graph.isMerge_of_not_merges unmerged he)
    (fun e he hvalue => plain ⟨e, he, hvalue⟩) hreplace
  obtain ⟨hgrows, hfilled⟩ := grows_classicEntries (c := c) h (fun _ _ => ⟨trivial, trivial⟩) run
  obtain ⟨-, x, hx⟩ := (hfilled e mem).1
  rw [hgrows.graph] at hx
  exact ⟨x, hx⟩

/-- A mapping that is filled with repeated keys allowed is filled alike with repeated keys refused
if its keys can be read as it stands; otherwise it is refused for one of them. -/
theorem mapping_outcome (unmerged : ¬g.Merges i)
    (h : Abreast (still terms g) .allowed .refused s l)
    (run : (mapping (make (n + 1)) i).run s = .ok (es, s')) :
    (g.ReadableKeys terms i ∧ ∃ l', (mapping (make (n + 1)) i).run l = .ok (es, l') ∧
      Abreast (still terms g) .allowed .refused s' l') ∨
    ∃ err, (mapping (make (n + 1)) i).run l = .error err ∧ g.StopsAt terms i err := by
  obtain rfl : s.graph = g := h.left.graph
  have hordinary : ∀ e ∈ s.graph.entries i, s.graph.isMerge e = false := fun _ he =>
    Graph.isMerge_of_not_merges unmerged he
  have hkeys : ∀ e ∈ s.graph.entries i, s.graph.isMerge e = false →
      (∃ err, s.graph.Unread terms e.key err) ∨ ∃ x, s.graph.Denotes terms e.key x :=
    fun e he ordinary => Graph.unread_or_denotes (emptyCell?_key h.left run he ordinary)
  have hplain := denotes_key h.left run unmerged
  obtain ⟨hkind, g', hreplace, run⟩ := mapping_allowed_ok h.left run
  -- Where the search ends well no key marks a plain value, and the graph does not change.
  have same : (∀ e ∈ s.graph.entries i, s.graph.isMerge e = false →
      ∃ x, s.graph.Denotes terms e.key x) → g' = s.graph := by
    intro hread
    refine Merging.eq_of_replaced hordinary (fun e he hvalue => ?_) hreplace
    obtain ⟨x, hx⟩ := hread e he (hordinary e he)
    exact (Graph.unread_of_value hvalue).not_denotes hx
  rcases mapping_outcome_or h hkind (fun _ _ _ _ finished => finished) hkeys
      (fun _ _ _ _ => trivial) hreplace
      (fun hread _ h₁ => by rw [same hread]; exact h₁.withGraph_self)
      (fun _ _ => ⟨trivial, trivial⟩) run with
    ⟨⟨honce, hread⟩, hok⟩ | ⟨e, x, hrepeats, hx, herr⟩ | ⟨e, he, -, err, hunread, herr⟩
  · exact .inl ⟨⟨fun e he => hread e he (hordinary e he), honce⟩, hok⟩
  · exact .inr ⟨_, herr, .inl ⟨e, x, hrepeats, hx, rfl⟩⟩
  · refine .inr ⟨err, herr, .inr ⟨?_, e, he, hunread⟩⟩
    by_contra hmarks
    obtain ⟨x, hx⟩ := hplain hmarks he
    exact hunread.not_denotes hx

theorem decides (noMerges : ∀ i, ¬g.Merges i) :
    Decides (Abreast (still terms g) .allowed .refused)
      (fun _ i => (g.node i).content.kind = .mapping → g.ReadableKeys terms i)
      (fun _ i => g.StopsAt terms i) := by
  intro n s s' l i h run
  refine fill_outcome_of (Abreast.tracks _ _ _) (fun _ _ _ hj h => abreast_make _ hj h) h trivial
    ?_ ?_ run
  · rw [show s.graph = g from h.left.graph]
    exact fun hkind hmapping => (hkind hmapping).elim
  · intro es s₁ hs
    exact (mapping_outcome (noMerges i) h hs).imp (And.imp (fun hkeys _ => hkeys) id) id

end Course.still

/-! ## The document -/

namespace Graph

variable {terms : Terms} {g : Graph} {d : Document} {i : NodeId}

/-- A mapping that has a place in a document which is accepted under both policies has keys that
can be read as it stands. -/
theorem Placed.readableKeys (noMerges : ∀ i, ¬g.Merges i)
    (allowed : g.document (.classic terms .allowed) = .ok d)
    (refused : g.document (.classic terms .refused) = .ok d) (placed : g.Placed i)
    (collects : g.collects i = true) (kind : (g.node i).content.kind = .mapping) :
    g.ReadableKeys terms i := by
  obtain ⟨c, rest, turn⟩ := placed.turn allowed collects
  exact (Course.still.decides noMerges).clear (Abreast.tracks _ _ _)
    ((Course.still terms g).abreast_root rfl trivial) rfl allowed refused turn kind

/-- A document without merge keys that is accepted with repeated keys allowed is accepted with
repeated keys refused, and then with the same value, exactly if no mapping that has a place in it
has a key that marks a plain value or repeats a key.  Otherwise the complaint is about a repeated
key of such a mapping or, where one of its keys marks a plain value, about a key that cannot be
read as it stands. -/
theorem document_plain_keys_iff (noMerges : ∀ i, ¬g.Merges i)
    (accepted : g.document (.classic terms .allowed) = .ok d) :
    (g.document (.classic terms .refused) = .ok d ↔
      ∀ i, g.Placed i → g.collects i = true → ¬g.MarksPlain i ∧ ∀ e, ¬g.Repeats terms i e) ∧
    ∀ err, g.document (.classic terms .refused) = .error err →
      ∃ i, g.Placed i ∧ g.collects i = true ∧ g.StopsAt terms i err := by
  have outcome : g.document (.classic terms .refused) = .ok d ∨
      ∃ err, g.document (.classic terms .refused) = .error err ∧
        ∃ i, g.Placed i ∧ g.collects i = true ∧ g.StopsAt terms i err := by
    refine ((Course.still.decides noMerges).document (Abreast.tracks _ _ _)
      ((Course.still terms g).abreast_root rfl trivial) rfl accepted).imp id ?_
    rintro ⟨err, herr, c, i, rest, turn, hstops⟩
    obtain ⟨hplaced, hcollects⟩ := turn.placed noMerges
    exact ⟨err, herr, i, hplaced, hcollects, hstops⟩
  refine ⟨⟨fun refused i placed collects => ⟨?_, ?_⟩, fun hnone => ?_⟩, fun err herr => ?_⟩
  · rintro ⟨e, he, hvalue⟩
    have hkeys := placed.readableKeys noMerges accepted refused collects (kind_of_mem_entries he)
    exact hkeys.not_marksPlain ⟨e, he, hvalue⟩
  · intro e hrepeats
    have hkeys := placed.readableKeys noMerges accepted refused collects hrepeats.kind
    exact hkeys.once e hrepeats
  · rcases outcome with hok | ⟨err, -, i, placed, collects, hstops⟩
    · exact hok
    · obtain ⟨hplain, honce⟩ := hnone i placed collects
      rcases hstops.marksPlain_or with hmarks | ⟨e, hrepeats⟩
      · exact (hplain hmarks).elim
      · exact (honce e hrepeats).elim
  · rcases outcome with hok | ⟨err', herr', hstops⟩
    · rw [hok] at herr
      cases herr
    · rw [herr'] at herr
      cases herr
      exact hstops

theorem not_merges_of_forall (h : ∀ i < g.nodes.size, ∀ e ∈ g.entries i, g.isMerge e = false)
    (i : NodeId) : ¬g.Merges i := by
  rintro ⟨e, he, hmerge⟩
  have hi : i < g.nodes.size := lt_size_of_kind (by rw [kind_of_mem_entries he]; simp)
  rw [h i hi e he] at hmerge
  cases hmerge

/-- A mapping whose one key marks a plain value. -/
def equalsKey : Graph where
  root := 0
  nodes := #[
    ⟨Tag.map, .mapping [⟨1, 2⟩], ⟨0, 0, 0⟩, none⟩,
    ⟨Tag.value, .scalar "=", ⟨0, 0, 0⟩, none⟩,
    ⟨Tag.int, .scalar "1", ⟨3, 0, 3⟩, none⟩]

def equalsKeyText : List UInt8 := "=: 1\n".toList.map fun c => c.toNat.toUInt8

theorem equalsKey_unmerged : ∀ i, ¬equalsKey.Merges i := not_merges_of_forall (by decide +kernel)

theorem equalsKey_marksPlain : equalsKey.MarksPlain 0 := ⟨⟨1, 2⟩, by decide, by decide⟩

theorem equalsKey_allowed : ∃ d, equalsKey.document (.classic .classic .allowed) = .ok d :=
  exists_document (by decide +kernel)

theorem equalsKey_refused : (∀ i, ¬equalsKey.Merges i) ∧
    ∃ d, equalsKey.document (.classic .classic .allowed) = .ok d ∧
      equalsKey.document (.classic .classic .refused) ≠ .ok d ∧
      ∀ err, equalsKey.document (.classic .classic .refused) = .error err →
        ∃ i, equalsKey.Placed i ∧ equalsKey.StopsAt .classic i err := by
  obtain ⟨d, hallowed⟩ := equalsKey_allowed
  obtain ⟨hiff, hstops⟩ := document_plain_keys_iff equalsKey_unmerged hallowed
  refine ⟨equalsKey_unmerged, d, hallowed, fun hok => ?_, fun err herr => ?_⟩
  · exact (hiff.mp hok 0 .refl (by decide)).1 equalsKey_marksPlain
  · obtain ⟨i, hplaced, -, hstop⟩ := hstops err herr
    exact ⟨i, hplaced, hstop⟩

/-- The key `=` is refused, although the mapping has no other one and the text is accepted with
repeated keys allowed. -/
theorem equalsKeyText_refused :
    ¬∀ (bytes : List UInt8) (t : Draft) (d : Document), t ∈ (read .usual .classic bytes).drafts →
      (∀ i, ¬t.graph.Merges i) → (∃ i, t.graph.MarksPlain i) →
      (∀ i e, ¬t.graph.Repeats t.terms i e) →
      t.document .classic .allowed = .ok d → t.document .classic .refused = .ok d := by
  intro h
  obtain ⟨d, hallowed⟩ := equalsKey_allowed
  have hread : (read .usual .classic equalsKeyText).drafts.map (fun t => (t.terms, t.graph)) =
      [(.classic, equalsKey)] := by decide +kernel
  obtain ⟨t, ht, hsame⟩ := List.mem_map.mp (hread ▸ List.mem_singleton_self _)
  obtain ⟨terms, g⟩ := t
  cases hsame
  have hstrict := h equalsKeyText _ d ht equalsKey_unmerged ⟨0, equalsKey_marksPlain⟩
    (not_repeats_of_pairwise (by decide +kernel)) hallowed
  have herror : (equalsKey.document (.classic .classic .refused)).isOk = false := by
    decide +kernel
  have hok : equalsKey.document (.classic .classic .refused) = .ok d := hstrict
  rw [hok] at herror
  cases herror

end Graph

end YamlCheck.Yaml
