import YamlCheck.Proofs.Yaml.Overriding
import YamlCheck.Proofs.Yaml.Stream

/-!
# The turns of collections

The cells of a document are filled one after the other, and what merge keys bring into a mapping
may stand there before its own turn comes.  A document without plain values that is accepted with
repeated keys allowed is refused for a repeated key exactly if some mapping repeats one when its
turn comes.  If no mapping does so as it is written, that takes one with merge keys of its own that
another merge key names: its entries are merged before its turn, with no merge key left to tell
them from its own.
-/

namespace YamlCheck.Yaml

open Build Construction

/-- The states that a construction passes through between the turns of two collections, with the
collections of the round whose turns are still to come. -/
inductive Turns (r : Rules) (g : Graph) : Construction → List NodeId → Prop
  | begun {v : Value} {c : Construction}
      (run : (make (r.limits.building + 1) g.root false).run (Construction.start r g) =
        .ok (v, c)) :
      Turns r g c []
  | round {c : Construction} (last : Turns r g c []) : Turns r g { c with queue := [] } c.queue
  | filled {c c' : Construction} {i : NodeId} {rest : List NodeId} (turn : Turns r g c (i :: rest))
      (run : (fill (make (r.limits.building + 1)) i).run c = .ok ((), c')) : Turns r g c' rest

/-- Whether a construction comes to its end from between two turns. -/
def Finishes (r : Rules) (c : Construction) (rest : List NodeId) : Prop :=
  let make := make (r.limits.building + 1)
  ∃ fuel c', (rest.forM (fill make) >>= fun _ => fillQueue make fuel).run c = .ok ((), c')

section Finishes

variable {g : Graph} {r : Rules} {c c' : Construction} {i : NodeId} {rest : List NodeId}

theorem run_document_ok {d : Document} (run : document.run (Construction.start r g) = .ok (d, c')) :
    ∃ v c, (make (r.limits.building + 1) g.root false).run (Construction.start r g) = .ok (v, c) ∧
      (fillQueue (make (r.limits.building + 1)) g.bound).run c = .ok ((), c') ∧
      d = ⟨v, c'.cells⟩ := by
  unfold document at run
  rw [run_bind_of_ok (run_get _)] at run
  obtain ⟨v, c, hroot, run⟩ := run_bind_ok run
  obtain ⟨⟨⟩, c₁, hqueue, run⟩ := run_bind_ok run
  rw [run_bind_of_ok (run_get _)] at run
  cases run
  exact ⟨v, c, hroot, hqueue, rfl⟩

theorem Finishes.round (h : Finishes r c []) : Finishes r { c with queue := [] } c.queue := by
  obtain ⟨fuel, c', run⟩ := h
  cases fuel with
  | zero => cases run
  | succ fuel =>
    have hqueue : (fillQueue (make (r.limits.building + 1)) (fuel + 1)).run c = .ok ((), c') := run
    unfold fillQueue at hqueue
    rw [run_bind_of_ok (run_get c)] at hqueue
    cases hwaiting : c.queue with
    | nil => exact ⟨1, _, rfl⟩
    | cons i rest =>
      simp only [hwaiting, List.isEmpty_cons] at hqueue
      rw [if_neg (by simp), run_bind_of_ok (run_set _ c)] at hqueue
      exact ⟨fuel, c', hqueue⟩

theorem Finishes.turn (h : Finishes r c (i :: rest)) :
    ∃ c', (fill (make (r.limits.building + 1)) i).run c = .ok ((), c') ∧ Finishes r c' rest := by
  obtain ⟨fuel, c', run⟩ := h
  obtain ⟨⟨⟩, c₁, hround, hqueue⟩ := run_bind_ok run
  obtain ⟨⟨⟩, c₂, hfill, hrest⟩ := run_bind_ok hround
  exact ⟨c₂, hfill, fuel, c', (run_bind_of_ok hrest).trans hqueue⟩

/-- A construction that is accepted comes to its end from each state that it passes through. -/
theorem Turns.finishes {d : Document} (accepted : g.document r = .ok d)
    (turns : Turns r g c rest) : Finishes r c rest := by
  induction turns with
  | begun run =>
    obtain ⟨c', hdocument⟩ := Graph.document_eq_ok.mp accepted
    obtain ⟨v, c, hroot, hqueue, -⟩ := run_document_ok hdocument
    rw [run] at hroot
    cases hroot
    exact ⟨g.bound, c', hqueue⟩
  | round last ih => exact ih.round
  | filled turn run ih =>
    obtain ⟨c₁, hfill, hfinishes⟩ := ih.turn
    rw [run] at hfill
    cases hfill
    exact hfinishes

end Finishes

/-! ## Two runs -/

/-- What the second of two related runs does where the first one fills a collection: it fills the
collection as well if that is clear, and it is refused otherwise. -/
def Decides (R : Construction → Construction → Prop)
    (Clear : Construction → NodeId → Prop) (Refused : Construction → NodeId → LoadError → Prop) :
    Prop :=
  ∀ n s s' l i, R s l → (fill (make (n + 1)) i).run s = .ok ((), s') →
    (Clear s i ∧ ∃ l', (fill (make (n + 1)) i).run l = .ok ((), l') ∧ R s' l') ∨
      ∃ err, (fill (make (n + 1)) i).run l = .error err ∧ Refused s i err

namespace Decides

variable {g : Graph} {r r' : Rules} {R : Construction → Construction → Prop} {P : NodeId → Prop}
  {Clear : Construction → NodeId → Prop} {Refused : Construction → NodeId → LoadError → Prop}
  {s s' l : Construction} {rest : List NodeId} {d d' : Document}

/-- Where both runs accept the document, the second one has a state for each state between two turns
of the first one. -/
theorem related (decides : Decides R Clear Refused) (tracks : Tracks R P)
    (root : ∀ n, Follows R neverRefused (make (n + 1) g.root false) (make (n + 1) g.root false)
      (Construction.start r g) (Construction.start r' g)) (limits : r'.limits = r.limits)
    (accepted' : g.document r' = .ok d') (turns : Turns r g s rest) :
    ∃ l, Turns r' g l rest ∧ R s l := by
  induction turns with
  | begun run =>
    obtain ⟨l, hl, h⟩ := (root _).run_eq run
    rw [← limits] at hl
    exact ⟨l, .begun hl, h⟩
  | round last ih =>
    obtain ⟨l, hturns, h⟩ := ih
    have hround := Turns.round hturns
    rw [← tracks.queue h] at hround
    exact ⟨_, hround, tracks.emptied h⟩
  | @filled s s' i rest turn run ih =>
    obtain ⟨l, hturns, h⟩ := ih
    obtain ⟨l', hfill, -⟩ := (hturns.finishes accepted').turn
    rw [← limits] at run
    rcases decides _ s s' l i h run with ⟨-, l₁, hl₁, hrelated⟩ | ⟨err, herr, -⟩
    · exact ⟨l₁, .filled hturns hl₁, hrelated⟩
    · have hsame := hfill.symm.trans herr
      cases hsame

/-- Where both runs accept the document, each collection is clear when its turn comes. -/
theorem clear (decides : Decides R Clear Refused) (tracks : Tracks R P)
    (root : ∀ n, Follows R neverRefused (make (n + 1) g.root false) (make (n + 1) g.root false)
      (Construction.start r g) (Construction.start r' g)) (limits : r'.limits = r.limits)
    (accepted : g.document r = .ok d) (accepted' : g.document r' = .ok d') {i : NodeId}
    (turn : Turns r g s (i :: rest)) : Clear s i := by
  obtain ⟨l, hturn, h⟩ := decides.related tracks root limits accepted' turn
  obtain ⟨s', hfill, -⟩ := (turn.finishes accepted).turn
  obtain ⟨l', hfill', -⟩ := (hturn.finishes accepted').turn
  rw [← limits] at hfill
  rcases decides _ s s' l i h hfill with ⟨hclear, -⟩ | ⟨err, herr, -⟩
  · exact hclear
  · have hsame := hfill'.symm.trans herr
    cases hsame

theorem round (decides : Decides R Clear Refused) (turns : Turns r g s rest) (h : R s l)
    (run : (rest.forM (fill (make (r.limits.building + 1)))).run s = .ok ((), s')) :
    (∃ l', (rest.forM (fill (make (r.limits.building + 1)))).run l = .ok ((), l') ∧ R s' l' ∧
        Turns r g s' []) ∨
    ∃ err, (rest.forM (fill (make (r.limits.building + 1)))).run l = .error err ∧
      ∃ c i rest, Turns r g c (i :: rest) ∧ Refused c i err := by
  induction rest generalizing s l with
  | nil =>
    cases run
    exact .inl ⟨l, rfl, h, turns⟩
  | cons i rest ih =>
    obtain ⟨⟨⟩, s₁, hfill, run⟩ := run_bind_ok run
    rcases decides _ s s₁ l i h hfill with ⟨-, l₁, hl₁, h₁⟩ | ⟨err, herr, hrefused⟩
    · have hround : ((i :: rest).forM (fill (make (r.limits.building + 1)))).run l =
          (rest.forM (fill (make (r.limits.building + 1)))).run l₁ := run_bind_of_ok hl₁
      rw [hround]
      exact ih (.filled turns hfill) h₁ run
    · exact .inr ⟨err, run_bind_of_error herr, s, i, rest, turns, hrefused⟩

theorem queue {fuel : Nat} (decides : Decides R Clear Refused) (tracks : Tracks R P)
    (turns : Turns r g s []) (h : R s l)
    (run : (fillQueue (make (r.limits.building + 1)) fuel).run s = .ok ((), s')) :
    (∃ l', (fillQueue (make (r.limits.building + 1)) fuel).run l = .ok ((), l') ∧
        s'.cells = l'.cells) ∨
    ∃ err, (fillQueue (make (r.limits.building + 1)) fuel).run l = .error err ∧
      ∃ c i rest, Turns r g c (i :: rest) ∧ Refused c i err := by
  induction fuel generalizing s l with
  | zero => cases run
  | succ fuel ih =>
    unfold fillQueue at run ⊢
    rw [run_bind_of_ok (run_get s)] at run
    rw [run_bind_of_ok (run_get l), ← tracks.queue h]
    cases hqueue : s.queue with
    | nil =>
      simp only [hqueue, List.isEmpty_nil, if_true] at run ⊢
      cases run
      exact .inl ⟨l, rfl, tracks.cells h⟩
    | cons i waiting =>
      simp only [hqueue, List.isEmpty_cons] at run ⊢
      rw [if_neg (by simp), run_bind_of_ok (run_set _ s)] at run
      rw [if_neg (by simp), run_bind_of_ok (run_set _ l)]
      obtain ⟨⟨⟩, s₁, hround, run⟩ := run_bind_ok run
      have hturns := Turns.round turns
      rw [hqueue] at hturns
      rcases decides.round hturns (tracks.emptied h) hround with
        ⟨l₁, hl₁, h₁, hturns₁⟩ | ⟨err, herr, hrefused⟩
      · rw [run_bind_of_ok hl₁]
        exact ih hturns₁ h₁ run
      · exact .inr ⟨err, run_bind_of_error herr, hrefused⟩

/-- A document that the first run accepts the second one accepts as well, with the same value, or it
is refused at the turn of some collection. -/
theorem document (decides : Decides R Clear Refused) (tracks : Tracks R P)
    (root : ∀ n, Follows R neverRefused (make (n + 1) g.root false) (make (n + 1) g.root false)
      (Construction.start r g) (Construction.start r' g)) (limits : r'.limits = r.limits)
    (accepted : g.document r = .ok d) :
    g.document r' = .ok d ∨ ∃ err, g.document r' = .error err ∧
      ∃ c i rest, Turns r g c (i :: rest) ∧ Refused c i err := by
  obtain ⟨s', hs⟩ := Graph.document_eq_ok.mp accepted
  obtain ⟨v, s, hroot, hqueue, rfl⟩ := run_document_ok hs
  obtain ⟨l, hl, h⟩ := (root _).run_eq hroot
  have hdocument : Build.document.run (Construction.start r' g) =
      (fillQueue (make (r.limits.building + 1)) g.bound >>= fun _ =>
        get >>= fun c => pure ⟨v, c.cells⟩).run l := by
    unfold Build.document
    rw [run_bind_of_ok (run_get _)]
    have hlimits : (Construction.start r' g).rules.limits = r.limits := limits
    simp only [hlimits]
    exact run_bind_of_ok hl
  rcases decides.queue tracks (.begun hroot) h hqueue with
    ⟨l', hl', hcells⟩ | ⟨err, herr, hrefused⟩
  · refine .inl (Graph.document_eq_ok.mpr ⟨l', ?_⟩)
    rw [hdocument, run_bind_of_ok hl', hcells]
    rfl
  · refine .inr ⟨err, Graph.document_eq_error.mpr ?_, hrefused⟩
    rw [hdocument, run_bind_of_error herr]

end Decides

/-- Two constructions along one course are abreast once the root is made. -/
theorem Course.abreast_root (k : Course) {g : Graph} (graph : k.graph g) (root : k.node g.root) :
    ∀ n, Follows (Abreast k .allowed .refused) neverRefused
      (make (n + 1) g.root false) (make (n + 1) g.root false)
      (Construction.start (.classic k.terms .allowed) g)
      (Construction.start (.classic k.terms .refused) g) := by
  have hstart : Abreast k .allowed .refused
      (Construction.start (.classic k.terms .allowed) g)
      (Construction.start (.classic k.terms .refused) g) := .start graph
  exact fun n => abreast_make n root hstart

namespace Course.textual

variable {terms : Terms} {g : Graph}

/-- Whether an error complains about a key that a mapping repeats when its turn comes. -/
def RefusedInTurn (terms : Terms) (g : Graph) (err : LoadError) : Prop :=
  ∃ c i rest, Turns (.classic terms .allowed) g c (i :: rest) ∧ RefusedAt terms c.graph i err

theorem follows_root (terms : Terms) (g : Graph) :
    ∀ n, Follows (Abreast (textual terms g) .allowed .refused) neverRefused
      (make (n + 1) g.root false) (make (n + 1) g.root false)
      (Construction.start (.classic terms .allowed) g)
      (Construction.start (.classic terms .refused) g) :=
  (textual terms g).abreast_root ⟨.refl g, .refl g⟩ trivial

theorem decides (noValue : g.NoValueKeys) : Decides (Abreast (textual terms g) .allowed .refused)
    (fun c i => ∀ e, ¬c.graph.Repeats terms i e) (fun c i => RefusedAt terms c.graph i) :=
  fun _ _ _ _ _ h run => fill_outcome noValue h run

end Course.textual

/-! ## Once only -/

/-- What is known between two turns: the collections whose turns are to come are built already, none
of them twice, and a mapping that no merge key names stays as it is written until its turn. -/
structure Agenda (terms : Terms) (g : Graph) (c : Construction) (rest : List NodeId) : Prop where
  settled : c.Settled (.textual terms g) .allowed
  built : ∀ j ∈ rest ++ c.queue, c.Built j
  nodup : (rest ++ c.queue).Nodup
  asWritten : ∀ j, ¬g.MergeSource j → (c.Built j → j ∈ rest ++ c.queue) →
    c.graph.entries j = g.entries j

theorem Agenda.filled {terms : Terms} {g : Graph} {c c' : Construction} {i : NodeId} {n : Nat}
    {rest : List NodeId} (noValue : g.NoValueKeys) (h : Agenda terms g c (i :: rest))
    (run : (fill (make (n + 1)) i).run c = .ok ((), c')) : Agenda terms g c' rest := by
  obtain ⟨hsettled, ⟨new, hnew⟩, hedits⟩ := Course.textual.fill_allowed noValue h.settled run
  have hqueue : rest ++ c'.queue = (rest ++ c.queue) ++ new := by
    rw [hnew.queue, List.append_assoc]
  obtain ⟨hfirst, hnodup⟩ := List.nodup_cons.mp h.nodup
  refine ⟨hsettled, fun j hj => ?_, ?_, fun j hsource hlater => ?_⟩
  · rw [hqueue, List.mem_append] at hj
    exact (hnew.built j).mpr (hj.imp (fun hj => h.built j (List.mem_cons_of_mem i hj)) id)
  · rw [hqueue, List.nodup_append]
    refine ⟨hnodup, hnew.nodup, ?_⟩
    rintro j hj _ hj' rfl
    exact hnew.fresh j hj' (h.built j (List.mem_cons_of_mem i hj))
  · rw [hqueue] at hlater
    -- The turn of `i` is over, and no other one comes.
    have hother : j ≠ i := by
      rintro rfl
      have hbuilt := h.built j List.mem_cons_self
      rcases List.mem_append.mp (hlater ((hnew.built j).mpr (.inl hbuilt))) with hmem | hmem
      · exact hfirst hmem
      · exact hnew.fresh j hmem hbuilt
    have htouched : ¬Merging.Touched g i j := by
      rintro (rfl | hnamed)
      · exact hother rfl
      · exact hsource hnamed
    rw [hedits.entries_eq htouched]
    apply h.asWritten j hsource
    intro hbuilt
    rcases List.mem_append.mp (hlater ((hnew.built j).mpr (.inl hbuilt))) with hmem | hmem
    · exact List.mem_cons_of_mem i hmem
    · exact (hnew.fresh j hmem hbuilt).elim

theorem Turns.agenda {terms : Terms} {g : Graph} {c : Construction} {rest : List NodeId}
    (noValue : g.NoValueKeys) (turns : Turns (.classic terms .allowed) g c rest) :
    Agenda terms g c rest := by
  induction turns with
  | @begun v c run =>
    have hstart : (Construction.start (.classic terms .allowed) g).Settled
        (.textual terms g) .allowed := .start ⟨.refl g, .refl g⟩
    obtain ⟨hgrows, -⟩ := grows_make hstart trivial run
    obtain ⟨new, hnew⟩ := hgrows.enqueues
    have hqueue : c.queue = new := hnew.queue
    refine ⟨hgrows.settled, fun j hj => ?_, ?_, fun j _ _ => by rw [hgrows.graph]; rfl⟩
    · rw [hqueue] at hj
      exact (hnew.built j).mpr (.inr hj)
    · rw [hqueue]
      exact hnew.nodup
  | @round c last ih =>
    have hqueue : c.queue ++ [] = [] ++ c.queue := List.append_nil _
    refine ⟨ih.settled.emptied, ?_, ?_, ?_⟩
    · rw [hqueue]
      exact ih.built
    · rw [hqueue]
      exact ih.nodup
    · rw [hqueue]
      exact ih.asWritten
  | filled turn run ih => exact ih.filled noValue run

/-- A mapping that repeats no key as it is written repeats none when its turn comes, unless a merge
key names it and it has one of its own. -/
theorem Turns.repeats {terms : Terms} {g : Graph} {c : Construction} {i : NodeId}
    {rest : List NodeId} {e : Entry} (noValue : g.NoValueKeys)
    (turn : Turns (.classic terms .allowed) g c (i :: rest))
    (written : ∀ e, ¬g.Repeats terms i e) (repeats : c.graph.Repeats terms i e) :
    g.MergeSource i ∧ g.Merges i := by
  have hagenda := turn.agenda noValue
  obtain ⟨hedited, htexts⟩ := hagenda.settled.graph
  have hchanged : c.graph.entries i ≠ g.entries i := fun hsame =>
    written e ((htexts.repeats_iff hsame).mp repeats)
  constructor
  · by_contra hsource
    exact hchanged (hagenda.asWritten i hsource fun _ => List.mem_cons_self)
  · by_contra hmerges
    exact hchanged (hedited.unmerged i hmerges)

namespace Graph

open Course.textual

variable {terms : Terms} {g : Graph} {d : Document}

/-- A document that is accepted with repeated keys allowed is accepted with repeated keys refused as
well, with the same value, or refused for a key that a mapping repeats when its turn comes. -/
theorem document_refused_in_turn_or (noValue : g.NoValueKeys)
    (accepted : g.document (.classic terms .allowed) = .ok d) :
    g.document (.classic terms .refused) = .ok d ∨
      ∃ err, g.document (.classic terms .refused) = .error err ∧ RefusedInTurn terms g err :=
  (decides noValue).document (Abreast.tracks _ _ _) (follows_root terms g) rfl accepted

/-- A document that is accepted under both policies repeats no key when a turn comes. -/
theorem not_repeats_in_turn (noValue : g.NoValueKeys)
    (allowed : g.document (.classic terms .allowed) = .ok d)
    (refused : g.document (.classic terms .refused) = .ok d) {c : Construction} {i : NodeId}
    {rest : List NodeId} (turn : Turns (.classic terms .allowed) g c (i :: rest)) (e : Entry) :
    ¬c.graph.Repeats terms i e :=
  (decides noValue).clear (Abreast.tracks _ _ _) (follows_root terms g) rfl allowed refused turn e

/-- Among the documents without plain values that are accepted with repeated keys allowed, and whose
mappings repeat no key as they are written, those are accepted with repeated keys refused, with the
same value, in which no mapping repeats a key when its turn comes; the others are refused with a
complaint at such a key.  A mapping that does so is named by a merge key and has a merge key of its
own, so a document without such mappings is accepted. -/
theorem document_overriding_iff (noValue : g.NoValueKeys)
    (written : ∀ i e, ¬g.Repeats terms i e)
    (allowed : g.document (.classic terms .allowed) = .ok d) :
    (g.document (.classic terms .refused) = .ok d ↔
      ∀ c i rest, Turns (.classic terms .allowed) g c (i :: rest) →
        ∀ e, ¬c.graph.Repeats terms i e) ∧
    (∀ err, g.document (.classic terms .refused) = .error err →
      ∃ c i rest e x, Turns (.classic terms .allowed) g c (i :: rest) ∧
        c.graph.Repeats terms i e ∧ c.graph.Denotes terms e.key x ∧
        err = repeatedKey (c.graph.node i).mark (c.graph.node e.key).mark x) ∧
    (∀ c i rest e, Turns (.classic terms .allowed) g c (i :: rest) →
      c.graph.Repeats terms i e → g.MergeSource i ∧ g.Merges i) ∧
    ((∀ i, g.MergeSource i → ¬g.Merges i) → g.document (.classic terms .refused) = .ok d) := by
  have outcome := document_refused_in_turn_or noValue allowed
  have chained : ∀ c i rest e, Turns (.classic terms .allowed) g c (i :: rest) →
      c.graph.Repeats terms i e → g.MergeSource i ∧ g.Merges i :=
    fun c i rest e turn => turn.repeats noValue (written i)
  refine ⟨⟨?_, ?_⟩, ?_, chained, ?_⟩
  · intro refused c i rest turn
    exact not_repeats_in_turn noValue allowed refused turn
  · intro hnone
    rcases outcome with hok | ⟨err, -, c, i, rest, turn, e, x, hrepeats, -⟩
    · exact hok
    · exact (hnone c i rest turn e hrepeats).elim
  · intro err herr
    rcases outcome with hok | ⟨err', herr', c, i, rest, turn, e, x, hrepeats, hx, hcomplaint⟩
    · rw [hok] at herr
      cases herr
    · rw [herr'] at herr
      cases herr
      exact ⟨c, i, rest, e, x, turn, hrepeats, hx, hcomplaint⟩
  · intro hplain
    rcases outcome with hok | ⟨err, -, c, i, rest, turn, e, x, hrepeats, -⟩
    · exact hok
    · obtain ⟨hsource, hmerges⟩ := chained c i rest e turn hrepeats
      exact (hplain i hsource hmerges).elim

/-- A list whose first item holds a mapping with a merge key and a key of its own, `x`, that the
merged mapping has too.  The second item merges that mapping before its turn comes. -/
def mergedEarly : Graph where
  root := 0
  nodes := #[
    ⟨Tag.seq, .sequence [1, 9], ⟨0, 0, 0⟩, none⟩,
    ⟨Tag.seq, .sequence [2], ⟨2, 0, 2⟩, none⟩,
    ⟨Tag.map, .mapping [⟨3, 4⟩, ⟨7, 8⟩], ⟨4, 0, 4⟩, none⟩,
    ⟨Tag.merge, .scalar "<<", ⟨8, 0, 8⟩, none⟩,
    ⟨Tag.map, .mapping [⟨5, 6⟩], ⟨12, 0, 12⟩, none⟩,
    ⟨Tag.str, .scalar "x", ⟨13, 0, 13⟩, none⟩,
    ⟨Tag.int, .scalar "1", ⟨16, 0, 16⟩, none⟩,
    ⟨Tag.str, .scalar "x", ⟨20, 0, 20⟩, none⟩,
    ⟨Tag.int, .scalar "2", ⟨23, 0, 23⟩, none⟩,
    ⟨Tag.map, .mapping [⟨10, 2⟩], ⟨28, 1, 2⟩, none⟩,
    ⟨Tag.merge, .scalar "<<", ⟨29, 1, 3⟩, none⟩]

def mergedEarlyText : List UInt8 :=
  "- - &b \x7b<<: \x7bx: 1\x7d, x: 2\x7d\n- \x7b<<: *b\x7d\n".toList.map
    fun c => c.toNat.toUInt8

theorem mergedEarly_allowed :
    ∃ d, mergedEarly.document (.classic .classic .allowed) = .ok d :=
  exists_document (by decide +kernel)

theorem mergedEarly_written (i : NodeId) (e : Entry) : ¬mergedEarly.Repeats .classic i e :=
  not_repeats_of_pairwise (by decide +kernel) i e

/-- The key `x` is refused as repeated, although no mapping of the text repeats a key and the text
is accepted with repeated keys allowed. -/
theorem mergedEarlyText_refused :
    ¬∀ (bytes : List UInt8) (t : Draft) (d : Document),
      t ∈ (read .usual .classic bytes).drafts →
      t.graph.NoValueKeys → (∀ i e, ¬t.graph.Repeats t.terms i e) →
      t.document .classic .allowed = .ok d → t.document .classic .refused = .ok d := by
  intro h
  obtain ⟨d, hallowed⟩ := mergedEarly_allowed
  have hread : (read .usual .classic mergedEarlyText).drafts.map (fun t => (t.terms, t.graph)) =
      [(.classic, mergedEarly)] := by decide +kernel
  obtain ⟨t, ht, hsame⟩ := List.mem_map.mp (hread ▸ List.mem_singleton_self _)
  obtain ⟨terms, g⟩ := t
  cases hsame
  have hstrict := h mergedEarlyText _ d ht (by decide +kernel) mergedEarly_written hallowed
  have herror : (mergedEarly.document (.classic .classic .refused)).isOk = false := by
    decide +kernel
  have hok : mergedEarly.document (.classic .classic .refused) = .ok d := hstrict
  rw [hok] at herror
  cases herror

theorem mergedEarly_refused : mergedEarly.NoValueKeys ∧
    (∀ i e, ¬mergedEarly.Repeats .classic i e) ∧
    (∃ d, mergedEarly.document (.classic .classic .allowed) = .ok d) ∧
    ∃ c i rest e, Turns (.classic .classic .allowed) mergedEarly c (i :: rest) ∧
      c.graph.Repeats .classic i e ∧ mergedEarly.MergeSource i ∧ mergedEarly.Merges i := by
  have noValue : mergedEarly.NoValueKeys := by decide +kernel
  obtain ⟨d, hallowed⟩ := mergedEarly_allowed
  refine ⟨noValue, mergedEarly_written, ⟨d, hallowed⟩, ?_⟩
  obtain ⟨-, hrefused, hchained, -⟩ :=
    document_overriding_iff noValue mergedEarly_written hallowed
  have herror : (mergedEarly.document (.classic .classic .refused)).isOk = false := by
    decide +kernel
  cases hstrict : mergedEarly.document (.classic .classic .refused) with
  | ok d =>
    rw [hstrict] at herror
    cases herror
  | error err =>
    obtain ⟨c, i, rest, e, x, turn, hrepeats, -⟩ := hrefused err hstrict
    exact ⟨c, i, rest, e, turn, hrepeats, hchained c i rest e turn hrepeats⟩

end Graph

end YamlCheck.Yaml
