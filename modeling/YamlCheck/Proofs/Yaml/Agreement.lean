import YamlCheck.Proofs.Yaml.Checking
import YamlCheck.Proofs.Yaml.Composed
import YamlCheck.Proofs.Yaml.Turns

/-!
# When the dialects agree

With repeated keys allowed, two readings of one document are filled in step, whatever the dialects:
the same collections take their turns in the same order, in graphs that stay two readings of one
document.  So with repeated keys refused both dialects come to the same mappings that repeat a key.
The classic dialect refuses each of them, the modern one only those that gain nothing by a merge
key, and the verdicts differ exactly if none is of that kind.
-/

namespace YamlCheck.Yaml

open Build Construction

/-! ## In step -/

/-- Two constructions that have come equally far in two readings of one document. -/
structure Parallel (r r' : Rules) (s l : Construction) : Prop where
  rules : s.rules = r
  rules' : l.rules = r'
  limits : r'.limits = r.limits
  quiet : s.Quiet
  quiet' : l.Quiet
  alike : s.graph.Alike l.graph
  orderly : s.graph.Orderly
  roster : s.roster = l.roster

namespace Parallel

variable {r r' : Rules} {s s' l l' : Construction} {i : NodeId} {n m : Nat}

theorem queue (h : Parallel r r' s l) : s.queue = l.queue := congrArg Roster.queue h.roster

theorem emptied (h : Parallel r r' s l) :
    Parallel r r' { s with queue := [] } { l with queue := [] } where
  rules := h.rules
  rules' := h.rules'
  limits := h.limits
  quiet := h.quiet.emptied
  quiet' := h.quiet'.emptied
  alike := h.alike
  orderly := h.orderly
  roster := by
    have hbuilt : s.holds = l.holds := congrArg Roster.built h.roster
    have hsame : (⟨[], s.holds⟩ : Roster) = ⟨[], l.holds⟩ := by rw [hbuilt]
    exact hsame

theorem symm (h : Parallel r r' s l) : Parallel r' r l s where
  rules := h.rules'
  rules' := h.rules
  limits := h.limits.symm
  quiet := h.quiet'
  quiet' := h.quiet
  alike := h.alike.symm
  orderly := h.alike.orderly h.orderly
  roster := h.roster.symm

theorem start {g g' : Graph} (limits : r'.limits = r.limits) (alike : g.Alike g')
    (orderly : g.Orderly) : Parallel r r' (Construction.start r g) (Construction.start r' g') where
  rules := rfl
  rules' := rfl
  limits := limits
  quiet := .start r g
  quiet' := .start r' g'
  alike := alike
  orderly := orderly
  roster := by
    have hnone : ∀ (r : Rules) (g : Graph), (Construction.start r g).holds = fun _ => false := by
      intro r g
      funext j
      unfold holds
      rw [stage_start]
    unfold Construction.roster
    rw [hnone, hnone]
    rfl

/-- Both constructions call on the same node. -/
theorem part {v v' : Value} (h : Parallel r r' s l)
    (run : (make (n + 1) i false).run s = .ok (v, s'))
    (run' : (make (m + 1) i false).run l = .ok (v', l')) : Parallel r r' s' l' := by
  have hcalls := calls_part h.quiet run
  have hcalls' := calls_part h.quiet' run'
  have hcollects : l.graph.collects = s.graph.collects := funext h.alike.collects_eq
  refine ⟨hcalls.rules.trans h.rules, hcalls'.rules.trans h.rules', h.limits, hcalls.quiet,
    hcalls'.quiet, ?_, ?_, ?_⟩
  · rw [hcalls.graph, hcalls'.graph]
    exact h.alike
  · rw [hcalls.graph]
    exact h.orderly
  · rw [hcalls.roster, hcalls'.roster, hcollects, h.roster]

theorem of_filled {g g' : Graph} {parts : List NodeId} (h : Parallel r r' s l)
    (filled : Filled s s' g parts) (filled' : Filled l l' g' parts) (alike : g.Alike g')
    (orderly : g.Orderly) : Parallel r r' s' l' := by
  have hcollects : g'.collects = g.collects := funext alike.collects_eq
  refine ⟨filled.rules.trans h.rules, filled'.rules.trans h.rules', h.limits, filled.quiet,
    filled'.quiet, ?_, ?_, ?_⟩
  · rw [filled.graph, filled'.graph]
    exact alike
  · rw [filled.graph]
    exact orderly
  · rw [filled.roster, filled'.roster, hcollects, h.roster]

theorem itemParts_eq {g g' : Graph} (alike : g.Alike g') (i : NodeId) (items : List NodeId) :
    g'.itemParts i items = g.itemParts i items := by
  have hseq : ((g'.node i).tag == Tag.seq) = ((g.node i).tag == Tag.seq) := by
    rcases alike.tag i with hsame | ⟨hnone, hnone'⟩
    · rw [hsame]
    · have other : ∀ h : Graph, h.collects i = false → ((h.node i).tag == Tag.seq) = false := by
        intro h hscalar
        by_contra hseq
        have htag : (h.node i).tag = Tag.seq := by simpa using hseq
        unfold Graph.collects at hscalar
        rw [htag] at hscalar
        cases hscalar
      rw [other g hnone, other g' hnone']
  unfold Graph.itemParts
  rw [hseq]
  simp only [alike.entries]

/-- Both constructions fill the same collection. -/
theorem fill (h : Parallel r r' s l) (allowed : r.duplicates = .allowed)
    (allowed' : r'.duplicates = .allowed) (run : (fill (make (n + 1)) i).run s = .ok ((), s'))
    (run' : (Build.fill (make (m + 1)) i).run l = .ok ((), l')) : Parallel r r' s' l' := by
  have horderly' : l.graph.Orderly := h.alike.orderly h.orderly
  have hcontent := h.alike.content i
  rcases filled_ways h.quiet h.orderly (by rw [h.rules]; exact allowed) run with
    ⟨hkind, g, hreplace, hfilled⟩ | ⟨items, hitems, hfilled⟩
  · have hlimits : l.rules.limits = s.rules.limits := by rw [h.rules, h.rules', h.limits]
    obtain ⟨g', hreplace', hpassed⟩ :=
      Merging.replace_mirrors hlimits h.alike h.orderly hkind hreplace
    rcases filled_ways h.quiet' horderly' (by rw [h.rules']; exact allowed') run' with
      ⟨-, g₁, hreplace₁, hfilled'⟩ | ⟨items, hitems', -⟩
    · rw [hreplace'] at hreplace₁
      cases hreplace₁
      rw [hpassed.alike.entries] at hfilled'
      exact h.of_filled hfilled hfilled' hpassed.alike hpassed.orderly
    · rw [← hcontent, hitems'] at hkind
      cases hkind
  · rcases filled_ways h.quiet' horderly' (by rw [h.rules']; exact allowed') run' with
      ⟨hkind', -⟩ | ⟨items', hitems', hfilled'⟩
    · rw [hcontent, hitems] at hkind'
      cases hkind'
    · rw [hcontent, hitems] at hitems'
      cases hitems'
      rw [itemParts_eq h.alike] at hfilled'
      exact h.of_filled hfilled hfilled' h.alike h.orderly

end Parallel

/-- With repeated keys allowed, each state between two turns of one construction has its counterpart
in the other one. -/
theorem Turns.parallel {r r' : Rules} {g g' : Graph} {s : Construction} {rest : List NodeId}
    {d' : Document} (limits : r'.limits = r.limits) (alike : g.Alike g') (orderly : g.Orderly)
    (allowed : r.duplicates = .allowed) (allowed' : r'.duplicates = .allowed)
    (accepted' : g'.document r' = .ok d')
    (turns : Turns r g s rest) : ∃ l, Turns r' g' l rest ∧ Parallel r r' s l := by
  induction turns with
  | @begun v s run =>
    obtain ⟨c', hrun⟩ := Graph.document_eq_ok.mp accepted'
    obtain ⟨v', l, hroot, -⟩ := run_document_ok hrun
    have hroot' := hroot
    rw [alike.root] at hroot'
    exact ⟨l, .begun hroot, (Parallel.start limits alike orderly).part run hroot'⟩
  | @round s last ih =>
    obtain ⟨l, hturns, h⟩ := ih
    rw [h.queue]
    exact ⟨_, .round hturns, h.emptied⟩
  | @filled s s' i rest turn run ih =>
    obtain ⟨l, hturns, h⟩ := ih
    obtain ⟨l', hfill, -⟩ := (hturns.finishes accepted').turn
    exact ⟨l', .filled hturns hfill, h.fill allowed allowed' run hfill⟩

/-! ## What each dialect refuses -/

namespace Parallel

variable {r r' : Rules} {s l : Construction} {i : NodeId} {terms terms' : Terms}

theorem repeats_iff (h : Parallel r r' s l) :
    (∃ e, s.graph.Repeats terms i e) ↔ ∃ e, l.graph.Repeats terms' i e := by
  rw [h.orderly.repeats_iff, (h.alike.orderly h.orderly).repeats_iff, h.alike.ownKeys_eq]

theorem gains_iff {g : Graph} (h : Parallel r r' s l)
    (mapping : (s.graph.node i).content.kind = .mapping)
    (run : (Merging.replace r i).run s.graph = .ok ((), g)) :
    s.graph.Gains r i ↔ l.graph.Gains r' i := by
  obtain ⟨g', hrun', hpassed⟩ := Merging.replace_mirrors h.limits h.alike h.orderly mapping run
  rw [Graph.gains_iff run, Graph.gains_iff hrun', hpassed.alike.merged]

/-- The modern dialect refuses a mapping exactly if it repeats a key and gains nothing in the other
reading as well. -/
theorem refusedUnmerged_iff {s' : Construction} {n : Nat}
    (h : Parallel r (.modern terms' .allowed) s l) (allowed : r.duplicates = .allowed)
    (run : (Build.fill (make (n + 1)) i).run s = .ok ((), s')) :
    RefusedUnmerged terms' l.graph i ↔
      (∃ e, s.graph.Repeats terms i e) ∧ ¬s.graph.Gains r i := by
  unfold RefusedUnmerged
  rw [← h.repeats_iff]
  refine and_congr_right fun hrepeats => not_congr ?_
  obtain ⟨e, hrepeats⟩ := hrepeats
  have hkind := hrepeats.kind
  rcases filled_ways h.quiet h.orderly (by rw [h.rules]; exact allowed) run with
    ⟨-, g, hreplace, -⟩ | ⟨items, hitems, -⟩
  · rw [h.rules] at hreplace
    exact (h.gains_iff hkind hreplace).symm
  · rw [hitems] at hkind
    cases hkind

end Parallel

namespace Strict

variable {terms : Terms} {g : Graph} {d : Document}

theorem decides (terms : Terms) : Decides (Strict terms)
    (fun c i => ¬RefusedUnmerged terms c.graph i)
    (fun c i err => RefusedUnmerged terms c.graph i ∧ ComplainsOfKey err) :=
  fun _ _ _ _ _ h run => h.fill_outcome run

theorem follows_root (orderly : g.Orderly) : ∀ n, Follows (Strict terms) neverRefused
    (Build.make (n + 1) g.root false) (Build.make (n + 1) g.root false)
    (Construction.start (.modern terms .allowed) g)
    (Construction.start (.modern terms .refused) g) :=
  fun _ => (Strict.start orderly).make g.root

end Strict

namespace Graph

variable {terms : Terms} {limits : Limits} {schema schema' : Schema} {g g' : Graph}
  {d d' : Document}

def Rejected (g : Graph) (r : Rules) : Prop := ∃ err, g.document r = .error err

theorem not_rejected_of_ok {r : Rules} (accepted : g.document r = .ok d) : ¬g.Rejected r := by
  rintro ⟨err, herr⟩
  rw [accepted] at herr
  cases herr

theorem rejected_of_isOk {r : Rules} (h : (g.document r).isOk = false) : g.Rejected r := by
  unfold Rejected
  cases hdocument : g.document r with
  | error e => exact ⟨e, rfl⟩
  | ok d =>
    rw [hdocument] at h
    cases h

theorem TextKeys.noValueKeys (keys : g.TextKeys) : g.NoValueKeys := by
  intro i hi e he
  obtain ⟨-, hstr | hmerge⟩ := keys i hi e he
  · rw [hstr]
    decide
  · rw [hmerge]
    decide

/-- The classic dialect rejects a document for any mapping that repeats a key when its turn
comes. -/
theorem classic_rejected_iff (noValue : g.NoValueKeys)
    (accepted : g.document (.classic terms .allowed) = .ok d) :
    g.Rejected (.classic terms .refused) ↔
      ∃ c i rest e, Turns (.classic terms .allowed) g c (i :: rest) ∧
        c.graph.Repeats terms i e := by
  have outcome := document_refused_in_turn_or noValue accepted
  constructor
  · rintro ⟨err, herr⟩
    rcases outcome with hok | ⟨-, -, c, i, rest, turn, e, x, hrepeats, -⟩
    · exact (not_rejected_of_ok hok ⟨err, herr⟩).elim
    · exact ⟨c, i, rest, e, turn, hrepeats⟩
  · rintro ⟨c, i, rest, e, turn, hrepeats⟩
    rcases outcome with hok | ⟨err, herr, -⟩
    · exact (not_repeats_in_turn noValue accepted hok turn e hrepeats).elim
    · exact ⟨err, herr⟩

/-- The modern dialect rejects a document only for a mapping that repeats a key when its turn comes
and gains nothing, and it complains of a key then. -/
theorem modern_rejected_iff (orderly : g.Orderly)
    (accepted : g.document (.modern terms .allowed) = .ok d) :
    (g.Rejected (.modern terms .refused) ↔
      ∃ c i rest, Turns (.modern terms .allowed) g c (i :: rest) ∧
        RefusedUnmerged terms c.graph i) ∧
    ∀ err, g.document (.modern terms .refused) = .error err → ComplainsOfKey err := by
  have outcome := (Strict.decides terms).document (Strict.tracks terms)
    (Strict.follows_root orderly) rfl accepted
  refine ⟨⟨?_, ?_⟩, fun err herr => ?_⟩
  · rintro ⟨err, herr⟩
    rcases outcome with hok | ⟨-, -, c, i, rest, turn, hrefused, -⟩
    · exact (not_rejected_of_ok hok ⟨err, herr⟩).elim
    · exact ⟨c, i, rest, turn, hrefused⟩
  · rintro ⟨c, i, rest, turn, hrefused⟩
    rcases outcome with hok | ⟨err, herr, -⟩
    · have hclear := (Strict.decides terms).clear (Strict.tracks terms)
        (Strict.follows_root orderly) rfl accepted hok turn
      exact (hclear hrefused).elim
    · exact ⟨err, herr⟩
  · rcases outcome with hok | ⟨err', herr', c, i, rest, -, -, hcomplains⟩
    · exact (not_rejected_of_ok hok ⟨err, herr⟩).elim
    · rw [herr'] at herr
      cases herr
      exact hcomplains

/-- The modern dialect comes to the same mappings in its reading as the classic one does in its
own. -/
theorem modern_rejected_iff_classic (alike : g.Alike g') (orderly : g.Orderly)
    (accepted : g.document (.classic ⟨limits, schema⟩ .allowed) = .ok d)
    (accepted' : g'.document (.modern ⟨limits, schema'⟩ .allowed) = .ok d') :
    g'.Rejected (.modern ⟨limits, schema'⟩ .refused) ↔
      ∃ c i rest e, Turns (.classic ⟨limits, schema⟩ .allowed) g c (i :: rest) ∧
        c.graph.Repeats ⟨limits, schema⟩ i e ∧
        ¬c.graph.Gains (.classic ⟨limits, schema⟩ .allowed) i := by
  have horderly' := alike.orderly orderly
  have hlimits : (Rules.modern ⟨limits, schema'⟩ .allowed).limits =
      (Rules.classic ⟨limits, schema⟩ .allowed).limits := rfl
  rw [(modern_rejected_iff horderly' accepted').1]
  constructor
  · rintro ⟨l, i, rest, turn, hrefused⟩
    obtain ⟨c, hturn, h⟩ := turn.parallel hlimits.symm alike.symm horderly' rfl rfl accepted
    obtain ⟨c', hfill, -⟩ := (hturn.finishes accepted).turn
    obtain ⟨⟨e, hrepeats⟩, hgains⟩ :=
      (h.symm.refusedUnmerged_iff rfl hfill).mp hrefused
    exact ⟨c, i, rest, e, hturn, hrepeats, hgains⟩
  · rintro ⟨c, i, rest, e, turn, hrepeats, hgains⟩
    obtain ⟨l, hturn, h⟩ := turn.parallel hlimits alike orderly rfl rfl accepted'
    obtain ⟨c', hfill, -⟩ := (turn.finishes accepted).turn
    exact ⟨l, i, rest, hturn, (h.refusedUnmerged_iff rfl hfill).mpr ⟨⟨e, hrepeats⟩, hgains⟩⟩

/-- A mapping that gains something when its turn comes had a merge key from the start. -/
theorem merges_of_gains {c : Construction} {i : NodeId} {rest : List NodeId} {e : Entry}
    (noValue : g.NoValueKeys) (unmerged : g.Unmerged)
    (turn : Turns (.classic terms .allowed) g c (i :: rest))
    (gains : c.graph.Gains (.classic terms .allowed) i) (repeats : c.graph.Repeats terms i e) :
    g.Merges i := by
  obtain ⟨hedited, -⟩ := (turn.agenda noValue).settled.graph
  obtain ⟨h, hreplace, hmerged⟩ := gains
  have hreplaced : g.Edited h :=
    hedited.edits (Merging.replace_edits hedited repeats.kind hreplace)
  have hlt : i < g.nodes.size := by
    refine lt_size_of_kind ?_
    rw [← hedited.flat.kind, repeats.kind]
    simp
  by_contra hmerges
  rw [hreplaced.ungained i hmerges, unmerged i hlt] at hmerged
  exact hmerged rfl

/-- A document whose keys are texts and merge keys, at most one of these in a mapping, and that both
dialects accept with repeated keys allowed.  The classic dialect rejects it for each mapping that
repeats a key when its turn comes, the modern one only for those that gain nothing by then.  So the
modern dialect rejects less, and both agree if the mappings with merge keys repeat no key and are
named by no merge key. -/
theorem document_rejected_iff {es es' : List (Schema × Event)}
    (composed : g.ComposedOf limits es) (composed' : g'.ComposedOf limits es')
    (kinds : eventKinds es' = eventKinds es) (keys : g.TextKeys) (keys' : g'.TextKeys)
    (single : g.SingleMerges)
    (accepted : g.document (.classic ⟨limits, schema⟩ .allowed) = .ok d)
    (accepted' : g'.document (.modern ⟨limits, schema'⟩ .allowed) = .ok d') :
    (g.Rejected (.classic ⟨limits, schema⟩ .refused) ↔
      ∃ c i rest e, Turns (.classic ⟨limits, schema⟩ .allowed) g c (i :: rest) ∧
        c.graph.Repeats ⟨limits, schema⟩ i e) ∧
    (g'.Rejected (.modern ⟨limits, schema'⟩ .refused) ↔
      ∃ c i rest e, Turns (.classic ⟨limits, schema⟩ .allowed) g c (i :: rest) ∧
        c.graph.Repeats ⟨limits, schema⟩ i e ∧
        ¬c.graph.Gains (.classic ⟨limits, schema⟩ .allowed) i) ∧
    (g'.Rejected (.modern ⟨limits, schema'⟩ .refused) →
      g.Rejected (.classic ⟨limits, schema⟩ .refused)) ∧
    ((∀ i, g.Merges i → ¬g.MergeSource i ∧ ∀ e, ¬g.Repeats ⟨limits, schema⟩ i e) →
      (g.Rejected (.classic ⟨limits, schema⟩ .refused) ↔
        g'.Rejected (.modern ⟨limits, schema'⟩ .refused))) := by
  have alike := composed.alike composed' kinds keys keys'
  have orderly := orderly_of_read keys single composed.unmerged
  have classic := classic_rejected_iff keys.noValueKeys accepted
  have modern := modern_rejected_iff_classic alike orderly accepted accepted'
  have less : g'.Rejected (.modern ⟨limits, schema'⟩ .refused) →
      g.Rejected (.classic ⟨limits, schema⟩ .refused) := by
    rw [classic, modern]
    rintro ⟨c, i, rest, e, turn, hrepeats, -⟩
    exact ⟨c, i, rest, e, turn, hrepeats⟩
  refine ⟨classic, modern, less, fun apart => ⟨?_, less⟩⟩
  rw [classic, modern]
  rintro ⟨c, i, rest, e, turn, hrepeats⟩
  refine ⟨c, i, rest, e, turn, hrepeats, fun hgains => ?_⟩
  have hmerges := merges_of_gains keys.noValueKeys composed.unmerged turn hgains hrepeats
  obtain ⟨hsource, hwritten⟩ := apart i hmerges
  exact hsource (turn.repeats keys.noValueKeys hwritten hrepeats).1

/-- A mapping with a merge key that repeats the key `a`; the dialects give the first value of this
key different tags. -/
def overlooked (tag : String) : Graph where
  root := 0
  nodes := #[
    ⟨Tag.map, .mapping [⟨1, 2⟩, ⟨3, 4⟩, ⟨5, 6⟩], ⟨0, 0, 0⟩, none⟩,
    ⟨Tag.str, .scalar "a", ⟨1, 0, 1⟩, none⟩,
    ⟨tag, .scalar "yes", ⟨6, 0, 6⟩, none⟩,
    ⟨Tag.str, .scalar "a", ⟨11, 0, 11⟩, none⟩,
    ⟨Tag.str, .scalar "2", ⟨16, 0, 16⟩, none⟩,
    ⟨Tag.merge, .scalar "<<", ⟨21, 0, 21⟩, none⟩,
    ⟨Tag.map, .mapping [⟨7, 8⟩], ⟨25, 0, 25⟩, none⟩,
    ⟨Tag.str, .scalar "b", ⟨26, 0, 26⟩, none⟩,
    ⟨Tag.str, .scalar "1", ⟨31, 0, 31⟩, none⟩]

def overlookedEvents (schema : Schema) : List (Schema × Event) :=
  [⟨.mappingStart {}, ⟨0, 0, 0⟩⟩, ⟨.scalar {} false "a", ⟨1, 0, 1⟩⟩,
    ⟨.scalar {} true "yes", ⟨6, 0, 6⟩⟩, ⟨.scalar {} false "a", ⟨11, 0, 11⟩⟩,
    ⟨.scalar {} false "2", ⟨16, 0, 16⟩⟩, ⟨.scalar {} true "<<", ⟨21, 0, 21⟩⟩,
    ⟨.mappingStart {}, ⟨25, 0, 25⟩⟩, ⟨.scalar {} false "b", ⟨26, 0, 26⟩⟩,
    ⟨.scalar {} false "1", ⟨31, 0, 31⟩⟩, ⟨.mappingEnd, ⟨34, 0, 34⟩⟩,
    ⟨.mappingEnd, ⟨35, 0, 35⟩⟩].map fun e => (schema, e)

def overlookedText : List UInt8 :=
  "\x7b\"a\": yes, \"a\": \"2\", <<: \x7b\"b\": \"1\"\x7d\x7d\n".toList.map
    fun c => c.toNat.toUInt8

theorem overlooked_classic : (overlooked Tag.bool).Rejected (.classic .classic .refused) :=
  rejected_of_isOk (by decide +kernel)

theorem overlooked_modern :
    ¬(overlooked Tag.str).Rejected (.modern ⟨.usual, .modern12⟩ .refused) := by
  obtain ⟨d, hok⟩ : ∃ d,
      (overlooked Tag.str).document (.modern ⟨.usual, .modern12⟩ .refused) = .ok d :=
    exists_document (by decide +kernel)
  exact not_rejected_of_ok hok

/-- The dialects disagree about a text whose keys are quoted or a merge key, and which both accept
with repeated keys allowed. -/
theorem overlookedText_disputed :
    ¬∀ (bytes : List UInt8) (t t' : Draft) (d d' : Document),
      (t, t') ∈ (read .usual .classic bytes).drafts.zip (read .usual .modern bytes).drafts →
      t.graph.TextKeys → t'.graph.TextKeys →
      t.document .classic .allowed = .ok d → t'.document .modern .allowed = .ok d' →
      (t.graph.Rejected (.classic t.terms .refused) ↔
        t'.graph.Rejected (.modern t'.terms .refused)) := by
  intro h
  have hread : ((read .usual .classic overlookedText).drafts.zip
        (read .usual .modern overlookedText).drafts).map
      (fun p => ((p.1.terms, p.1.graph), p.2.terms, p.2.graph)) =
      [((.classic, overlooked Tag.bool), ⟨.usual, .modern12⟩, overlooked Tag.str)] := by
    decide +kernel
  obtain ⟨⟨⟨terms, g⟩, terms', g'⟩, hmem, hsame⟩ := List.mem_map.mp
    (hread ▸ List.mem_singleton_self _)
  cases hsame
  obtain ⟨d, hd⟩ : ∃ d, (overlooked Tag.bool).document (.classic .classic .allowed) = .ok d :=
    exists_document (by decide +kernel)
  obtain ⟨d', hd'⟩ : ∃ d,
      (overlooked Tag.str).document (.modern ⟨.usual, .modern12⟩ .allowed) = .ok d :=
    exists_document (by decide +kernel)
  have hagree := h overlookedText _ _ d d' hmem (by decide +kernel) (by decide +kernel) hd hd'
  exact overlooked_modern (hagree.mp overlooked_classic)

/-- The classic dialect rejects the mapping, and the modern one does not since it gains a key. -/
theorem overlooked_rejected :
    (overlooked Tag.bool).ComposedOf .usual (overlookedEvents .classic) ∧
    (overlooked Tag.str).ComposedOf .usual (overlookedEvents .modern12) ∧
    (overlooked Tag.bool).TextKeys ∧ (overlooked Tag.str).TextKeys ∧
    (overlooked Tag.bool).SingleMerges ∧
    (∃ d, (overlooked Tag.bool).document (.classic .classic .allowed) = .ok d) ∧
    (∃ d', (overlooked Tag.str).document (.modern ⟨.usual, .modern12⟩ .allowed) = .ok d') ∧
    ∃ c i rest e, Turns (.classic .classic .allowed) (overlooked Tag.bool) c (i :: rest) ∧
      c.graph.Repeats .classic i e ∧ c.graph.Gains (.classic .classic .allowed) i := by
  have composed : (overlooked Tag.bool).ComposedOf .usual (overlookedEvents .classic) := by
    decide +kernel
  have composed' : (overlooked Tag.str).ComposedOf .usual (overlookedEvents .modern12) := by
    decide +kernel
  have keys : (overlooked Tag.bool).TextKeys := by decide +kernel
  have keys' : (overlooked Tag.str).TextKeys := by decide +kernel
  have single : (overlooked Tag.bool).SingleMerges := by decide +kernel
  obtain ⟨d, hd⟩ : ∃ d, (overlooked Tag.bool).document (.classic .classic .allowed) = .ok d :=
    exists_document (by decide +kernel)
  obtain ⟨d', hd'⟩ : ∃ d,
      (overlooked Tag.str).document (.modern ⟨.usual, .modern12⟩ .allowed) = .ok d :=
    exists_document (by decide +kernel)
  refine ⟨composed, composed', keys, keys', single, ⟨d, hd⟩, ⟨d', hd'⟩, ?_⟩
  obtain ⟨hclassic, hmodern, -⟩ :=
    document_rejected_iff composed composed' rfl keys keys' single hd hd'
  obtain ⟨c, i, rest, e, turn, hrepeats⟩ := hclassic.mp overlooked_classic
  refine ⟨c, i, rest, e, turn, hrepeats, ?_⟩
  by_contra hgains
  exact overlooked_modern (hmodern.mpr ⟨c, i, rest, e, turn, hrepeats, hgains⟩)

end Graph

/-! ## Streams -/

/-- Whether two documents are composed of events of the same kinds. -/
def Draft.Counterparts (limits : Limits) (t t' : Draft) : Prop :=
  ∃ es es', t.graph.ComposedOf limits es ∧ t'.graph.ComposedOf limits es' ∧
    eventKinds es' = eventKinds es

/-- Streams that are read as events of the same kinds consist of counterparts. -/
theorem counterparts_of_read {limits : Limits} {bytes : List UInt8}
    (kinds : (readEvents limits .modern bytes).map eventKinds =
      (readEvents limits .classic bytes).map eventKinds) :
    List.Forall₂ (Draft.Counterparts limits) (read limits .classic bytes).drafts
      (read limits .modern bytes).drafts := by
  have hclassic := composed_of_read limits .classic bytes
  have hmodern := composed_of_read limits .modern bytes
  generalize (read limits .classic bytes).drafts = ts at hclassic ⊢
  generalize (read limits .modern bytes).drafts = ts' at hmodern ⊢
  generalize readEvents limits .classic bytes = streams at kinds hclassic
  generalize readEvents limits .modern bytes = streams' at kinds hmodern
  induction hclassic generalizing ts' streams' with
  | nil =>
    obtain rfl : streams' = [] := List.map_eq_nil_iff.mp kinds
    cases hmodern
    exact .nil
  | @cons t es ts streams hcomposed _ ih =>
    cases hmodern with
    | nil => cases kinds
    | cons hcomposed' hrest =>
      obtain ⟨hkind, hkinds⟩ := List.cons.inj kinds
      exact .cons ⟨_, _, hcomposed, hcomposed', hkind⟩ (ih _ _ hkinds hrest)

/-- What makes both dialects agree about a document: its keys are texts and merge keys, at most one
of these in a mapping, and the mappings with merge keys repeat no key and are named by no merge
key. -/
structure Draft.Apart (t : Draft) : Prop where
  keys : t.graph.TextKeys
  single : t.graph.SingleMerges
  apart : ∀ i, t.graph.Merges i → ¬t.graph.MergeSource i ∧ ∀ e, ¬t.graph.Repeats t.terms i e

theorem Graph.not_rejected_iff {g : Graph} {r : Rules} :
    ¬g.Rejected r ↔ ∃ d, g.document r = .ok d := by
  constructor
  · intro h
    cases hdocument : g.document r with
    | error e => exact (h ⟨e, hdocument⟩).elim
    | ok d => exact ⟨d, rfl⟩
  · rintro ⟨d, hok⟩
    exact not_rejected_of_ok hok

theorem Draft.Counterparts.document_iff {limits : Limits} {t t' : Draft} {d d' : Document}
    (h : t.Counterparts limits t') (terms : t.terms.limits = limits)
    (terms' : t'.terms.limits = limits) (apart : t.Apart) (keys : t'.graph.TextKeys)
    (accepted : t.document .classic .allowed = .ok d)
    (accepted' : t'.document .modern .allowed = .ok d') :
    (∃ v, t.document .classic .refused = .ok v) ↔ ∃ v, t'.document .modern .refused = .ok v := by
  obtain ⟨es, es', composed, composed', kinds⟩ := h
  obtain ⟨⟨l, schema⟩, g⟩ := t
  obtain ⟨⟨l', schema'⟩, g'⟩ := t'
  change l = limits at terms
  change l' = limits at terms'
  subst terms terms'
  obtain ⟨-, -, -, hagree⟩ := Graph.document_rejected_iff composed composed' kinds apart.keys keys
    apart.single accepted accepted'
  have hverdict := not_congr (hagree apart.apart)
  rwa [Graph.not_rejected_iff, Graph.not_rejected_iff] at hverdict

/-- Both backends give the same verdict on a stream that they read as events of the same kinds and
accept with repeated keys allowed, if its documents keep merge keys and repeated keys apart. -/
theorem load_agrees {limits : Limits} {bytes : List UInt8}
    (kinds : (readEvents limits .modern bytes).map eventKinds =
      (readEvents limits .classic bytes).map eventKinds)
    (apart : ∀ t ∈ (read limits .classic bytes).drafts, t.Apart)
    (keys : ∀ t ∈ (read limits .modern bytes).drafts, t.graph.TextKeys)
    (accepted : (load limits .classic .allowed bytes).error = none)
    (accepted' : (load limits .modern .allowed bytes).error = none) :
    (load limits .classic .refused bytes).error = none ↔
      (load limits .modern .refused bytes).error = none := by
  have hpairs := counterparts_of_read kinds
  rw [load_eq, buildAll_error_eq_none_iff] at accepted accepted' ⊢
  rw [load_eq, buildAll_error_eq_none_iff]
  obtain ⟨hread, haccepted⟩ := accepted
  obtain ⟨hread', haccepted'⟩ := accepted'
  have hlimits : ∀ t ∈ (read limits .classic bytes).drafts, t.terms.limits = limits :=
    fun t => limits_of_mem_drafts
  have hlimits' : ∀ t ∈ (read limits .modern bytes).drafts, t.terms.limits = limits :=
    fun t => limits_of_mem_drafts
  simp only [hread, hread', true_and]
  generalize (read limits .classic bytes).drafts = ts at *
  generalize (read limits .modern bytes).drafts = ts' at *
  induction hpairs with
  | nil => simp
  | @cons t t' ts ts' hcounterparts _ ih =>
    rw [List.forall_mem_cons] at apart keys haccepted haccepted' hlimits hlimits'
    obtain ⟨d, hd⟩ := haccepted.1
    obtain ⟨d', hd'⟩ := haccepted'.1
    rw [List.forall_mem_cons, List.forall_mem_cons]
    exact and_congr (hcounterparts.document_iff hlimits.1 hlimits'.1 apart.1 keys.1 hd hd')
      (ih apart.2 haccepted.2 hlimits.2 keys.2 haccepted'.2 hlimits'.2)

end YamlCheck.Yaml
