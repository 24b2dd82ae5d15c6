import YamlCheck.Proofs.Yaml.Breaking
import YamlCheck.Proofs.Yaml.Roster

/-!
# Repeated keys in the modern dialect

The modern dialect looks for repeated keys while it fills a mapping, and only in a mapping that
nothing was merged into.  So with repeated keys refused it takes the steps that it takes with
repeated keys allowed, up to the first mapping that repeats a key and has gained nothing.
-/

namespace YamlCheck.Yaml

open YamlCheck.Text

open Build Construction

def Rules.modern (terms : Terms) (duplicates : Duplicates) : Rules :=
  ⟨terms, .modern, duplicates⟩

namespace Graph

/-! ## The own keys of a mapping -/

/-- What stands at the keys of a mapping, merge keys left out. -/
def ownKeys (g : Graph) (i : NodeId) : List Content := (g.ordinary i).map g.keyContent

/-- Whether a mapping has merged entries once its merge keys are replaced. -/
def Gains (g : Graph) (r : Rules) (i : NodeId) : Prop :=
  ∃ h, (Merging.replace r i).run g = .ok ((), h) ∧ (h.node i).merged ≠ none

variable {g g' h : Graph} {terms : Terms} {i : NodeId} {e e' : Entry}

theorem TextKey.denotes {text : Letters} (key : g.TextKey e)
    (content : g.keyContent e = .scalar text) : g.Denotes terms e.key (.text text) :=
  scalar_of_text key.2 content

theorem sameKey_iff_content (left : g.TextKey e') (right : g.TextKey e) :
    g.SameKey terms e'.key e.key ↔ g.keyContent e' = g.keyContent e := by
  obtain ⟨a, ha⟩ := Content.exists_text left.1
  obtain ⟨b, hb⟩ := Content.exists_text right.1
  have hleft : g.Denotes terms e'.key (.text a) := left.denotes ha
  have hright : g.Denotes terms e.key (.text b) := right.denotes hb
  have ha' : g.keyContent e' = .scalar a := ha
  have hb' : g.keyContent e = .scalar b := hb
  rw [ha', hb', Content.scalar.injEq]
  constructor
  · rintro ⟨x, y, hx, hy, -, hsame⟩
    rw [hx.unique hleft, hy.unique hright] at hsame
    simpa [Scalar.same] using hsame
  · intro heq
    exact ⟨_, _, hleft, hright, rfl, by simp [Scalar.same, heq]⟩

theorem not_repeats_iff : (∀ e, ¬g.Repeats terms i e) ↔
    (g.entries i).Pairwise fun e' e => ¬g.SameKey terms e'.key e.key := by
  have splits : ∀ es : List Entry, (∀ before e after, es = before ++ e :: after →
      ∀ e' ∈ before, ¬g.SameKey terms e'.key e.key) ↔
      es.Pairwise fun e' e => ¬g.SameKey terms e'.key e.key := by
    intro es
    constructor
    · intro hnone
      induction es with
      | nil => exact .nil
      | cons e es ih =>
        refine .cons (fun e₁ he₁ hsame => ?_) (ih fun b e₁ a hsplit e' he' => ?_)
        · obtain ⟨b, a, hsplit⟩ := List.append_of_mem he₁
          exact hnone (e :: b) e₁ a (by simp [hsplit]) e (by simp) hsame
        · exact hnone (e :: b) e₁ a (by simp [hsplit]) e' (by simp [he'])
    · rintro hpairs before e after rfl e' he'
      exact (List.pairwise_append.mp hpairs).2.2 e' he' e List.mem_cons_self
  rw [← splits]
  constructor
  · intro hnone before e after hsplit e' he' hsame
    exact hnone e ⟨before, after, hsplit, e', he', hsame⟩
  · rintro hnone e ⟨before, after, hsplit, e', he', hsame⟩
    exact hnone before e after hsplit e' he' hsame

theorem gains_iff {r : Rules} (replaced : (Merging.replace r i).run g = .ok ((), h)) :
    g.Gains r i ↔ (h.node i).merged ≠ none := by
  constructor
  · rintro ⟨h', hrun, hmerged⟩
    rw [replaced] at hrun
    cases hrun
    exact hmerged
  · exact fun hmerged => ⟨h, replaced, hmerged⟩

/-- A mapping repeats a key if two of its own keys are one text. -/
theorem Orderly.repeats_iff (orderly : g.Orderly) :
    (∃ e, g.Repeats terms i e) ↔ ¬(g.ownKeys i).Nodup := by
  rw [← not_forall_not, not_repeats_iff, not_iff_not]
  unfold ownKeys ordinary List.Nodup
  rw [List.pairwise_map, List.pairwise_filter]
  refine List.Pairwise.iff_of_mem fun {e'} {e} he' he => ?_
  by_cases hordinary : g.isMerge e' = false ∧ g.isMerge e = false
  · rw [sameKey_iff_content (orderly.texts i e' he' hordinary.1)
      (orderly.texts i e he hordinary.2)]
    simp [hordinary.1, hordinary.2]
  · have hnever : ¬g.SameKey terms e'.key e.key := by
      rintro ⟨x, y, hx, hy, -⟩
      refine hordinary ⟨?_, ?_⟩
      · by_contra hmerge
        exact g.not_denotes_of_merge (by simpa using hmerge) hx
      · by_contra hmerge
        exact g.not_denotes_of_merge (by simpa using hmerge) hy
    refine iff_of_true hnever fun hleft hright => (hordinary ⟨?_, ?_⟩).elim
    · simpa using hleft
    · simpa using hright

theorem Alike.ownKeys_eq (alike : g.Alike g') (i : NodeId) : g'.ownKeys i = g.ownKeys i := by
  unfold ownKeys
  rw [alike.ordinary_eq]
  refine List.map_congr_left fun e _ => ?_
  exact alike.content e.key

/-- The own keys of a mapping that gains nothing are those that it has in the end. -/
theorem ownKeys_of_unmerged (orderly : g.Orderly) (absorbs : g.Absorbs h)
    (texts : h.Texts (h.entries i)) (unmerged : (h.node i).merged = none) :
    (h.entries i).map h.keyContent = g.ownKeys i := by
  have hordinary : h.ordinary i = h.entries i := texts.filter
  have hsame := (absorbs.unmerged i unmerged).2
  rw [← hordinary, hsame]
  refine List.map_congr_left fun e he => ?_
  obtain ⟨hmem, hplain⟩ := List.mem_filter.mp he
  have hkey := orderly.texts i e hmem (by simpa using hplain)
  exact absorbs.content e.key (by rw [hkey.1]; simp)

end Graph

/-- Merge keys that are replaced with repeated keys allowed are replaced alike with repeated keys
refused, since no second one comes up. -/
theorem Merging.replace_refused {terms : Terms} {g h : Graph} {i : NodeId} (orderly : g.Orderly)
    (mapping : (g.node i).content.kind = .mapping)
    (run : (replace (.modern terms .allowed) i).run g = .ok ((), h)) :
    (replace (.modern terms .refused) i).run g = .ok ((), h) := by
  have hlimits : (Rules.modern terms .refused).limits = (Rules.modern terms .allowed).limits := rfl
  obtain ⟨h', hrun, -⟩ := replace_mirrors hlimits (.refl g) orderly mapping run
  have hallowed := replace_allowing hrun
  have hsame : (Rules.modern terms .refused).allowing = .modern terms .allowed := rfl
  rw [hsame, run] at hallowed
  cases hallowed
  exact hrun

namespace Construction

/-- The same state under another policy. -/
def under (c : Construction) (p : Duplicates) : Construction :=
  { c with rules := { c.rules with duplicates := p } }

end Construction

namespace Build

variable {c c' : Construction} {i : NodeId} {n : Nat} {p : Duplicates}

/-- The policy has no part in the making of a node that is no collection to be filled at once. -/
theorem make_under {whole : Bool} {v : Value} (quiet : c.Quiet)
    (part : whole = true → c.graph.collects i = false)
    (run : (make (n + 1) i whole).run c = .ok (v, c')) :
    (make (n + 1) i whole).run (c.under p) = .ok (v, c'.under p) := by
  have known : ∀ {w : Value}, c.stage i = .finished w →
      (make (n + 1) i whole).run (c.under p) = .ok (v, c'.under p) := by
    intro w hstage
    rw [run_make_of_finished hstage] at run
    cases run
    exact run_make_of_finished hstage
  rcases quiet.stage i with huntouched | ⟨hstage, -⟩ | ⟨x, hstage, -⟩
  · have huntouched' : (c.under p).stage i = .untouched := huntouched
    have hcell := emptyCell?_isSome c.rules.dialect c.graph i
    cases hempty : emptyCell? c.rules.dialect (c.graph.node i).tag with
    | none =>
      rw [run_make_scalar huntouched hempty] at run
      rw [run_make_scalar huntouched' hempty]
      have hsame : scalar (c.under p).rules (c.under p).graph i = scalar c.rules c.graph i := rfl
      rw [hsame]
      cases hread : scalar c.rules c.graph i with
      | error e =>
        rw [hread] at run
        cases run
      | ok x =>
        rw [hread] at run
        cases run
        rfl
    | some cell =>
      rw [hempty] at hcell
      cases whole with
      | true =>
        rw [part rfl] at hcell
        cases hcell
      | false =>
        rw [run_make_cell huntouched quiet.waits hempty] at run
        cases run
        exact run_make_cell huntouched' quiet.waits hempty
  · exact known hstage
  · exact known hstage

theorem make_part_under {v : Value} (quiet : c.Quiet)
    (run : (make (n + 1) i false).run c = .ok (v, c')) :
    (make (n + 1) i false).run (c.under p) = .ok (v, c'.under p) :=
  make_under quiet (fun h => by cases h) run

theorem make_text_under {v : Value} (quiet : c.Quiet) {e : Entry} (key : c.graph.TextKey e)
    (run : (make (n + 1) e.key true).run c = .ok (v, c')) :
    (make (n + 1) e.key true).run (c.under p) = .ok (v, c'.under p) := by
  refine make_under quiet (fun _ => ?_) run
  unfold Graph.collects
  rw [key.2]
  rfl

/-! ## The entries of a mapping -/

/-- Whether the keys that are noted are those of some entries, as far as texts go. -/
def Recorded (g : Graph) (acc : List (Value × Value)) (before : List Entry) : Prop :=
  ∀ text, (Value.get? acc (.scalar (.text text))).isSome = true ↔
    .scalar text ∈ before.map g.keyContent

theorem isSome_get? (acc : List (Value × Value)) (k : Value) :
    (Value.get? acc k).isSome = acc.any fun p => p.1.same k := by
  unfold Value.get?
  rw [Option.isSome_map, Bool.eq_iff_iff, List.find?_isSome, List.any_eq_true]

theorem any_put (acc : List (Value × Value)) (text other : Letters) (v : Value) :
    ((Value.put acc (.scalar (.text text)) v).any fun p => p.1.same (.scalar (.text other))) =
      ((acc.any fun p => p.1.same (.scalar (.text other))) || text == other) := by
  have hself : Value.same (.scalar (.text text)) (.scalar (.text other)) = (text == other) := rfl
  induction acc with
  | nil => simp [Value.put, hself]
  | cons p rest ih =>
    unfold Value.put
    by_cases hsame : p.1.same (.scalar (.text text))
    · rw [if_pos hsame, List.any_cons, List.any_cons]
      by_cases hother : text = other
      · subst hother
        simp [hsame]
      · simp [hother]
    · rw [if_neg hsame, List.any_cons, List.any_cons, ih, Bool.or_assoc]

theorem Recorded.nil (g : Graph) : Recorded g [] [] := fun text => by simp [Value.get?]

theorem Recorded.put {g : Graph} {acc : List (Value × Value)} {before : List Entry} {e : Entry}
    {text : Letters} (h : Recorded g acc before) (content : g.keyContent e = .scalar text)
    (v : Value) : Recorded g (Value.put acc (.scalar (.text text)) v) (before ++ [e]) := by
  intro other
  have hbefore := h other
  rw [isSome_get?] at hbefore ⊢
  rw [any_put, Bool.or_eq_true, hbefore, List.map_append, List.mem_append, List.map_singleton,
    List.mem_singleton, content, Content.scalar.injEq, beq_iff_eq, eq_comm (a := text)]

/-- A mapping that is not checked is filled alike under any policy. -/
theorem modernEntries_unchecked {around : Mark} {es : List Entry} {acc r : List (Value × Value)}
    (quiet : c.Quiet) (texts : c.graph.Texts es)
    (run : (modernEntries (make (n + 1)) around false acc es).run c = .ok (r, c')) :
    (modernEntries (make (n + 1)) around false acc es).run (c.under p) = .ok (r, c'.under p) := by
  induction es generalizing acc c with
  | nil =>
    cases run
    rfl
  | cons e rest ih =>
    have hplain := texts e (by simp)
    obtain ⟨text, c₁, v, c₂, -, hkey, hvalue, hcalls₁, hcalls⟩ := modernEntries_ok quiet hplain run
    have hkey' := make_text_under (p := p) quiet hplain hkey
    have hvalue' := make_part_under (p := p) hcalls₁.quiet hvalue
    rw [run_modernEntries_put hkey hvalue (fun h => by cases h)] at run
    rw [run_modernEntries_put hkey' hvalue' (fun h => by cases h)]
    refine ih hcalls.quiet ?_ run
    rw [hcalls.graph]
    exact fun e he => texts e (by simp [he])

/-- Whether an error is a complaint about a repeated key, or tells that one of its values cannot be
shown. -/
def ComplainsOfKey (err : LoadError) : Prop :=
  (∃ c, err = .complaint .checkingKeys c) ∨ ShowFault err

theorem complainsOfKey_repeatedText (limits : Limits) (cells : Cells) (around key : Mark)
    (text : Letters) (v old : Value) :
    ComplainsOfKey (repeatedText limits cells around key text v old) := by
  unfold repeatedText
  split
  · exact .inl ⟨_, rfl⟩
  · rename_i hold
    exact .inr (Value.raises_plainText limits cells old _ hold)
  · rename_i hv
    exact .inr (Value.raises_plainText limits cells v _ hv)

/-- A mapping that is checked is filled alike with repeated keys refused if it repeats none, and
refused otherwise. -/
theorem modernEntries_checked {around : Mark} {es before : List Entry} {g : Graph}
    {acc r : List (Value × Value)} (quiet : c.Quiet) (graph : c.graph = g)
    (allowed : c.rules.duplicates = .allowed) (texts : g.Texts es)
    (recorded : Recorded g acc before) (nodup : (before.map g.keyContent).Nodup)
    (run : (modernEntries (make (n + 1)) around true acc es).run c = .ok (r, c')) :
    (((before ++ es).map g.keyContent).Nodup ∧
      (modernEntries (make (n + 1)) around true acc es).run (c.under .refused) =
        .ok (r, c'.under .refused)) ∨
    (¬((before ++ es).map g.keyContent).Nodup ∧
      ∃ err, (modernEntries (make (n + 1)) around true acc es).run (c.under .refused) =
        .error err ∧ ComplainsOfKey err) := by
  induction es generalizing acc before c with
  | nil =>
    cases run
    rw [List.append_nil]
    exact .inl ⟨nodup, rfl⟩
  | cons e rest ih =>
    have hplain : c.graph.TextKey e := by
      rw [graph]
      exact texts e (by simp)
    obtain ⟨text, c₁, v, c₂, hcontent, hkey, hvalue, hcalls₁, hcalls⟩ :=
      modernEntries_ok quiet hplain run
    have hkey' : (make (n + 1) e.key true).run (c.under .refused) = _ :=
      make_text_under quiet hplain hkey
    have hvalue' : (make (n + 1) e.value false).run (c₁.under .refused) = _ :=
      make_part_under hcalls₁.quiet hvalue
    rw [graph] at hcontent
    have hmem := recorded text
    rw [← hcontent] at hmem
    cases hknown : Value.get? acc (.scalar (.text text)) with
    | none =>
      rw [hknown] at hmem
      have hnew : g.keyContent e ∉ before.map g.keyContent := by
        rw [← hmem]
        simp
      rw [run_modernEntries_put hkey hvalue fun _ => hknown] at run
      rw [run_modernEntries_put hkey' hvalue' fun _ => hknown]
      have hnodup : ((before ++ [e]).map g.keyContent).Nodup := by
        rw [List.map_append, List.nodup_append]
        refine ⟨nodup, by simp, fun x hx y hy hsame => hnew ?_⟩
        rw [List.map_singleton, List.mem_singleton] at hy
        rw [← hy, ← hsame]
        exact hx
      have hrest := ih hcalls.quiet (hcalls.graph.trans graph)
        (by rw [hcalls.rules]; exact allowed) (fun e he => texts e (by simp [he]))
        (recorded.put hcontent v) hnodup run
      rw [List.append_assoc] at hrest
      exact hrest
    | some old =>
      rw [hknown] at hmem
      refine .inr ⟨fun hnodup => ?_, ?_⟩
      · rw [List.map_append, List.map_cons, List.nodup_append] at hnodup
        exact hnodup.2.2 _ (hmem.mp rfl) _ List.mem_cons_self rfl
      · rw [run_modernEntries_repeated hkey' hvalue' hknown]
        exact ⟨_, if_pos rfl, complainsOfKey_repeatedText _ _ _ _ _ _ _⟩

theorem run_modernMapping {make : Builder} {g : Graph}
    (replaced : (Merging.replace c.rules i).run c.graph = .ok ((), g)) :
    (modernMapping make i).run c =
      (modernEntries make (g.node i).mark (g.node i).merged.isNone []
        ((g.node i).merged.getD [] ++ g.entries i)).run (c.withGraph g) := by
  unfold modernMapping
  rw [run_bind_of_ok (run_replaceMerges replaced), run_bind_of_ok (run_node i _),
    run_bind_of_ok (run_get _)]
  rfl

end Build

/-! ## One collection -/

/-- Two modern constructions, one with repeated keys allowed and one with repeated keys refused,
that agree in all else. -/
structure Strict (terms : Terms) (s l : Construction) : Prop where
  rules : s.rules = .modern terms .allowed
  quiet : s.Quiet
  orderly : s.graph.Orderly
  under : l = s.under .refused

/-- Whether the modern dialect refuses a mapping when its turn comes. -/
def RefusedUnmerged (terms : Terms) (g : Graph) (i : NodeId) : Prop :=
  (∃ e, g.Repeats terms i e) ∧ ¬g.Gains (.modern terms .allowed) i

namespace Strict

variable {terms : Terms} {s s' l : Construction} {i : NodeId} {n : Nat}

theorem tracks (terms : Terms) : Tracks (Strict terms) fun _ => True where
  graph := by rintro s l ⟨-, -, -, rfl⟩; rfl
  dialect := by rintro s l ⟨-, -, -, rfl⟩; rfl
  cells := by rintro s l ⟨-, -, -, rfl⟩; rfl
  queue := by rintro s l ⟨-, -, -, rfl⟩; rfl
  withCell := by
    rintro s l i cell ⟨hrules, hquiet, horderly, rfl⟩
    exact ⟨hrules, hquiet.withCell i cell, horderly, rfl⟩
  emptied := by
    rintro s l ⟨hrules, hquiet, horderly, rfl⟩
    exact ⟨hrules, hquiet.emptied, horderly, rfl⟩
  waiting := fun _ _ _ => trivial
  below := fun _ _ _ => trivial

theorem start {g : Graph} (orderly : g.Orderly) :
    Strict terms (Construction.start (.modern terms .allowed) g)
      (Construction.start (.modern terms .refused) g) :=
  ⟨rfl, .start _ g, orderly, rfl⟩

theorem make {refusal : LoadError → Prop} (h : Strict terms s l) (i : NodeId) :
    Follows (Strict terms) refusal (Build.make (n + 1) i false) (Build.make (n + 1) i false)
      s l := by
  obtain ⟨hrules, hquiet, horderly, rfl⟩ := h
  intro v s' run
  have hcalls := calls_part hquiet run
  exact .inl ⟨_, make_part_under hquiet run, hcalls.rules.trans hrules, hcalls.quiet,
    by rw [hcalls.graph]; exact horderly, rfl⟩

/-- A mapping that is filled with repeated keys allowed is filled alike with repeated keys refused,
unless it repeats a key and gains nothing. -/
theorem mapping_outcome (h : Strict terms s l) {es : List (Value × Value)}
    (run : (mapping (Build.make (n + 1)) i).run s = .ok (es, s')) :
    (¬RefusedUnmerged terms s.graph i ∧
      ∃ l', (mapping (Build.make (n + 1)) i).run l = .ok (es, l') ∧ Strict terms s' l') ∨
    (RefusedUnmerged terms s.graph i ∧
      ∃ err, (mapping (Build.make (n + 1)) i).run l = .error err ∧ ComplainsOfKey err) := by
  obtain ⟨hrules, hquiet, horderly, rfl⟩ := h
  have hrules' : (s.under .refused).rules = .modern terms .refused := by
    unfold Construction.under
    rw [hrules]
    rfl
  have hallowed : s.rules.duplicates = .allowed := by rw [hrules]; rfl
  have hkind := kind_of_mapping_ok run
  obtain ⟨g, hreplace, hfilled⟩ := filled_mapping hquiet horderly hallowed run
  rw [run_mapping_modern (by rw [hrules]; rfl) hkind, run_modernMapping hreplace] at run
  have hpassed := Merging.replace_passed horderly hkind hreplace
  rw [hrules] at hreplace
  have hreplace' : (Merging.replace (s.under .refused).rules i).run (s.under .refused).graph =
      .ok ((), g) := by
    rw [hrules']
    exact Merging.replace_refused horderly hkind hreplace
  rw [run_mapping_modern (c := s.under .refused) (by rw [hrules']; rfl) hkind,
    run_modernMapping hreplace']
  have hquiet' := hquiet.withGraph hpassed.absorbs
  have hstrict : Strict terms s' (s'.under .refused) :=
    ⟨hfilled.rules.trans hrules, hfilled.quiet, by rw [hfilled.graph]; exact hpassed.orderly, rfl⟩
  unfold RefusedUnmerged
  rw [Graph.gains_iff hreplace, horderly.repeats_iff]
  have hentries := texts_of_modern hpassed.orderly hpassed.texts
  cases hmerged : (g.node i).merged with
  | some merged =>
    rw [hmerged] at run hentries
    exact .inl ⟨by simp, _, modernEntries_unchecked hquiet' hentries run, hstrict⟩
  | none =>
    rw [hmerged] at run
    have hkeys := Graph.ownKeys_of_unmerged horderly hpassed.absorbs hpassed.texts hmerged
    have hgraph : (s.withGraph g).graph = g := rfl
    have houtcome := modernEntries_checked hquiet' hgraph hallowed hpassed.texts (.nil g) .nil run
    rw [List.nil_append, hkeys] at houtcome
    rcases houtcome with ⟨hnodup, hok⟩ | ⟨hrepeated, err, herr, hcomplains⟩
    · exact .inl ⟨fun hrefused => hrefused.1 hnodup, _, hok, hstrict⟩
    · exact .inr ⟨⟨hrepeated, by simp⟩, err, herr, hcomplains⟩

theorem fill_outcome (h : Strict terms s l)
    (run : (fill (Build.make (n + 1)) i).run s = .ok ((), s')) :
    (¬RefusedUnmerged terms s.graph i ∧
      ∃ l', (fill (Build.make (n + 1)) i).run l = .ok ((), l') ∧ Strict terms s' l') ∨
    ∃ err, (fill (Build.make (n + 1)) i).run l = .error err ∧
      RefusedUnmerged terms s.graph i ∧ ComplainsOfKey err := by
  refine fill_outcome_of (tracks terms) (fun j s l _ h => h.make j) h trivial
    (fun hkind hrefused => hrefused.1.elim fun e hrepeats => hkind hrepeats.kind)
    (fun es s₁ hs => ?_) run
  rcases mapping_outcome h hs with hok | ⟨hrefused, err, herr, hcomplains⟩
  · exact .inl hok
  · exact .inr ⟨err, herr, hrefused, hcomplains⟩

end Strict

end YamlCheck.Yaml
