import YamlCheck.Proofs.Yaml.Repeats
import YamlCheck.Proofs.Yaml.Roster

/-!
# Mappings of scalars

A document that is one mapping of scalars without merge keys is accepted as soon as each of its
scalars denotes a value.  Integers of any length are such values: a text of hexadecimal digits has
no limit, unlike a decimal one.
-/

namespace YamlCheck.Yaml

open YamlCheck.Text YamlCheck.Number

open Build Construction

/-! ## Long integers -/

theorem digitsValue_replicate (n : Nat) :
    digitsValue 16 (List.replicate n 'f') + 1 = Nat.pow 16 n := by
  induction n with
  | zero => rfl
  | succ n ih =>
    have hdigit : (digitIn? 16 'f').getD 0 = 15 := by decide
    unfold digitsValue at ih ⊢
    rw [List.replicate_succ', List.foldl_append, List.foldl_cons, List.foldl_nil, hdigit]
    have hpower : Nat.pow 16 (n + 1) = Nat.pow 16 n * 16 := rfl
    rw [hpower, ← ih]
    omega

theorem readInteger_replicate (n : Nat) :
    readInteger 16 ⟨List.replicate (n + 1) (.char 'f')⟩ =
      .ok (digitsValue 16 (List.replicate (n + 1) 'f')) := by
  have hplain : plainNumeral (List.replicate (n + 1) 'f') = List.replicate (n + 1) 'f' :=
    if_pos (List.all_eq_true.mpr fun c hc => by rw [List.eq_of_mem_replicate hc]; decide)
  have hblank : isAsciiBlank 'f' = false := by decide
  have htrim : trimBlanks (List.replicate (n + 1) 'f') = List.replicate (n + 1) 'f' := by
    unfold trimBlanks
    simp only [List.dropWhile_replicate, hblank, List.reverse_replicate, Bool.false_eq_true,
      if_false]
  have hsign : takeSign (List.replicate (n + 1) 'f') = (false, List.replicate (n + 1) 'f') := rfl
  have hmark : dropBaseMark 16 (List.replicate (n + 1) 'f') = List.replicate (n + 1) 'f' := rfl
  have hdigits : (List.replicate (n + 1) 'f').takeWhile (fun c => (digitIn? 16 c).isSome) =
      List.replicate (n + 1) 'f' := by
    rw [List.takeWhile_replicate, if_pos (by decide)]
  have hfaces :
      Letters.faces ⟨List.replicate (n + 1) (.char 'f')⟩ = List.replicate (n + 1) 'f' := by
    unfold Letters.faces
    rw [List.map_replicate]
    rfl
  unfold readInteger
  rw [hfaces, hplain, htrim, hsign]
  dsimp only
  rw [hmark, hdigits]
  simp

theorem intOf_hexadecimal (n : Nat) :
    intOf .classic ⟨.char '0' :: .char 'x' :: List.replicate (n + 1) (.char 'f')⟩ =
      .ok (digitsValue 16 (List.replicate (n + 1) 'f')) := by
  have hbars : dropBars ⟨.char '0' :: .char 'x' :: List.replicate (n + 1) (.char 'f')⟩ =
      .char '0' :: .char 'x' :: List.replicate (n + 1) (.char 'f') := by
    unfold dropBars
    rw [List.filter_cons_of_pos (by decide), List.filter_cons_of_pos (by decide),
      List.filter_replicate_of_pos (by decide)]
  have hread : readInt 16 (List.replicate (n + 1) (.char 'f')) =
      .ok (digitsValue 16 (List.replicate (n + 1) 'f')) := by
    unfold readInt
    rw [readInteger_replicate]
  have hsign : splitSign (.char '0' :: .char 'x' :: List.replicate (n + 1) (.char 'f')) =
      .ok (false, .char '0' :: .char 'x' :: List.replicate (n + 1) (.char 'f')) := rfl
  unfold intOf
  rw [hbars, hsign]
  show (readInt 16 (List.replicate (n + 1) (.char 'f')) >>= fun i => pure i) = _
  rw [hread]
  rfl

/-! ## One mapping -/

/-- Whether a document is a mapping of scalars that denote values, without merge keys. -/
structure Graph.Flat (terms : Terms) (g : Graph) : Prop where
  tag : (g.node g.root).tag = Tag.map
  kind : (g.node g.root).content.kind = .mapping
  ordinary : ∀ e ∈ g.entries g.root, g.isMerge e = false
  settled : ∀ e ∈ g.entries g.root, (g.node e.key).tag ≠ Tag.value
  parts : ∀ i ∈ entryParts (g.entries g.root), g.collects i = false ∧ ∃ x, g.Denotes terms i x

namespace Build

variable {terms : Terms} {g : Graph} {c c' : Construction} {i : NodeId} {n : Nat}

theorem make_denoted {x : Scalar} (quiet : c.Quiet) (rules : c.rules = .classic terms .allowed)
    (scalar : c.graph.collects i = false) (denotes : c.graph.Denotes terms i x) :
    ∃ y c', (make (n + 1) i false).run c = .ok (.scalar y, c') ∧ Calls c c' [i] := by
  have hmade : ∃ y c', (make (n + 1) i false).run c = .ok (.scalar y, c') := by
    rcases quiet.stage i with huntouched | ⟨-, hcollection⟩ | ⟨y, hstage, -⟩
    · have hempty : emptyCell? c.rules.dialect (c.graph.node i).tag = none := by
        rw [← Option.not_isSome_iff_eq_none, emptyCell?_isSome, scalar]
        simp
      have hread : Build.scalar c.rules c.graph i = .ok x := by
        rw [rules]
        exact denotes
      rw [run_make_scalar huntouched hempty, hread]
      exact ⟨x, _, rfl⟩
    · rw [scalar] at hcollection
      cases hcollection
    · exact ⟨y, c, run_make_of_finished hstage⟩
  obtain ⟨y, c', hrun⟩ := hmade
  exact ⟨y, c', hrun, calls_part quiet hrun⟩

theorem classicEntries_denoted (around : Mark) {es : List Entry} (acc : List (Value × Value))
    (quiet : c.Quiet) (rules : c.rules = .classic terms .allowed)
    (parts : ∀ i ∈ entryParts es, c.graph.collects i = false ∧ ∃ x, c.graph.Denotes terms i x) :
    ∃ r c', (classicEntries (make (n + 1)) around acc es).run c = .ok (r, c') ∧
      Calls c c' (entryParts es) := by
  induction es generalizing acc c with
  | nil => exact ⟨acc, c, rfl, .nothing quiet⟩
  | cons e rest ih =>
    obtain ⟨hkey, x, hx⟩ := parts e.key (by simp [entryParts])
    obtain ⟨hvalue, y, hy⟩ := parts e.value (by simp [entryParts])
    obtain ⟨k, c₁, hmakeKey, hcalls⟩ := make_denoted (n := n) quiet rules hkey hx
    rw [← hcalls.graph] at hvalue hy
    obtain ⟨v, c₂, hmakeValue, hcalls'⟩ :=
      make_denoted (n := n) hcalls.quiet (hcalls.rules.trans rules) hvalue hy
    have hboth := hcalls.trans hcalls'
    obtain ⟨r, c', hrest, hcallsRest⟩ := ih (Value.put acc (.scalar k) (.scalar v))
      hboth.quiet (hboth.rules.trans rules) fun i hi => by
        rw [hboth.graph]
        exact parts i (by simp [entryParts] at hi ⊢; exact .inr (.inr hi))
    refine ⟨r, c', ?_, hboth.trans hcallsRest⟩
    unfold classicEntries
    rw [run_bind_of_ok hmakeKey]
    simp only [Value.collection?, Option.isSome_none, Bool.false_eq_true, if_false]
    rw [run_bind_of_ok hmakeValue]
    exact hrest

theorem run_fill_map {make : Builder} {es : List (Value × Value)}
    (tag : (c.graph.node i).tag = Tag.map) (run : (mapping make i).run c = .ok (es, c')) :
    (fill make i).run c = .ok ((), c'.withCell i (.map es)) := by
  unfold fill
  rw [run_bind_of_ok (run_node i c), run_bind_of_ok (run_get c)]
  have hseq : (Tag.map == Tag.seq) = false := by decide
  simp only [tag, hseq, beq_self_eq_true, Bool.false_eq_true, if_true, if_false]
  rw [run_bind_of_ok run]
  rfl

theorem run_fillQueue_done {make : Builder} (done : c.queue = []) :
    (fillQueue make (n + 1)).run c = .ok ((), c) := by
  unfold fillQueue
  rw [run_bind_of_ok (run_get c)]
  simp only [done, List.isEmpty_nil, if_true]
  rfl

theorem run_fillQueue_round {make : Builder} (waiting : c.queue = [i])
    (round : (fill make i).run { c with queue := [] } = .ok ((), c')) :
    (fillQueue make (n + 1)).run c = (fillQueue make n).run c' := by
  have hround : ([i].forM (fill make)).run { c with queue := [] } = .ok ((), c') := by
    show (fill make i >>= fun _ => pure ()).run { c with queue := [] } = .ok ((), c')
    rw [run_bind_of_ok round]
    rfl
  rw [fillQueue, run_bind_of_ok (run_get c)]
  simp only [waiting, List.isEmpty_cons, Bool.false_eq_true, if_false]
  rw [run_bind_of_ok (run_set _ c), run_bind_of_ok hround]

end Build

namespace Graph

variable {terms : Terms} {g : Graph}

/-- Filling the only mapping of a document leaves nothing to be filled. -/
theorem Flat.filled {c : Construction} {n : Nat} (flat : g.Flat terms) (quiet : c.Quiet)
    (rules : c.rules = .classic terms .allowed) (graph : c.graph = g) (queue : c.queue = []) :
    ∃ c', (fill (make (n + 1)) g.root).run c = .ok ((), c') ∧ c'.queue = [] := by
  subst graph
  obtain ⟨es, c', hentries, hcalls⟩ :=
    classicEntries_denoted (n := n) (c.graph.node c.graph.root).mark [] quiet rules flat.parts
  have hreplace : (Merging.replace c.rules c.graph.root).run c.graph = .ok ((), c.graph) :=
    Merging.replace_of_ordinaryKeys flat.ordinary flat.settled
  have hmapping : (mapping (make (n + 1)) c.graph.root).run c = .ok (es, c') := by
    rw [run_mapping_classic (by rw [rules]; rfl) (by rw [rules]; rfl) flat.kind]
    unfold classicMapping
    rw [run_bind_of_ok (run_replaceMerges hreplace), run_bind_of_ok (run_node _ _),
      run_bind_of_ok (run_get _)]
    exact hentries
  refine ⟨_, run_fill_map flat.tag hmapping, ?_⟩
  have hroster : c'.roster = c.roster := by
    rw [hcalls.roster, Roster.enlistAll_of_known fun i hi hcollects => ?_]
    rw [(flat.parts i hi).1] at hcollects
    cases hcollects
  exact (congrArg Roster.queue hroster).trans queue

theorem Flat.accepted (flat : g.Flat terms) :
    ∃ d, g.document (.classic terms .allowed) = .ok d := by
  have hcell : emptyCell? .classic (g.node g.root).tag = some (.map []) := by
    rw [flat.tag]
    rfl
  have hroot : (make (terms.limits.building + 1) g.root false).run _ = .ok (.ref g.root, _) :=
    run_make_cell (stage_start (.classic terms .allowed) g g.root) rfl hcell
  have hquiet := (calls_part (.start (.classic terms .allowed) g) hroot).quiet.emptied
  obtain ⟨c', hfill, hqueue⟩ := flat.filled (n := terms.limits.building) hquiet rfl rfl rfl
  have hfilled : (fillQueue (make (terms.limits.building + 1)) g.bound).run
      ((Construction.start (.classic terms .allowed) g).enqueue g.root (.map [])) =
        .ok ((), c') :=
    (run_fillQueue_round rfl hfill).trans (run_fillQueue_done hqueue)
  refine ⟨⟨.ref g.root, c'.cells⟩, document_eq_ok.mpr ⟨c', ?_⟩⟩
  unfold Build.document
  rw [run_bind_of_ok (run_get _)]
  refine (run_bind_of_ok hroot).trans ((run_bind_of_ok hfilled).trans ?_)
  rfl

end Graph

end YamlCheck.Yaml
