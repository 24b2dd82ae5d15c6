import YamlCheck.Proofs.Yaml.Gathering
import YamlCheck.Proofs.Yaml.Keeps

/-!
# Merge keys run out

Each round of replacing the merge keys of a mapping drops one of them.  As long as nothing has been
brought in no mapping gets longer on the way.  After that the classic dialect, which copies no merge
key, goes on with those that are left, and the modern one ends at the next.  So the rounds that a
mapping is given suffice under all rules, and what ends them early is a complaint, or too many
mappings that are merged into one another.
-/

namespace YamlCheck.Yaml

/-- Whether so many steps of a relation lead on from a node. -/
def Chain (R : NodeId → NodeId → Prop) : Nat → NodeId → Prop
  | 0, _ => True
  | n + 1, i => ∃ j, R i j ∧ Chain R n j

/-- No mapping has got longer on the way from one graph to another. -/
def Graph.Shrinks (g g' : Graph) : Prop :=
  ∀ i, (g'.entries i).length ≤ (g.entries i).length

theorem Graph.Shrinks.trans {g g₁ g₂ : Graph} (h : g.Shrinks g₁) (h' : g₁.Shrinks g₂) :
    g.Shrinks g₂ := fun i => Nat.le_trans (h' i) (h i)

namespace Merging

open YamlCheck.Yaml.Graph

variable {r : Rules} {inner again : Replacer} {g g' : Graph} {i : NodeId}

/-! ## What brings nothing in -/

/-- A replacer that brings nothing in makes no mapping longer. -/
def Quiet (again : Replacer) : Prop :=
  ∀ i n merged g g', (again i n merged).run g = .ok ([], g') → merged = [] ∧ g.Shrinks g'

/-- A replacer does no more to a graph than merge keys ask for. -/
abbrev Tame (inner : Replacer) : Prop := ∀ g, Sound g (fun _ => True) inner

theorem Quiet.wholeWith (quiet : Quiet inner) (tame : Tame inner)
    (mapping : (g.node i).content.kind = .mapping)
    (run : (wholeWith inner i).run g = .ok ([], g')) : g.Shrinks g' := by
  unfold Merging.wholeWith at run
  obtain ⟨merged, g₁, hinner, run⟩ := run_bind_ok run
  obtain ⟨⟨⟩, g₂, hadd, run⟩ := run_bind_ok run
  cases hadd
  have hedits := (tame g i 0 [] g merged g₁ (.refl g) trivial mapping (by simp) hinner).1
  have hmapping : (g₁.node i).content.kind = .mapping := by
    rw [(Flattens.of_edits hedits).kind, mapping]
  have hends : (g₁.addMerged i merged).entries i = [] ∧ g₁.addMerged i merged = g' := by
    simpa using Except.ok.inj run
  have hmerged : merged = [] := by
    have hentries := hends.1
    rw [entries_addMerged hmapping, List.append_eq_nil_iff] at hentries
    exact hentries.1
  rw [hmerged, addMerged_nil] at hends
  rw [← hends.2]
  rw [hmerged] at hinner
  exact (quiet i 0 [] g g₁ hinner).2

theorem shrinks_mapM {f : NodeId → Merging (List Entry)} {items : List NodeId}
    (each : ∀ i g g', (f i).run g = .ok ([], g') → g.Shrinks g') {g g' : Graph}
    {parts : List (List Entry)} (nothing : ∀ part ∈ parts, part = [])
    (run : (items.mapM f).run g = .ok (parts, g')) : g.Shrinks g' := by
  induction items generalizing g parts with
  | nil =>
    rw [List.mapM_nil] at run
    cases run
    exact fun i => Nat.le_refl _
  | cons i items ih =>
    rw [List.mapM_cons] at run
    obtain ⟨part, g₁, hpart, run⟩ := run_bind_ok run
    obtain ⟨rest, g₂, hrest, run⟩ := run_bind_ok run
    cases run
    rw [nothing part (by simp)] at hpart
    exact (each i g g₁ hpart).trans (ih (fun p hp => nothing p (by simp [hp])) hrest)

theorem Quiet.broughtIn (quiet : Quiet inner) (tame : Tame inner) {mark : Mark} {source : Node}
    (kind : source.content.kind = (g.node i).content.kind)
    (run : (broughtIn inner mark i source).run g = .ok ([], g')) : g.Shrinks g' := by
  cases hcontent : source.content with
  | mapping es =>
    unfold Merging.broughtIn at run
    rw [hcontent] at run
    exact quiet.wholeWith tame (by rw [← kind, hcontent]; rfl) run
  | sequence items =>
    rw [broughtIn_sequence hcontent] at run
    obtain ⟨parts, g₁, hparts, run⟩ := run_bind_ok run
    have hends : parts.reverse.flatten = [] ∧ g₁ = g' := by simpa using Except.ok.inj run
    rw [← hends.2]
    refine shrinks_mapM (fun j g g' hrun => ?_) (by simpa using hends.1) hparts
    have hmapping := mapping_of_partWith hrun
    rw [run_partWith hmapping] at hrun
    exact quiet.wholeWith tame hmapping hrun
  | scalar text =>
    unfold Merging.broughtIn at run
    rw [hcontent] at run
    cases run

theorem shrinks_drop {front rest : List Entry} {m : Entry}
    (split : g.entries i = front ++ m :: rest) :
    g.Shrinks (g.setEntries i (front ++ rest)) := by
  have hmapping : (g.node i).content.kind = .mapping :=
    kind_of_mem_entries (e := m) (by simp [split])
  intro j
  by_cases hj : j = i
  · rw [hj, entries_setEntries hmapping, split]
    simp
  · rw [(sameBut_setEntries hmapping _).entries j hj]

theorem Quiet.replaceNext (quiet : Quiet inner) (tame : Tame inner) (after : Quiet again) :
    Quiet (replaceNext r inner again) := by
  intro i n merged g g' run
  obtain ⟨settled, rfl, hround⟩ := replaceNext_ok run
  have hentries := entries_foldl_settle (g.passed i n) g
  generalize (g.passed i n).foldl settleValueKey g = settled at hround hentries
  have hsettled : g.Shrinks settled := fun j => by rw [hentries]
  rcases hround with ⟨rfl, rfl⟩ | ⟨front, m, rest, hsplit, -, hround⟩
  · exact ⟨rfl, hsettled⟩
  rcases hround with ⟨hmerged, rfl, -⟩ | ⟨mark, next, more, g₂, hmore, hrun⟩
  · exact (hmerged rfl).elim
  rw [← hentries] at hsplit
  have hmapping : (settled.node i).content.kind = .mapping :=
    kind_of_mem_entries (e := m) (by simp [hsplit])
  obtain ⟨hnothing, hafter⟩ := after i next _ g₂ g' hrun
  rw [List.append_eq_nil_iff] at hnothing
  rw [hnothing.2] at hmore
  have hbrought := quiet.broughtIn tame ((sameBut_setEntries hmapping _).kind _).symm hmore
  exact ⟨hnothing.1, hsettled.trans ((shrinks_drop hsplit).trans (hbrought.trans hafter))⟩

theorem Quiet.rounds (quiet : Quiet inner) (tame : Tame inner) (fuel : Nat) :
    Quiet (rounds r inner fuel) := by
  induction fuel with
  | zero =>
    intro i n merged g g' run
    cases run
  | succ fuel ih => exact quiet.replaceNext tame ih

theorem replaceFrom_tame (r : Rules) (depth : Nat) : Tame (replaceFrom r depth) :=
  fun _ => replaceFrom_sound r (fun _ _ => trivial) depth

theorem replaceFrom_quiet (r : Rules) (depth : Nat) : Quiet (replaceFrom r depth) := by
  induction depth with
  | zero =>
    intro i n merged g g' run
    cases run
  | succ depth ih =>
    intro i n merged g g' run
    rw [run_replaceFrom] at run
    exact ih.rounds (replaceFrom_tame r depth) _ i n merged g g' run

/-! ## How long rounds last -/

/-- An error of merging: a complaint, or the end of a chain of merge keys that is too long. -/
abbrev MergeError (g₀ : Graph) (depth : Nat) (i : NodeId) (e : LoadError) : Prop :=
  e.Among fun e => e = .breakdown (.tooDeep .merging) ∧ Chain g₀.Draws depth i

/-- What holds wherever the merge keys of a mapping are looked for from some entry on. -/
structure Ready (r : Rules) (g₀ g : Graph) (i : NodeId) (n : Nat) (merged : List Entry) :
    Prop where
  edited : g₀.Edited g
  mapping : (g.node i).content.kind = .mapping
  brought : ∀ e ∈ merged, g₀.Brought e
  passed : r.dialect = .classic → ∀ e ∈ (g.entries i).take n, g.isMerge e = false
  ordinary : r.dialect = .classic → ∀ e ∈ merged, g.isMerge e = false

/-- The next round is the last one. -/
def Spent (r : Rules) (g : Graph) (i : NodeId) (merged : List Entry) : Prop :=
  ¬g.Merges i ∨ (r.dialect = .modern ∧ merged ≠ [])

/-- So many rounds are enough for a replacer, if they outnumber the entries of the mapping. -/
def Lasts (r : Rules) (g₀ : Graph) (depth fuel : Nat) (again : Replacer) : Prop :=
  ∀ i n merged g e, Ready r g₀ g i n merged → 0 < fuel →
    (¬Spent r g i merged → (g.entries i).length + 1 < fuel) →
    (again i n merged).run g = .error e → MergeError g₀ depth i e

/-- A replacer ends early with errors of merging only. -/
def Safe (r : Rules) (g₀ : Graph) (depth : Nat) (inner : Replacer) : Prop :=
  ∀ i n merged g e, Ready r g₀ g i n merged →
    (inner i n merged).run g = .error e → MergeError g₀ depth i e

/-- A computation that from a graph ends early with errors of merging only. -/
abbrev Merges {α : Type} (g₀ : Graph) (depth : Nat) (i : NodeId) (m : Merging α) (g : Graph) :
    Prop :=
  Leads (MergeError g₀ depth i) m g fun _ _ => True

variable {g₀ : Graph} {depth : Nat}

/-- An error beyond a node that a merge key names. -/
theorem MergeError.draw {i j : NodeId} {e : LoadError} (draws : g₀.Draws i j)
    (h : MergeError g₀ depth j e) : MergeError g₀ (depth + 1) i e :=
  h.mono fun _ he => ⟨he.1, j, draws, he.2⟩

theorem ready_zero (edited : g₀.Edited g) (mapping : (g.node i).content.kind = .mapping) :
    Ready r g₀ g i 0 [] :=
  ⟨edited, mapping, by simp, by simp, by simp⟩

theorem Safe.wholeWith (safe : Safe r g₀ depth inner) {j : NodeId} (draws : g₀.Draws i j)
    (edited : g₀.Edited g) (mapping : (g.node j).content.kind = .mapping) :
    Merges g₀ (depth + 1) i (wholeWith inner j) g := by
  have hinner : Merges g₀ (depth + 1) i (inner j 0 []) g :=
    ⟨fun _ => trivial, fun h => .draw draws (safe j 0 [] g _ (ready_zero edited mapping) h)⟩
  exact hinner.bind fun merged g' _ => .modify_bind (.get_bind (.pure trivial))

theorem Safe.partWith (safe : Safe r g₀ depth inner) (tame : Tame inner) (mark : Mark)
    {j : NodeId} (draws : g₀.Draws i j) :
    Keeps g₀.Edited (MergeError g₀ (depth + 1) i) (partWith inner mark j) fun _ => True := by
  intro g hg
  refine .get_bind (.ite (fun _ => .throw_bind trivial) fun hkind => ?_)
  have hmapping : (g.node j).content.kind = .mapping := by simpa using hkind
  have hwhole := safe.wholeWith draws hg hmapping
  refine ⟨fun hrun => ⟨?_, trivial⟩, hwhole.raises⟩
  exact hg.edits ((tame g₀).wholeWith (fun _ _ => trivial) hg draws.mergeSource hmapping hrun).1

theorem Safe.broughtIn (safe : Safe r g₀ depth inner) (tame : Tame inner) (mark : Mark)
    {source : Node} {m : Entry} (edited : g₀.Edited g)
    (kind : source.content.kind = (g.node m.value).content.kind)
    (single : g₀.Draws i m.value)
    (many : ∀ items, source.content = .sequence items → ∀ j ∈ items, g₀.Draws i j) :
    Merges g₀ (depth + 1) i (broughtIn inner mark m.value source) g := by
  cases hcontent : source.content with
  | mapping es =>
    unfold Merging.broughtIn
    rw [hcontent]
    exact safe.wholeWith single edited (by rw [← kind, hcontent]; rfl)
  | sequence items =>
    rw [broughtIn_sequence hcontent]
    have hparts : Keeps g₀.Edited (MergeError g₀ (depth + 1) i)
        (items.mapM (Merging.partWith inner mark)) fun _ => True :=
      .mapM fun j hj => safe.partWith tame mark (many items hcontent j hj)
    exact (hparts g edited).bind fun parts g' _ => .pure trivial
  | scalar text =>
    unfold Merging.broughtIn
    rw [hcontent]
    exact .throw trivial

/-- What a merge key brings in leaves fewer entries in its own mapping than there were with the key,
or a mapping for which the next round is the last. -/
theorem fewer_or_spent (gatherer : r.dialect = .classic → Gatherer inner) (quiet : Quiet inner)
    (tame : Tame inner) {front rest merged more : List Entry} {m : Entry} {mark : Mark}
    {g₂ : Graph} (ready : Ready r g₀ g i front.length merged)
    (split : g.entries i = front ++ m :: rest) (key : g.isMerge m = true)
    (run : (Merging.broughtIn inner mark m.value (g.node m.value)).run
      (g.setEntries i (front ++ rest)) = .ok (more, g₂)) :
    Ready r g₀ g₂ i front.length (merged ++ more) ∧
      (Spent r g₂ i (merged ++ more) ∨ (g₂.entries i).length < (g.entries i).length) := by
  have hmapping := ready.mapping
  have hlength : (g.entries i).length = (front ++ rest).length + 1 := by
    rw [split]
    simp only [List.length_append, List.length_cons]
    omega
  obtain ⟨hedits, hmore⟩ :=
    (tame g₀).bring (fun _ _ => trivial) ready.edited trivial split key run
  have hedited := ready.edited.edits hedits
  have hmapping₂ : (g₂.node i).content.kind = .mapping := by
    rw [(Flattens.of_edits hedits).kind, hmapping]
  have hmerged : ∀ e ∈ merged ++ more, g₀.Brought e := fun e he =>
    (List.mem_append.mp he).elim (ready.brought e) (hmore e)
  cases hdialect : r.dialect with
  | classic =>
    have hfront := ready.passed hdialect
    rw [split, List.take_left] at hfront
    obtain ⟨hbrought, -, hpassed, hordinary⟩ :=
      (gatherer hdialect).round hmapping split key hfront (ready.ordinary hdialect) run
    refine ⟨⟨hedited, hmapping₂, hmerged, fun _ => hpassed, fun _ => hordinary⟩, ?_⟩
    rcases hbrought.cleared i with hsame | hclear
    · rw [hsame, entries_setEntries hmapping]
      exact .inr (by omega)
    · exact .inl (.inl hclear)
  | modern =>
    have hother : r.dialect ≠ .classic := by simp [hdialect]
    refine ⟨⟨hedited, hmapping₂, hmerged, fun h => absurd h hother, fun h => absurd h hother⟩, ?_⟩
    by_cases hnothing : merged ++ more = []
    · rw [List.append_eq_nil_iff] at hnothing
      rw [hnothing.2] at run
      have hshrinks := quiet.broughtIn tame ((sameBut_setEntries hmapping _).kind _).symm run
      have hle := hshrinks i
      rw [entries_setEntries hmapping] at hle
      exact .inr (by omega)
    · exact .inl (.inr ⟨hdialect, hnothing⟩)

theorem Safe.replaceNext {fuel : Nat} (safe : Safe r g₀ depth inner)
    (gatherer : r.dialect = .classic → Gatherer inner) (quiet : Quiet inner) (tame : Tame inner)
    (lasts : Lasts r g₀ (depth + 1) fuel again) :
    Lasts r g₀ (depth + 1) (fuel + 1) (replaceNext r inner again) := by
  intro i n merged g e ready _ enough
  suffices h : Merges g₀ (depth + 1) i (Merging.replaceNext r inner again i n merged) g from
    h.raises
  unfold Merging.replaceNext
  refine .get_bind (.set_bind ?_)
  have hpassed : ((g.entries i).drop n).takeWhile (fun e => !g.isMerge e) = g.passed i n := rfl
  simp only [hpassed, entries_foldl_settle, isMerge_foldl_settle]
  have hsettle : Edits g₀ (fun _ => True) g ((g.passed i n).foldl settleValueKey g) :=
    edits_foldl_settle (i := i) trivial fun e he => mem_passed he
  have hentries := entries_foldl_settle (g.passed i n) g
  have hmerge := isMerge_foldl_settle (g.passed i n) g
  generalize (g.passed i n).foldl settleValueKey g = settled at hsettle hentries hmerge ⊢
  cases hnext : ((g.entries i).drop n).dropWhile fun e => !g.isMerge e with
  | nil => exact .pure trivial
  | cons m rest =>
    obtain ⟨hkey, hsplit⟩ := entries_at_merge hnext
    have hready : Ready r g₀ settled i (n + (g.passed i n).length) merged := by
      refine ⟨ready.edited.edits hsettle, ?_, ready.brought, fun hclassic => ?_, ?_⟩
      · rw [(Flattens.of_edits hsettle).kind, ready.mapping]
      · rw [hentries, funext hmerge]
        exact ordinary_front (ready.passed hclassic)
      · rw [funext hmerge]
        exact ready.ordinary
    have hlength := length_front hsplit
    generalize (g.entries i).take (n + (g.passed i n).length) = front at hsplit hlength ⊢
    have hmerges : g.Merges i := ⟨m, by simp [hsplit], hkey⟩
    rw [← hlength] at hready ⊢
    rw [← hentries] at hsplit enough
    rw [← hmerge] at hkey
    refine .ite (fun _ => ?_) fun hfirst => ?_
    · refine .ite (fun _ => .throw_bind trivial) fun _ => ?_
      exact .set_bind (.pure trivial)
    have hroom : (settled.entries i).length + 1 < fuel + 1 := by
      refine enough fun hspent => ?_
      rcases hspent with hnone | ⟨hmodern, hmerged⟩
      · exact hnone hmerges
      · simp [hmodern, hmerged] at hfirst
    refine .set_bind ?_
    have hmem : m ∈ settled.entries i := by simp [hsplit]
    have hkind := ((sameBut_setEntries hready.mapping (front ++ rest)).kind m.value).symm
    have hdrop : g₀.Edit (fun _ => True) settled (settled.setEntries i (front ++ rest)) :=
      .drop trivial hsplit hkey
    have hedited := hready.edited.edit hdrop
    have hdraws := safe.broughtIn (i := i) tame (settled.node i).mark hedited hkind
      (hready.edited.flat.draws hmem hkey (.inl rfl))
      (fun items hitems j hj => hready.edited.flat.draws hmem hkey (.inr ⟨items, hitems, hj⟩))
    have hbrings : Leads (MergeError g₀ (depth + 1) i) (Merging.broughtIn inner
        (settled.node i).mark m.value (settled.node m.value))
        (settled.setEntries i (front ++ rest)) fun more g₂ =>
          (Merging.broughtIn inner (settled.node i).mark m.value (settled.node m.value)).run
            (settled.setEntries i (front ++ rest)) = .ok (more, g₂) :=
      ⟨fun h => h, hdraws.raises⟩
    refine hbrings.bind fun more g₂ hmore => ?_
    obtain ⟨hready₂, hleft⟩ := fewer_or_spent gatherer quiet tame hready hsplit hkey hmore
    refine ⟨fun _ => trivial, lasts i front.length _ g₂ _ hready₂ (by omega) fun hspent => ?_⟩
    have hfewer := hleft.resolve_left hspent
    omega

theorem Safe.rounds (safe : Safe r g₀ depth inner)
    (gatherer : r.dialect = .classic → Gatherer inner) (quiet : Quiet inner) (tame : Tame inner)
    (fuel : Nat) : Lasts r g₀ (depth + 1) fuel (rounds r inner fuel) := by
  induction fuel with
  | zero =>
    intro i n merged g e _ positive
    omega
  | succ fuel ih => exact safe.replaceNext gatherer quiet tame ih

theorem replaceFrom_safe (r : Rules) (g₀ : Graph) (depth : Nat) :
    Safe r g₀ depth (replaceFrom r depth) := by
  induction depth with
  | zero =>
    intro i n merged g e _ run
    cases run
    exact LoadError.among_of ⟨rfl, trivial⟩
  | succ depth ih =>
    intro i n merged g e ready run
    rw [run_replaceFrom] at run
    have hlasts := ih.rounds
      (fun hclassic => replaceFrom_gatherer (Rules.thorough_of_classic hclassic) depth)
      (replaceFrom_quiet r depth) (replaceFrom_tame r depth) ((g.entries i).length + 2)
    exact hlasts i n merged g e ready (by omega) (fun _ => by omega) run

/-- Replacing the merge keys of a mapping raises nothing but complaints, unless more mappings than
the rules allow for are merged into one another. -/
theorem raises_replace (r : Rules) (edited : g₀.Edited g)
    (mapping : (g.node i).content.kind = .mapping) :
    Raises (MergeError g₀ (r.limits.merging + 1) i) ((replace r i).run g) := by
  suffices h : Merges g₀ (r.limits.merging + 1) i (replace r i) g from fun e => h.raises
  have hfrom : Merges g₀ (r.limits.merging + 1) i (replaceFrom r (r.limits.merging + 1) i 0 []) g :=
    ⟨fun _ => trivial, replaceFrom_safe r g₀ _ i 0 [] g _ (ready_zero edited mapping)⟩
  exact hfrom.bind fun merged g' _ => .modify trivial

end Merging

end YamlCheck.Yaml
