import YamlCheck.Proofs.Yaml.Placed

/-!
# What has its turn has a place

A collection is only built where another one calls on it, or as the root.  In a document without
merge keys no entry ever moves, so what a collection calls on when it is filled is what it is made
up of as it is written.  Hence the collections that have their turns are those that have a place in
the document.
-/

namespace YamlCheck.Yaml

open Build Construction

namespace Construction

/-- Whether the collections that were built from one state to a later one are among some nodes. -/
def Adds (nodes : NodeId → Prop) (c c' : Construction) : Prop :=
  ∀ j, c'.Built j → c.Built j ∨ nodes j

namespace Adds

variable {nodes nodes' : NodeId → Prop} {c c₁ c' : Construction}

theorem refl (nodes : NodeId → Prop) (c : Construction) : Adds nodes c c := fun _ => .inl

theorem trans (h : Adds nodes c c₁) (h' : Adds nodes c₁ c') : Adds nodes c c' := fun j built =>
  (h' j built).elim (h j) .inr

theorem mono (h : Adds nodes c c') (sub : ∀ j, nodes j → nodes' j) : Adds nodes' c c' :=
  fun j built => (h j built).imp id (sub j)

end Adds

end Construction

namespace Build

variable {k : Course} {p : Duplicates} {c c' : Construction} {i : NodeId} {n : Nat}

theorem adds_make {v : Value} (h : c.Settled k p)
    (run : (make (n + 1) i false).run c = .ok (v, c')) : Adds (fun j => j = i) c c' := by
  have hmakes := makes h n i
  rw [run] at hmakes
  cases hmakes with
  | known hstage => exact .refl _ c
  | read huntouched hdenotes =>
    intro j built
    unfold Construction.Built at built ⊢
    rw [stage_learn] at built
    split at built
    · cases built
    · exact .inl built
  | waits huntouched hcell =>
    intro j built
    exact ((h.built_enqueue hcell j).mp built).symm

/-- The keys and values of some entries. -/
def PartOf (es : List Entry) (j : NodeId) : Prop := ∃ e ∈ es, j = e.key ∨ j = e.value

theorem adds_entry {e : Entry} {es : List Entry} {key value : Value} {c₁ : Construction}
    (h : c.Settled k p) (parts : k.node e.key) (mem : e ∈ es)
    (first : (make (n + 1) e.key false).run c = .ok (key, c₁))
    (second : (make (n + 1) e.value false).run c₁ = .ok (value, c')) :
    Adds (PartOf es) c c' := by
  have hfirst := adds_make h first
  have hsecond := adds_make (grows_make h parts first).1.settled second
  refine (hfirst.mono ?_).trans (hsecond.mono ?_)
  · rintro j rfl
    exact ⟨e, mem, .inl rfl⟩
  · rintro j rfl
    exact ⟨e, mem, .inr rfl⟩

theorem adds_classicEntries {around : Mark} {es all : List Entry} {acc r : List (Value × Value)}
    (h : c.Settled k p) (parts : ∀ e ∈ es, k.node e.key ∧ k.node e.value) (sub : es ⊆ all)
    (run : (classicEntries (make (n + 1)) around acc es).run c = .ok (r, c')) :
    Adds (PartOf all) c c' := by
  induction es generalizing acc c with
  | nil =>
    cases run
    exact .refl _ _
  | cons e rest ih =>
    have he := parts e List.mem_cons_self
    unfold classicEntries at run
    obtain ⟨key, c₁, hkey, run⟩ := run_bind_ok run
    by_cases hcollection : key.collection?.isSome
    · simp only [hcollection, if_true] at run
      obtain ⟨_, _, -, run⟩ := run_bind_ok run
      obtain ⟨_, _, hthrow, -⟩ := run_bind_ok run
      cases hthrow
    · simp only [hcollection] at run
      rw [if_neg (by simp)] at run
      obtain ⟨value, c₂, hvalue, run⟩ := run_bind_ok run
      have hgrows₁ := (grows_make h he.1 hkey).1
      have hgrows₂ := (grows_make hgrows₁.settled he.2 hvalue).1
      refine (adds_entry h he.1 (sub List.mem_cons_self) hkey hvalue).trans ?_
      exact ih hgrows₂.settled (fun e he => parts e (List.mem_cons_of_mem _ he))
        (fun e he => sub (List.mem_cons_of_mem _ he)) run

theorem adds_items {items : List NodeId} {vs : List Value} (h : c.Settled k p)
    (parts : ∀ j ∈ items, k.node j)
    (run : (items.mapM fun j => make (n + 1) j false).run c = .ok (vs, c')) :
    Adds (fun j => j ∈ items) c c' := by
  induction items generalizing c vs with
  | nil =>
    rw [List.mapM_nil] at run
    cases run
    exact .refl _ _
  | cons j rest ih =>
    rw [List.mapM_cons] at run
    obtain ⟨v, c₁, hmake, run⟩ := run_bind_ok run
    obtain ⟨ws, c₂, hrest, run⟩ := run_bind_ok run
    cases run
    have hgrows := (grows_make h (parts j List.mem_cons_self) hmake).1
    have hlater := ih hgrows.settled (fun m hm => parts m (List.mem_cons_of_mem _ hm)) hrest
    refine ((adds_make h hmake).mono ?_).trans (hlater.mono fun m => List.mem_cons_of_mem j)
    rintro m rfl
    exact List.mem_cons_self

theorem adds_pairs {context : Context} {around : Mark} {items : List NodeId} {acc : List Value}
    (h : c.Settled k p) (parts : ∀ j ∈ items, k.node j)
    (run : (fillPairs.loop (make (n + 1)) context i around acc items).run c = .ok ((), c')) :
    Adds (fun m => ∃ j ∈ items, PartOf (c.graph.entries j) m) c c' := by
  induction items generalizing c acc with
  | nil =>
    cases run
    exact .refl _ _
  | cons j rest ih =>
    unfold fillPairs.loop at run
    obtain ⟨e, c₀, hentry, run⟩ := run_bind_ok run
    obtain ⟨hcontent, hsame⟩ := singleEntry_ok hentry
    rw [hsame] at run
    have hmem : e ∈ c.graph.entries j := by
      rw [Graph.entries_of_content hcontent]
      exact List.mem_singleton_self e
    have hkey := k.below h.graph (parts j List.mem_cons_self) (.key hmem)
    have hvalue := k.below h.graph (parts j List.mem_cons_self) (.value hmem)
    obtain ⟨key, c₁, hmake₁, run⟩ := run_bind_ok run
    obtain ⟨value, c₂, hmake₂, run⟩ := run_bind_ok run
    obtain ⟨⟨⟩, c₃, hcell, run⟩ := run_bind_ok run
    cases hcell
    have hgrows₁ := (grows_make h hkey hmake₁).1
    have hgrows₂ := (grows_make hgrows₁.settled hvalue hmake₂).1
    have hgrows₃ := Grows.withCell hgrows₂.settled i (.list (acc ++ [.tuple [key, value]]))
    have hgraph : (c₂.withCell i (.list (acc ++ [.tuple [key, value]]))).graph = c.graph :=
      hgrows₂.graph.trans hgrows₁.graph
    have hfirst := adds_entry h hkey hmem hmake₁ hmake₂
    have hrest := ih hgrows₃.settled (fun m hm => parts m (List.mem_cons_of_mem _ hm)) run
    rw [hgraph] at hrest
    refine (hfirst.mono fun m hm => ⟨j, List.mem_cons_self, hm⟩).trans (hrest.mono ?_)
    rintro m ⟨j', hj', hm⟩
    exact ⟨j', List.mem_cons_of_mem j hj', hm⟩

end Build

/-! ## One turn -/

namespace Course.literal

variable {terms : Terms} {g₀ : Graph} {c c' : Construction} {i : NodeId} {n : Nat}

/-- What is built when a collection is filled are parts of it, where nothing is merged. -/
theorem adds_fill (noMerges : ∀ i, ¬g₀.Merges i) (h : c.Settled (literal terms g₀) .allowed)
    (built : c.Built i) (run : (fill (make (n + 1)) i).run c = .ok ((), c')) :
    Adds (c.graph.Part i) c c' := by
  have hunmerged : ∀ j, ¬c.graph.Merges j := fun j =>
    (edited h.graph).not_merges (noMerges j)
  have hcollects := h.collects_of_built built
  have hown : ∀ {j e}, e ∈ c.graph.entries j → c.graph.Brings j e := fun he =>
    .own he (Graph.isMerge_of_not_merges (hunmerged _) he)
  rcases fill_ways run with ⟨hlist, vs, c₁, hsequence, rfl⟩ | ⟨es, c₁, cell, hmapping, rfl⟩ |
    ⟨hpairs, ⟨context, hfill⟩ | ⟨hmodern, -⟩⟩
  · unfold Build.sequence at hsequence
    rw [run_bind_of_ok (run_node i c)] at hsequence
    cases hcontent : (c.graph.node i).content with
    | sequence items =>
      rw [hcontent] at hsequence
      have hadds := adds_items h (fun _ _ => trivial) hsequence
      exact hadds.mono fun j hj => .item hlist hcontent hj
    | scalar text =>
      rw [hcontent] at hsequence
      cases hsequence
    | mapping es =>
      rw [hcontent] at hsequence
      cases hsequence
  · obtain ⟨hkind, g, hreplace, hrun⟩ := mapping_allowed_ok h hmapping
    have hedits := Merging.replace_edits (.refl c.graph) hkind hreplace
    have hentries : g.entries i = c.graph.entries i :=
      ((Graph.Edited.refl c.graph).edits hedits).unmerged i (hunmerged i)
    have hadds := adds_classicEntries (settled_withGraph h hkind hreplace)
      (fun _ _ => ⟨trivial, trivial⟩) (List.Subset.refl _) hrun
    rw [hentries] at hadds
    refine Adds.mono hadds ?_
    rintro j ⟨e, he, rfl | rfl⟩
    · exact .key hcollects (.entry (hown he))
    · exact .value hcollects (.entry (hown he))
  · unfold fillPairs at hfill
    obtain ⟨⟨around, items⟩, c₀, hitems, hrun⟩ := run_bind_ok hfill
    obtain ⟨-, hcontent, hsame⟩ := pairItems_ok hitems
    rw [hsame] at hrun
    refine (adds_pairs h (fun _ _ => trivial) hrun).mono ?_
    rintro m ⟨j, hj, e, he, rfl | rfl⟩
    · exact .key hcollects (.pair hpairs hcontent hj (hown he))
    · exact .value hcollects (.pair hpairs hcontent hj (hown he))
  · rw [h.rules] at hmodern
    cases hmodern

end Course.literal

/-! ## All turns -/

section Turns

variable {terms : Terms} {g : Graph} {c : Construction} {i : NodeId} {rest : List NodeId}

/-- Where nothing is merged, what has been built has a place in the document. -/
theorem Turns.placed_of_built (noMerges : ∀ i, ¬g.Merges i)
    (turns : Turns (.classic terms .allowed) g c rest) : ∀ j, c.Built j → g.Placed j := by
  have hbare : ∀ i, g.Bare i := fun i => ⟨noMerges i, fun _ _ _ j _ => noMerges j⟩
  induction turns with
  | @begun v c run =>
    intro j built
    have hstart : (Construction.start (.classic terms .allowed) g).Settled
        (.literal terms g) .allowed := .start .refl
    rcases adds_make hstart run j built with hnothing | rfl
    · unfold Construction.Built at hnothing
      rw [stage_start] at hnothing
      cases hnothing
    · exact .refl
  | round last ih => exact ih
  | @filled c c' i rest turn run ih =>
    intro j built
    have hsurvey := turn.survey
    have hbuilt := hsurvey.built i List.mem_cons_self
    rcases Course.literal.adds_fill noMerges hsurvey.settled hbuilt run j built with hold | hpart
    · exact ih j hold
    · have hedited := Course.literal.edited hsurvey.settled.graph
      exact (ih i hbuilt).tail ((hbare i).part hedited hpart)

/-- Where nothing is merged, a collection that has its turn has a place in the document. -/
theorem Turns.placed (noMerges : ∀ i, ¬g.Merges i)
    (turn : Turns (.classic terms .allowed) g c (i :: rest)) :
    g.Placed i ∧ g.collects i = true := by
  have hsurvey := turn.survey
  have hbuilt := hsurvey.built i List.mem_cons_self
  refine ⟨turn.placed_of_built noMerges i hbuilt, ?_⟩
  rw [← (Course.literal.edited hsurvey.settled.graph).flat.collects_eq]
  exact hsurvey.settled.collects_of_built hbuilt

end Turns

end YamlCheck.Yaml
