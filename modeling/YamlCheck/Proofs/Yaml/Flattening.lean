import Mathlib.Data.List.TakeWhile
import Mathlib.Logic.Relation
import YamlCheck.Proofs.Yaml.Lockstep

/-!
# What replacing merge keys does to a graph

Merge keys are replaced by edits of three kinds: a key that only stood for the plain value of its
mapping becomes an ordinary one, a merge key is dropped, and entries are put before those of a
mapping.  All that is put there comes from the mappings that merge keys name in the first place.
Everything that later proofs need to know about the replacing is read off these three edits.
-/

namespace YamlCheck.Yaml

namespace Graph

/-! ## Nodes of a changed graph -/

theorem node_of_size_le {g : Graph} {i : NodeId} (h : g.nodes.size ≤ i) : g.node i = .absent := by
  unfold Graph.node
  rw [Array.getD_eq_getD_getElem?, Array.getElem?_eq_none h]
  rfl

theorem lt_size_of_tag {g : Graph} {i : NodeId} (h : (g.node i).tag ≠ Tag.null) :
    i < g.nodes.size := by
  by_cases hi : i < g.nodes.size
  · exact hi
  · exact (h (by rw [node_of_size_le (Nat.le_of_not_lt hi)]; rfl)).elim

theorem lt_size_of_kind {g : Graph} {i : NodeId} (h : (g.node i).content.kind ≠ .scalar) :
    i < g.nodes.size := by
  by_cases hi : i < g.nodes.size
  · exact hi
  · exact (h (by rw [node_of_size_le (Nat.le_of_not_lt hi)]; rfl)).elim

theorem node_setNode {g : Graph} {i : NodeId} (h : i < g.nodes.size) (n : Node) (j : NodeId) :
    (g.setNode i n).node j = if i = j then n else g.node j := by
  unfold Graph.node setNode
  rw [Array.getD_eq_getD_getElem?, Array.getD_eq_getD_getElem?, Array.getElem?_setIfInBounds]
  by_cases hij : i = j
  · subst hij
    simp [h]
  · simp [hij]

theorem size_setNode (g : Graph) (i : NodeId) (n : Node) :
    (g.setNode i n).nodes.size = g.nodes.size := by
  simp [setNode]

theorem size_setEntries (g : Graph) (i : NodeId) (es : List Entry) :
    (g.setEntries i es).nodes.size = g.nodes.size := size_setNode _ _ _

theorem size_settleValueKey (g : Graph) (e : Entry) :
    (g.settleValueKey e).nodes.size = g.nodes.size := by
  unfold settleValueKey
  dsimp only
  split
  · exact size_setNode _ _ _
  · rfl

theorem size_addMerged (g : Graph) (i : NodeId) (merged : List Entry) :
    (g.addMerged i merged).nodes.size = g.nodes.size := by
  unfold addMerged
  split
  · rfl
  · rw [size_setNode, size_setEntries]

theorem node_setEntries {g : Graph} {i : NodeId} (h : (g.node i).content.kind = .mapping)
    (es : List Entry) (j : NodeId) :
    (g.setEntries i es).node j =
      if i = j then { g.node i with content := .mapping es } else g.node j :=
  node_setNode (lt_size_of_kind (by simp [h])) _ j

theorem node_settleValueKey (g : Graph) (e : Entry) (j : NodeId) :
    (g.settleValueKey e).node j =
      if e.key = j ∧ (g.node j).tag = Tag.value then { g.node j with tag := Tag.str }
      else g.node j := by
  unfold settleValueKey
  by_cases htag : (g.node e.key).tag = Tag.value
  · have hlt : e.key < g.nodes.size := lt_size_of_tag (by rw [htag]; simp [Tag.value, Tag.null])
    simp only [htag, beq_self_eq_true, if_true, node_setNode hlt]
    by_cases hj : e.key = j
    · subst hj
      simp [htag]
    · simp [hj]
  · have hne : ((g.node e.key).tag == Tag.value) = false := by simp [htag]
    simp only [hne]
    by_cases hj : e.key = j
    · subst hj
      simp [htag]
    · simp [hj]

theorem addMerged_nil (g : Graph) (i : NodeId) : g.addMerged i [] = g := rfl

theorem node_addMerged {g : Graph} {i : NodeId} (h : (g.node i).content.kind = .mapping)
    {merged : List Entry} (nonempty : merged ≠ []) (j : NodeId) :
    (g.addMerged i merged).node j =
      if i = j then
        { g.node i with content := .mapping (merged ++ g.entries i), merged := some merged }
      else g.node j := by
  have hlt : i < g.nodes.size := lt_size_of_kind (by simp [h])
  have hlt' : i < (g.setEntries i (merged ++ g.entries i)).nodes.size := by
    rw [size_setEntries]
    exact hlt
  unfold addMerged
  simp only [List.isEmpty_iff, nonempty, if_false]
  rw [node_setNode hlt', node_setEntries h, node_setEntries h]
  by_cases hj : i = j
  · subst hj
    simp
  · simp [hj]

theorem content_settleValueKey (g : Graph) (e : Entry) (j : NodeId) :
    ((g.settleValueKey e).node j).content = (g.node j).content := by
  rw [node_settleValueKey]
  split <;> rfl

theorem entries_settleValueKey (g : Graph) (e : Entry) (j : NodeId) :
    (g.settleValueKey e).entries j = g.entries j := by
  unfold entries
  rw [content_settleValueKey]

theorem merged_settleValueKey (g : Graph) (e : Entry) (j : NodeId) :
    ((g.settleValueKey e).node j).merged = (g.node j).merged := by
  rw [node_settleValueKey]
  split <;> rfl

theorem merged_setEntries {g : Graph} {i : NodeId} (h : (g.node i).content.kind = .mapping)
    (es : List Entry) (j : NodeId) :
    ((g.setEntries i es).node j).merged = (g.node j).merged := by
  rw [node_setEntries h]
  split
  · rename_i hij
    rw [hij]
  · rfl

theorem merged_addMerged {g : Graph} {i : NodeId} (h : (g.node i).content.kind = .mapping)
    {merged : List Entry} (j : NodeId) (other : j ≠ i) :
    ((g.addMerged i merged).node j).merged = (g.node j).merged := by
  by_cases hmerged : merged = []
  · rw [hmerged, addMerged_nil]
  · rw [node_addMerged h hmerged, if_neg (Ne.symm other)]

theorem kind_of_mem_entries {g : Graph} {i : NodeId} {e : Entry} (h : e ∈ g.entries i) :
    (g.node i).content.kind = .mapping := by
  by_cases hkind : (g.node i).content.kind = .mapping
  · exact hkind
  · rw [entries_of_kind hkind] at h
    cases h

/-- Two graphs that only differ in the entries of one mapping, and in what is noted of it. -/
structure SameBut (i : NodeId) (g g₁ : Graph) : Prop where
  size : g₁.nodes.size = g.nodes.size
  mark : ∀ j, (g₁.node j).mark = (g.node j).mark
  tag : ∀ j, (g₁.node j).tag = (g.node j).tag
  kind : ∀ j, (g₁.node j).content.kind = (g.node j).content.kind
  content : ∀ j, (g.node j).content.kind ≠ .mapping → (g₁.node j).content = (g.node j).content
  entries : ∀ j, j ≠ i → g₁.entries j = g.entries j

theorem SameBut.of_node {g g₁ : Graph} {i : NodeId} {n : Node}
    (size : g₁.nodes.size = g.nodes.size)
    (node : ∀ j, g₁.node j = if i = j then n else g.node j)
    (mapping : (g.node i).content.kind = .mapping) (mark : n.mark = (g.node i).mark)
    (tag : n.tag = (g.node i).tag) (kind : n.content.kind = .mapping) : SameBut i g g₁ := by
  have here : g₁.node i = n := by rw [node, if_pos rfl]
  have elsewhere : ∀ j, j ≠ i → g₁.node j = g.node j := fun j hj => by
    rw [node, if_neg (Ne.symm hj)]
  refine ⟨size, fun j => ?_, fun j => ?_, fun j => ?_, fun j hj => ?_, fun j hj => ?_⟩
  · by_cases hj : j = i
    · rw [hj, here, mark]
    · rw [elsewhere j hj]
  · by_cases hj : j = i
    · rw [hj, here, tag]
    · rw [elsewhere j hj]
  · by_cases hj : j = i
    · rw [hj, here, kind, mapping]
    · rw [elsewhere j hj]
  · rw [elsewhere j fun h => hj (by rw [h, mapping])]
  · unfold Graph.entries
    rw [elsewhere j hj]

theorem sameBut_setEntries {g : Graph} {i : NodeId} (h : (g.node i).content.kind = .mapping)
    (es : List Entry) : SameBut i g (g.setEntries i es) :=
  .of_node (size_setEntries g i es) (node_setEntries h es) h rfl rfl rfl

theorem sameBut_addMerged {g : Graph} {i : NodeId} (h : (g.node i).content.kind = .mapping)
    {merged : List Entry} (nonempty : merged ≠ []) : SameBut i g (g.addMerged i merged) :=
  .of_node (size_addMerged g i merged) (node_addMerged h nonempty) h rfl rfl rfl

theorem entries_setEntries {g : Graph} {i : NodeId} (h : (g.node i).content.kind = .mapping)
    (es : List Entry) : (g.setEntries i es).entries i = es :=
  entries_of_content (by rw [node_setEntries h, if_pos rfl])

theorem entries_addMerged {g : Graph} {i : NodeId} (h : (g.node i).content.kind = .mapping)
    (merged : List Entry) : (g.addMerged i merged).entries i = merged ++ g.entries i := by
  by_cases hmerged : merged = []
  · rw [hmerged]
    rfl
  · exact entries_of_content (by rw [node_addMerged h hmerged, if_pos rfl])

/-! ## Edits -/

/-- Whether a merge key brings in the entries of a node. -/
def MergeSource (g : Graph) (i : NodeId) : Prop :=
  ∃ j, ∃ e ∈ g.entries j, g.isMerge e = true ∧
    (i = e.value ∨ ∃ items, (g.node e.value).content = .sequence items ∧ i ∈ items)

def Brought (g : Graph) (e : Entry) : Prop := ∃ i, g.MergeSource i ∧ e ∈ g.entries i

/-- Whether a mapping has a merge key. -/
def Merges (g : Graph) (i : NodeId) : Prop := ∃ e ∈ g.entries i, g.isMerge e = true

/-- One change on the way to a graph without the merge keys of some mappings, which are those in
`places`.  What is merged into them was brought by the merge keys of the graph `g₀` in the first
place, and nothing is merged into a mapping that had none. -/
inductive Edit (g₀ : Graph) (places : NodeId → Prop) : Graph → Graph → Prop
  | settle {g : Graph} {i : NodeId} {e : Entry} (place : places i) (mem : e ∈ g.entries i)
      (ordinary : g.isMerge e = false) : Edit g₀ places g (g.settleValueKey e)
  | drop {g : Graph} {i : NodeId} {before after : List Entry} {e : Entry} (place : places i)
      (split : g.entries i = before ++ e :: after) (merge : g.isMerge e = true) :
      Edit g₀ places g (g.setEntries i (before ++ after))
  | add {g : Graph} {i : NodeId} {merged : List Entry} (place : places i)
      (mapping : (g.node i).content.kind = .mapping) (merges : merged = [] ∨ g₀.Merges i)
      (sources : ∀ e ∈ merged, g₀.Brought e) : Edit g₀ places g (g.addMerged i merged)

/-- Any number of changes. -/
abbrev Edits (g₀ : Graph) (places : NodeId → Prop) : Graph → Graph → Prop :=
  Relation.ReflTransGen (Edit g₀ places)

/-- What edits leave of a graph.  Of a node that is no mapping only the tag may change, and only
one tag may; a mapping keeps its ordinary entries and gets others from `brought` alone. -/
structure Flattens (brought : Entry → Prop) (g g' : Graph) : Prop where
  size : g'.nodes.size = g.nodes.size
  mark : ∀ i, (g'.node i).mark = (g.node i).mark
  tag : ∀ i, (g'.node i).tag = (g.node i).tag ∨
    ((g.node i).tag = Tag.value ∧ (g'.node i).tag = Tag.str)
  kind : ∀ i, (g'.node i).content.kind = (g.node i).content.kind
  content : ∀ i, (g.node i).content.kind ≠ .mapping → (g'.node i).content = (g.node i).content
  entries : ∀ i, ∀ e ∈ g'.entries i, e ∈ g.entries i ∨ brought e
  ordinary : ∀ i, ∀ e ∈ g.entries i, g.isMerge e = false → e ∈ g'.entries i

namespace Flattens

variable {brought : Entry → Prop} {g g₁ g₂ : Graph}

theorem refl (brought : Entry → Prop) (g : Graph) : Flattens brought g g where
  size := rfl
  mark _ := rfl
  tag _ := .inl rfl
  kind _ := rfl
  content _ _ := rfl
  entries _ _ h := .inl h
  ordinary _ _ h _ := h

theorem tag_eq_iff (h : Flattens brought g g₁) {i : NodeId} {tag : String}
    (value : tag ≠ Tag.value) (str : tag ≠ Tag.str) :
    (g₁.node i).tag = tag ↔ (g.node i).tag = tag := by
  rcases h.tag i with heq | ⟨hvalue, hstr⟩
  · rw [heq]
  · rw [hvalue, hstr]
    exact ⟨fun h => (str h.symm).elim, fun h => (value h.symm).elim⟩

theorem isMerge_eq (h : Flattens brought g g₁) (e : Entry) : g₁.isMerge e = g.isMerge e := by
  have hiff : (g₁.node e.key).tag = Tag.merge ↔ (g.node e.key).tag = Tag.merge :=
    h.tag_eq_iff (by simp [Tag.merge, Tag.value]) (by simp [Tag.merge, Tag.str])
  unfold isMerge
  rw [Bool.eq_iff_iff, beq_iff_eq, beq_iff_eq]
  exact hiff

theorem emptyCell?_eq (h : Flattens brought g g₁) {d : Dialect} (i : NodeId) :
    Build.emptyCell? d (g₁.node i).tag = Build.emptyCell? d (g.node i).tag := by
  rcases h.tag i with heq | ⟨hvalue, hstr⟩
  · rw [heq]
  · rw [hvalue, hstr]
    rfl

theorem sequence_iff (h : Flattens brought g g₁) {i : NodeId} {items : List NodeId} :
    (g₁.node i).content = .sequence items ↔ (g.node i).content = .sequence items := by
  constructor
  · intro hcontent
    have hkind : (g.node i).content.kind ≠ .mapping := by
      rw [← h.kind, hcontent]
      simp [Content.kind]
    rw [← h.content _ hkind, hcontent]
  · intro hcontent
    have hkind : (g.node i).content.kind ≠ .mapping := by
      rw [hcontent]
      simp [Content.kind]
    rw [h.content _ hkind, hcontent]

theorem trans (h : Flattens brought g g₁) (h' : Flattens brought g₁ g₂) :
    Flattens brought g g₂ where
  size := h'.size.trans h.size
  mark i := (h'.mark i).trans (h.mark i)
  tag i := by
    rcases h.tag i with heq | ⟨hvalue, hstr⟩
    · rw [← heq]
      exact h'.tag i
    · rcases h'.tag i with heq' | ⟨hvalue', -⟩
      · exact .inr ⟨hvalue, heq'.trans hstr⟩
      · rw [hstr] at hvalue'
        simp [Tag.str, Tag.value] at hvalue'
  kind i := (h'.kind i).trans (h.kind i)
  content i hi := (h'.content i (by rw [h.kind]; exact hi)).trans (h.content i hi)
  entries i e he := by
    rcases h'.entries i e he with hmem | hbrought
    · exact h.entries i e hmem
    · exact .inr hbrought
  ordinary i e he hordinary :=
    h'.ordinary i e (h.ordinary i e he hordinary) (by rw [h.isMerge_eq, hordinary])

theorem of_sameBut {i : NodeId} (h : SameBut i g g₁)
    (entries : ∀ e ∈ g₁.entries i, e ∈ g.entries i ∨ brought e)
    (ordinary : ∀ e ∈ g.entries i, g.isMerge e = false → e ∈ g₁.entries i) :
    Flattens brought g g₁ where
  size := h.size
  mark := h.mark
  tag j := .inl (h.tag j)
  kind := h.kind
  content := h.content
  entries j e he := by
    by_cases hji : j = i
    · subst hji
      exact entries e he
    · rw [h.entries j hji] at he
      exact .inl he
  ordinary j e he hordinary := by
    by_cases hji : j = i
    · subst hji
      exact ordinary e he hordinary
    · rw [h.entries j hji]
      exact he

theorem of_settle (brought : Entry → Prop) (g : Graph) (e : Entry) :
    Flattens brought g (g.settleValueKey e) where
  size := size_settleValueKey g e
  mark j := by
    rw [node_settleValueKey]
    split <;> rfl
  tag j := by
    rw [node_settleValueKey]
    split
    · rename_i hj
      exact .inr ⟨hj.2, rfl⟩
    · exact .inl rfl
  kind j := by rw [content_settleValueKey]
  content j _ := content_settleValueKey g e j
  entries j e' he' := by
    rw [entries_settleValueKey] at he'
    exact .inl he'
  ordinary j e' he' _ := by
    rw [entries_settleValueKey]
    exact he'

theorem of_drop {i : NodeId} {before after : List Entry} {e : Entry}
    (split : g.entries i = before ++ e :: after) (merge : g.isMerge e = true) :
    Flattens brought g (g.setEntries i (before ++ after)) := by
  have mapping : (g.node i).content.kind = .mapping :=
    kind_of_mem_entries (e := e) (by simp [split])
  refine of_sameBut (sameBut_setEntries mapping _) (fun e' he' => ?_) (fun e' he' hordinary => ?_)
  · rw [entries_setEntries mapping, List.mem_append] at he'
    rw [split]
    exact .inl (by rcases he' with he' | he' <;> simp [he'])
  · rw [split, List.mem_append, List.mem_cons] at he'
    rw [entries_setEntries mapping, List.mem_append]
    rcases he' with hbefore | rfl | hafter
    · exact .inl hbefore
    · rw [hordinary] at merge
      cases merge
    · exact .inr hafter

theorem of_add {i : NodeId} {merged : List Entry} (mapping : (g.node i).content.kind = .mapping)
    (sources : ∀ e ∈ merged, brought e) : Flattens brought g (g.addMerged i merged) := by
  by_cases hmerged : merged = []
  · rw [hmerged, addMerged_nil]
    exact refl brought g
  refine of_sameBut (sameBut_addMerged mapping hmerged) (fun e he => ?_) (fun e he _ => ?_)
  · rw [entries_addMerged mapping, List.mem_append] at he
    exact he.symm.imp id (sources e)
  · rw [entries_addMerged mapping]
    exact List.mem_append_right merged he

theorem of_edit {g₀ : Graph} {places : NodeId → Prop} (h : Edit g₀ places g g₁) :
    Flattens g₀.Brought g g₁ := by
  cases h with
  | settle => exact of_settle _ g _
  | drop _ split merge => exact of_drop split merge
  | add _ mapping _ sources => exact of_add mapping sources

theorem of_edits {g₀ : Graph} {places : NodeId → Prop} (h : Edits g₀ places g g₁) :
    Flattens g₀.Brought g g₁ := by
  induction h with
  | refl => exact refl _ g
  | tail _ last ih => exact ih.trans (of_edit last)

end Flattens

/-! ## Where merged entries come from -/

variable {g₀ g : Graph} {places : NodeId → Prop}

/-- Whether a merge key of a mapping, be it its own or brought in, names another node. -/
def Draws (g : Graph) (i j : NodeId) : Prop :=
  ∃ m, (m ∈ g.entries i ∨ g.Brought m) ∧ g.isMerge m = true ∧
    (j = m.value ∨ ∃ items, (g.node m.value).content = .sequence items ∧ j ∈ items)

/-- What the merge keys of an edited mapping name they may name from the start. -/
theorem Flattens.draws (h : Flattens g₀.Brought g₀ g) {i j : NodeId} {m : Entry}
    (mem : m ∈ g.entries i) (merge : g.isMerge m = true)
    (named : j = m.value ∨ ∃ items, (g.node m.value).content = .sequence items ∧ j ∈ items) :
    g₀.Draws i j := by
  refine ⟨m, h.entries i m mem, by rw [← h.isMerge_eq, merge], ?_⟩
  rcases named with heq | ⟨items, hitems, hj⟩
  · exact .inl heq
  · exact .inr ⟨items, h.sequence_iff.mp hitems, hj⟩

theorem Draws.mergeSource {g : Graph} {i j : NodeId} (h : g.Draws i j) : g.MergeSource j := by
  obtain ⟨m, hmem | ⟨k, -, hmem⟩, hmerge, hnamed⟩ := h
  · exact ⟨i, m, hmem, hmerge, hnamed⟩
  · exact ⟨k, m, hmem, hmerge, hnamed⟩

/-- The mappings that the merge keys of an edited graph name are named in the first graph. -/
theorem Flattens.mergeSource (h : Flattens g₀.Brought g₀ g) {i j : NodeId} {e : Entry}
    (mem : e ∈ g.entries j) (merge : g.isMerge e = true)
    (named : i = e.value ∨ ∃ items, (g.node e.value).content = .sequence items ∧ i ∈ items) :
    g₀.MergeSource i := (h.draws mem merge named).mergeSource

theorem Flattens.brought (h : Flattens g₀.Brought g₀ g) {i : NodeId} {e : Entry}
    (source : g₀.MergeSource i) (mem : e ∈ g.entries i) : g₀.Brought e := by
  rcases h.entries i e mem with hmem | hbrought
  · exact ⟨i, source, hmem⟩
  · exact hbrought

/-- A graph on the way from `g₀`; mappings that had no merge key are as they were. -/
structure Edited (g₀ g : Graph) : Prop where
  flat : Flattens g₀.Brought g₀ g
  unmerged : ∀ i, ¬g₀.Merges i → g.entries i = g₀.entries i
  ungained : ∀ i, ¬g₀.Merges i → (g.node i).merged = (g₀.node i).merged

theorem Edited.refl (g : Graph) : Edited g g :=
  ⟨.refl g.Brought g, fun _ _ => rfl, fun _ _ => rfl⟩

theorem Edited.merges (h : Edited g₀ g) {i : NodeId} {e : Entry} (mem : e ∈ g.entries i)
    (merge : g.isMerge e = true) : g₀.Merges i := by
  by_cases hmerges : g₀.Merges i
  · exact hmerges
  · rw [h.unmerged i hmerges] at mem
    rw [h.flat.isMerge_eq] at merge
    exact ⟨e, mem, merge⟩

/-- An edit changes the entries of a mapping in one of its places alone. -/
theorem Edit.entries_eq {g' : Graph} (h : Edit g₀ places g g') {j : NodeId} (other : ¬places j) :
    g'.entries j = g.entries j := by
  have elsewhere : ∀ {i : NodeId}, places i → j ≠ i := by
    rintro i hi rfl
    exact other hi
  cases h with
  | settle => exact entries_settleValueKey g _ j
  | @drop i before after e place split merge =>
    have mapping : (g.node i).content.kind = .mapping :=
      kind_of_mem_entries (e := e) (by simp [split])
    exact (sameBut_setEntries mapping _).entries j (elsewhere place)
  | @add i merged place mapping =>
    by_cases hmerged : merged = []
    · rw [hmerged, addMerged_nil]
    · exact (sameBut_addMerged mapping hmerged).entries j (elsewhere place)

theorem Edits.entries_eq {g' : Graph} (h : Edits g₀ places g g') {j : NodeId}
    (other : ¬places j) : g'.entries j = g.entries j := by
  induction h with
  | refl => rfl
  | tail _ last ih => rw [last.entries_eq other, ih]

theorem Edited.edit {g' : Graph} (h : Edited g₀ g) (edit : Edit g₀ places g g') :
    Edited g₀ g' := by
  have elsewhere : ∀ {i j : NodeId}, ¬g₀.Merges j → g₀.Merges i → j ≠ i := by
    rintro i _ hj hi rfl
    exact hj hi
  refine ⟨h.flat.trans (.of_edit edit), fun j hj => ?_, fun j hj => ?_⟩
  · rw [← h.unmerged j hj]
    cases edit with
    | settle => exact entries_settleValueKey g _ j
    | @drop i before after e place split merge =>
      have mem : e ∈ g.entries i := by simp [split]
      exact (sameBut_setEntries (kind_of_mem_entries mem) _).entries j
        (elsewhere hj (h.merges mem merge))
    | @add i merged place mapping merges =>
      by_cases hmerged : merged = []
      · rw [hmerged, addMerged_nil]
      · exact (sameBut_addMerged mapping hmerged).entries j
          (elsewhere hj (merges.resolve_left hmerged))
  · rw [← h.ungained j hj]
    cases edit with
    | settle => exact merged_settleValueKey g _ j
    | @drop i before after e place split merge =>
      exact merged_setEntries (kind_of_mem_entries (e := e) (by simp [split])) _ j
    | @add i merged place mapping merges =>
      by_cases hmerged : merged = []
      · rw [hmerged, addMerged_nil]
      · exact merged_addMerged mapping j (elsewhere hj (merges.resolve_left hmerged))

theorem Edited.edits {g' : Graph} (h : Edited g₀ g) (edits : Edits g₀ places g g') :
    Edited g₀ g' := by
  induction edits with
  | refl => exact h
  | tail _ last ih => exact ih.edit last

theorem isMerge_settleValueKey (g : Graph) (e e' : Entry) :
    (g.settleValueKey e).isMerge e' = g.isMerge e' := by
  unfold isMerge
  rw [node_settleValueKey]
  split
  · rename_i h
    rw [h.2]
    simp [Tag.str, Tag.merge, Tag.value]
  · rfl

/-- The entries of a mapping from some place on up to its next merge key. -/
def passed (g : Graph) (i : NodeId) (n : Nat) : List Entry :=
  ((g.entries i).drop n).takeWhile fun e => !g.isMerge e

theorem mem_passed {g : Graph} {i : NodeId} {n : Nat} {e : Entry} (h : e ∈ g.passed i n) :
    e ∈ g.entries i ∧ g.isMerge e = false :=
  ⟨List.mem_of_mem_drop ((List.takeWhile_sublist _).mem h), by
    simpa using List.mem_takeWhile_imp h⟩

theorem entries_foldl_settle (es : List Entry) (g : Graph) (j : NodeId) :
    (es.foldl settleValueKey g).entries j = g.entries j := by
  induction es generalizing g with
  | nil => rfl
  | cons e es ih => rw [List.foldl_cons, ih, entries_settleValueKey]

theorem isMerge_foldl_settle (es : List Entry) (g : Graph) (e : Entry) :
    (es.foldl settleValueKey g).isMerge e = g.isMerge e := by
  induction es generalizing g with
  | nil => rfl
  | cons e' es ih => rw [List.foldl_cons, ih, isMerge_settleValueKey]

theorem edits_foldl_settle {i : NodeId} (place : places i) {es : List Entry} {g : Graph}
    (mem : ∀ e ∈ es, e ∈ g.entries i ∧ g.isMerge e = false) :
    Edits g₀ places g (es.foldl settleValueKey g) := by
  induction es generalizing g with
  | nil => exact .refl
  | cons e es ih =>
    have he := mem e (by simp)
    refine .head (.settle place he.1 he.2) (ih fun e' he' => ?_)
    rw [entries_settleValueKey, isMerge_settleValueKey]
    exact mem e' (by simp [he'])

/-! ## Sifting -/

theorem sift_congr {g' : Graph} (same : ∀ e, g'.isMerge e = g.isMerge e) (es : List Entry) :
    g'.sift es = g.sift es := by
  induction es using sift.induct g with
  | case1 => rfl
  | case2 e merge => simp [sift, same, merge]
  | case3 e ordinary => simp [sift, same, ordinary]
  | case4 e next rest merge ih => simp [sift, same, merge, ih]
  | case5 e next rest ordinary ih => simp [sift, same, ordinary, ih]

theorem mem_sift {es : List Entry} {e : Entry} {seen : Bool} (h : (e, seen) ∈ g.sift es) :
    e ∈ es ∧ (seen = true → g.isMerge e = false) := by
  induction es using sift.induct g with
  | case1 => cases h
  | case2 e' merge => simp [sift, merge] at h
  | case3 e' ordinary =>
    simp only [sift, ordinary, Bool.false_eq_true, if_false, List.mem_singleton,
      Prod.mk.injEq] at h
    obtain ⟨rfl, -⟩ := h
    exact ⟨by simp, fun _ => by simpa using ordinary⟩
  | case4 e' next rest merge ih =>
    simp only [sift, merge, if_true, List.mem_cons, Prod.mk.injEq] at h
    rcases h with ⟨rfl, rfl⟩ | h
    · exact ⟨by simp, fun hseen => by cases hseen⟩
    · exact ⟨by simp [(ih h).1], (ih h).2⟩
  | case5 e' next rest ordinary ih =>
    simp only [sift, ordinary, Bool.false_eq_true, if_false, List.mem_cons, Prod.mk.injEq] at h
    rcases h with ⟨rfl, -⟩ | h
    · exact ⟨by simp, fun _ => by simpa using ordinary⟩
    · exact ⟨List.mem_cons_of_mem _ (ih h).1, (ih h).2⟩

theorem setEntries_self {i : NodeId} (mapping : (g.node i).content.kind = .mapping) :
    g.setEntries i (g.entries i) = g := by
  have hlt : i < g.nodes.size := lt_size_of_kind (by simp [mapping])
  have hnode : { g.node i with content := .mapping (g.entries i) } = g.nodes[i] := by
    have hget : g.node i = g.nodes[i] := by simp [node, hlt]
    unfold entries
    cases hcontent : (g.node i).content with
    | mapping es => rw [← hget, ← hcontent]
    | scalar text => simp [hcontent, Content.kind] at mapping
    | sequence items => simp [hcontent, Content.kind] at mapping
  unfold setEntries setNode
  rw [hnode]
  simp [Array.setIfInBounds, hlt]

theorem setEntries_setEntries {i : NodeId} (mapping : (g.node i).content.kind = .mapping)
    (es es' : List Entry) : (g.setEntries i es).setEntries i es' = g.setEntries i es' := by
  rw [setEntries, node_setEntries mapping, if_pos rfl]
  simp [setEntries, setNode]

theorem isMerge_setEntries {i : NodeId} (mapping : (g.node i).content.kind = .mapping)
    (es : List Entry) (e : Entry) : (g.setEntries i es).isMerge e = g.isMerge e := by
  unfold isMerge
  rw [(sameBut_setEntries mapping es).tag]

theorem edit_drop_first {i : NodeId} (place : places i)
    (mapping : (g.node i).content.kind = .mapping) {before after : List Entry} {e : Entry}
    (merge : g.isMerge e = true) :
    Edit g₀ places (g.setEntries i (before ++ e :: after))
      (g.setEntries i (before ++ after)) := by
  have hmerge : (g.setEntries i (before ++ e :: after)).isMerge e = true := by
    rw [isMerge_setEntries mapping, merge]
  have hdrop : Edit g₀ places _ _ := .drop place (entries_setEntries mapping _) hmerge
  rwa [setEntries_setEntries mapping] at hdrop

/-- Merge keys that are sifted out are dropped one by one. -/
theorem edits_drop_sifted {i : NodeId} (place : places i)
    (mapping : (g.node i).content.kind = .mapping) (before es : List Entry) :
    Edits g₀ places (g.setEntries i (before ++ es))
      (g.setEntries i (before ++ (g.sift es).map (·.1))) := by
  induction es using sift.induct g generalizing before with
  | case1 => exact .refl
  | case2 e merge =>
    simp only [sift, merge, if_true]
    exact .single (edit_drop_first place mapping merge)
  | case3 e ordinary =>
    simp only [sift, ordinary]
    exact .refl
  | case4 e next rest merge ih =>
    simp only [sift, merge, if_true, List.map_cons]
    have hrest := ih (before ++ [next])
    simp only [List.append_assoc, List.singleton_append] at hrest
    exact .head (edit_drop_first place mapping merge) hrest
  | case5 e next rest ordinary ih =>
    have hrest := ih (before ++ [e])
    simp only [List.append_assoc, List.singleton_append] at hrest
    simp only [sift, ordinary, Bool.false_eq_true, if_false, List.map_cons]
    exact hrest

theorem edits_siftEntries {i : NodeId} (place : places i) {before es : List Entry}
    (mapping : (g.node i).content.kind = .mapping) (split : g.entries i = before ++ es) :
    Edits g₀ places g (g.siftEntries i before es) := by
  unfold siftEntries
  dsimp only
  have hsettle : Edits g₀ places g
      ((((g.sift es).filter (·.2)).map (·.1)).foldl settleValueKey g) := by
    refine edits_foldl_settle place fun e he => ?_
    simp only [List.mem_map, List.mem_filter] at he
    obtain ⟨⟨e, seen⟩, ⟨hmem, hseen⟩, rfl⟩ := he
    obtain ⟨hmem, hordinary⟩ := mem_sift hmem
    exact ⟨by simp [split, hmem], hordinary hseen⟩
  have hentries := entries_foldl_settle (((g.sift es).filter (·.2)).map (·.1)) g i
  have hmerge := isMerge_foldl_settle (((g.sift es).filter (·.2)).map (·.1)) g
  generalize (((g.sift es).filter (·.2)).map (·.1)).foldl settleValueKey g = settled
    at hsettle hentries hmerge ⊢
  have hmapping : (settled.node i).content.kind = .mapping := by
    rw [(Flattens.of_edits hsettle).kind, mapping]
  have hdrop : Edits g₀ places (settled.setEntries i (before ++ es)) _ :=
    edits_drop_sifted place hmapping before es
  rw [sift_congr hmerge, ← split, ← hentries, setEntries_self hmapping] at hdrop
  exact hsettle.trans hdrop

end Graph

namespace Merging

variable {g₀ : Graph} {places : NodeId → Prop} {inner again : Replacer}

/-- A replacer changes graphs by edits only, what it gives can be brought in, and it gives nothing
new for a mapping without merge keys. -/
def Sound (g₀ : Graph) (places : NodeId → Prop) (again : Replacer) : Prop :=
  ∀ i n merged g out g', g₀.Edited g → places i →
    (g.node i).content.kind = .mapping → (∀ e ∈ merged, g₀.Brought e) →
    (again i n merged).run g = .ok (out, g') →
    Graph.Edits g₀ places g g' ∧ (∀ e ∈ out, g₀.Brought e) ∧ (out = merged ∨ g₀.Merges i)

theorem Sound.wholeWith (sound : Sound g₀ places inner)
    (sources : ∀ i, g₀.MergeSource i → places i) {i : NodeId} {g g' : Graph} {out : List Entry}
    (edited : g₀.Edited g) (source : g₀.MergeSource i)
    (mapping : (g.node i).content.kind = .mapping)
    (h : (wholeWith inner i).run g = .ok (out, g')) :
    Graph.Edits g₀ places g g' ∧ ∀ e ∈ out, g₀.Brought e := by
  unfold Merging.wholeWith at h
  obtain ⟨merged, g₁, hinner, h⟩ := run_bind_ok h
  obtain ⟨⟨⟩, g₂, hadd, h⟩ := run_bind_ok h
  obtain ⟨hedits, hmerged, hmerges⟩ := sound i 0 [] g merged g₁ edited (sources i source) mapping
    (by simp) hinner
  cases hadd
  cases h
  have hmapping : (g₁.node i).content.kind = .mapping := by
    rw [(Graph.Flattens.of_edits hedits).kind, mapping]
  have hall : Graph.Edits g₀ places g (g₁.addMerged i merged) :=
    .tail hedits (.add (sources i source) hmapping hmerges hmerged)
  exact ⟨hall, fun e he => (edited.edits hall).flat.brought source he⟩

theorem edits_mapM {f : NodeId → Merging (List Entry)} {items : List NodeId}
    (each : ∀ i ∈ items, ∀ g out g', g₀.Edited g → (f i).run g = .ok (out, g') →
      Graph.Edits g₀ places g g' ∧ ∀ e ∈ out, g₀.Brought e)
    {g g' : Graph} {parts : List (List Entry)} (edited : g₀.Edited g)
    (h : (items.mapM f).run g = .ok (parts, g')) :
    Graph.Edits g₀ places g g' ∧ ∀ part ∈ parts, ∀ e ∈ part, g₀.Brought e := by
  induction items generalizing g parts with
  | nil =>
    rw [List.mapM_nil] at h
    cases h
    exact ⟨.refl, by simp⟩
  | cons i items ih =>
    rw [List.mapM_cons] at h
    obtain ⟨part, g₁, hpart, h⟩ := run_bind_ok h
    obtain ⟨rest, g₂, hrest, h⟩ := run_bind_ok h
    cases h
    obtain ⟨hedits, hbrought⟩ := each i (by simp) g part g₁ edited hpart
    obtain ⟨hedits', hbrought'⟩ := ih (fun j hj => each j (by simp [hj])) (edited.edits hedits)
      hrest
    refine ⟨hedits.trans hedits', fun p hp => ?_⟩
    rcases List.mem_cons.mp hp with rfl | hp
    · exact hbrought
    · exact hbrought' p hp

/-- What one item of a list that a merge key names brings in. -/
def partWith (inner : Replacer) (mark : Mark) (i : NodeId) : Merging (List Entry) := do
  let part := (← get).node i
  if part.content.kind != .mapping then
    complain mark (.expectedMappingToMerge part.content.kind) part.mark
  wholeWith inner i

theorem broughtIn_sequence {mark : Mark} {i : NodeId} {source : Node} {items : List NodeId}
    (content : source.content = .sequence items) :
    broughtIn inner mark i source =
      items.mapM (partWith inner mark) >>= fun parts => pure parts.reverse.flatten := by
  unfold broughtIn
  rw [content]
  rfl

theorem run_partWith {mark : Mark} {i : NodeId} {g : Graph}
    (mapping : (g.node i).content.kind = .mapping) :
    (partWith inner mark i).run g = (wholeWith inner i).run g := by
  unfold partWith
  rw [run_bind_of_ok (run_get g)]
  simp only [mapping, bne_self_eq_false]
  rfl

theorem mapping_of_partWith {mark : Mark} {i : NodeId} {g g' : Graph} {out : List Entry}
    (h : (partWith inner mark i).run g = .ok (out, g')) :
    (g.node i).content.kind = .mapping := by
  by_contra hkind
  have hne : ((g.node i).content.kind != .mapping) = true := by simp [hkind]
  unfold partWith at h
  rw [run_bind_of_ok (run_get g)] at h
  simp only [hne, if_true] at h
  obtain ⟨_, _, hthrow, -⟩ := run_bind_ok h
  cases hthrow

theorem Sound.broughtIn (sound : Sound g₀ places inner)
    (sources : ∀ i, g₀.MergeSource i → places i) {mark : Mark} {i : NodeId} {source : Node}
    {g g' : Graph} {out : List Entry} (edited : g₀.Edited g)
    (single : source.content.kind = .mapping →
      g₀.MergeSource i ∧ (g.node i).content.kind = .mapping)
    (many : ∀ items, source.content = .sequence items → ∀ j ∈ items, g₀.MergeSource j)
    (h : (broughtIn inner mark i source).run g = .ok (out, g')) :
    Graph.Edits g₀ places g g' ∧ ∀ e ∈ out, g₀.Brought e := by
  cases hcontent : source.content with
  | mapping es =>
    unfold Merging.broughtIn at h
    rw [hcontent] at h
    obtain ⟨hsource, hmapping⟩ := single (by rw [hcontent]; rfl)
    exact sound.wholeWith sources edited hsource hmapping h
  | sequence items =>
    rw [broughtIn_sequence hcontent] at h
    obtain ⟨parts, g₁, hparts, h⟩ := run_bind_ok h
    cases h
    have each : ∀ j ∈ items, ∀ g out g', g₀.Edited g →
        (partWith inner mark j).run g = .ok (out, g') →
        Graph.Edits g₀ places g g' ∧ ∀ e ∈ out, g₀.Brought e := by
      intro j hj g out g' edited h
      have hkind := mapping_of_partWith h
      rw [run_partWith hkind] at h
      exact sound.wholeWith sources edited (many items hcontent j hj) hkind h
    obtain ⟨hedits, hbrought⟩ := edits_mapM each edited hparts
    refine ⟨hedits, fun e he => ?_⟩
    obtain ⟨part, hpart, he⟩ := List.mem_flatten.mp he
    exact hbrought part (List.mem_reverse.mp hpart) e he
  | scalar text =>
    unfold Merging.broughtIn at h
    rw [hcontent] at h
    cases h

theorem entries_at_merge {g : Graph} {i : NodeId} {n : Nat} {e : Entry} {rest : List Entry}
    (h : ((g.entries i).drop n).dropWhile (fun e => !g.isMerge e) = e :: rest) :
    g.isMerge e = true ∧
      g.entries i = (g.entries i).take (n + (g.passed i n).length) ++ e :: rest := by
  have hsplit : (g.entries i).drop n = g.passed i n ++ e :: rest := by
    rw [Graph.passed, ← h, List.takeWhile_append_dropWhile]
  constructor
  · have hhead := List.head?_dropWhile_not (fun e => !g.isMerge e) ((g.entries i).drop n)
    rw [h] at hhead
    simpa using hhead
  · have htake : ((g.entries i).drop n).take (g.passed i n).length = g.passed i n :=
      (congrArg (List.take _) hsplit).trans List.take_left
    rw [List.take_add, List.append_assoc, htake, ← hsplit, List.take_append_drop]

/-- One round that ends well: ordinary keys are settled up to the next merge key.  If there is
one it is dropped, and what it brings in comes after what was brought in before; behind a second
merge key of the modern dialect the entries are sifted. -/
theorem replaceNext_ok {r : Rules} {i : NodeId} {n : Nat} {merged out : List Entry}
    {g g' : Graph} (h : (replaceNext r inner again i n merged).run g = .ok (out, g')) :
    ∃ settled, settled = (g.passed i n).foldl Graph.settleValueKey g ∧
      ((out = merged ∧ g' = settled) ∨
        ∃ before e rest, g.entries i = before ++ e :: rest ∧ g.isMerge e = true ∧
          ((merged ≠ [] ∧ out = merged ∧ g' = settled.siftEntries i before (e :: rest)) ∨
            ∃ mark next more g₂,
              (broughtIn inner mark e.value (settled.node e.value)).run
                (settled.setEntries i (before ++ rest)) = .ok (more, g₂) ∧
              (again i next (merged ++ more)).run g₂ = .ok (out, g'))) := by
  refine ⟨_, rfl, ?_⟩
  unfold Merging.replaceNext at h
  rw [run_bind_of_ok (run_get g), run_bind_of_ok (run_set _ g)] at h
  have hpassed : ((g.entries i).drop n).takeWhile (fun e => !g.isMerge e) = g.passed i n := rfl
  simp only [hpassed, Graph.entries_foldl_settle, Graph.isMerge_foldl_settle] at h
  generalize (g.passed i n).foldl Graph.settleValueKey g = settled at h ⊢
  cases hnext : ((g.entries i).drop n).dropWhile fun e => !g.isMerge e with
  | nil =>
    rw [hnext] at h
    cases h
    exact .inl ⟨rfl, rfl⟩
  | cons e rest =>
    rw [hnext] at h
    obtain ⟨hkey, hsplit⟩ := entries_at_merge hnext
    refine .inr ⟨_, e, rest, hsplit, hkey, ?_⟩
    by_cases hsecond : r.dialect == .modern && !merged.isEmpty
    · simp only [hsecond, if_true] at h
      by_cases hrefused : r.duplicates == .refused
      · simp only [hrefused, if_true] at h
        obtain ⟨_, _, hthrow, -⟩ := run_bind_ok h
        cases hthrow
      · simp only [hrefused] at h
        rw [if_neg (by simp), run_bind_of_ok (run_set _ settled)] at h
        cases h
        have hmerged : r.dialect = .modern ∧ merged ≠ [] := by simpa using hsecond
        exact .inl ⟨hmerged.2, rfl, rfl⟩
    · simp only [hsecond] at h
      rw [if_neg (by simp), run_bind_of_ok (run_set _ settled)] at h
      obtain ⟨more, g₂, hmore, h⟩ := run_bind_ok h
      exact .inr ⟨_, _, more, g₂, hmore, h⟩

/-- Dropping a merge key and fetching what it brings in is a matter of edits. -/
theorem Sound.bring (below : Sound g₀ places inner) (sources : ∀ i, g₀.MergeSource i → places i)
    {i : NodeId} {e : Entry} {before rest more : List Entry} {mark : Mark} {g g' : Graph}
    (edited : g₀.Edited g) (place : places i) (split : g.entries i = before ++ e :: rest)
    (key : g.isMerge e = true)
    (h : (Merging.broughtIn inner mark e.value (g.node e.value)).run
      (g.setEntries i (before ++ rest)) = .ok (more, g')) :
    Graph.Edits g₀ places g g' ∧ ∀ e ∈ more, g₀.Brought e := by
  have hdrop : Graph.Edit g₀ places g (g.setEntries i (before ++ rest)) := .drop place split key
  have hmem : e ∈ g.entries i := by simp [split]
  obtain ⟨hedits, hmore⟩ := below.broughtIn sources (edited.edit hdrop)
    (fun hkind => ⟨edited.flat.mergeSource hmem key (.inl rfl), by
      rw [(Graph.Flattens.of_edit hdrop).kind, hkind]⟩)
    (fun items hitems j hj => edited.flat.mergeSource hmem key (.inr ⟨items, hitems, hj⟩)) h
  exact ⟨.head hdrop hedits, hmore⟩

theorem Sound.replaceNext {r : Rules} (below : Sound g₀ places inner)
    (sound : Sound g₀ places again) (sources : ∀ i, g₀.MergeSource i → places i) :
    Sound g₀ places (replaceNext r inner again) := by
  intro i n merged g out g' edited place mapping hmerged h
  obtain ⟨settled, rfl, hround⟩ := replaceNext_ok h
  have hsettle : Graph.Edits g₀ places g ((g.passed i n).foldl Graph.settleValueKey g) :=
    Graph.edits_foldl_settle place fun e he => Graph.mem_passed he
  have hentries := Graph.entries_foldl_settle (g.passed i n) g i
  have hmerge := Graph.isMerge_foldl_settle (g.passed i n) g
  generalize (g.passed i n).foldl Graph.settleValueKey g = settled
    at hround hsettle hentries hmerge
  rcases hround with ⟨rfl, rfl⟩ | ⟨before, e, rest, hsplit, hkey, hround⟩
  · exact ⟨hsettle, hmerged, .inl rfl⟩
  have hmerges : g₀.Merges i := edited.merges (by simp [hsplit]) hkey
  rw [← hentries] at hsplit
  rw [← hmerge] at hkey
  rcases hround with ⟨-, rfl, rfl⟩ | ⟨mark, next, more, g₂, hmore, h⟩
  · have hmapping : (settled.node i).content.kind = .mapping := by
      rw [(Graph.Flattens.of_edits hsettle).kind, mapping]
    have hsift : Graph.Edits g₀ places settled _ :=
      Graph.edits_siftEntries place hmapping hsplit
    exact ⟨hsettle.trans hsift, hmerged, .inr hmerges⟩
  · obtain ⟨hedits, hmoreBrought⟩ :=
      below.bring sources (edited.edits hsettle) place hsplit hkey hmore
    have hall := hsettle.trans hedits
    have hmapping : (g₂.node i).content.kind = .mapping := by
      rw [(Graph.Flattens.of_edits hall).kind, mapping]
    have hmerged₂ : ∀ e ∈ merged ++ more, g₀.Brought e := fun e he =>
      (List.mem_append.mp he).elim (hmerged e) (hmoreBrought e)
    obtain ⟨hedits', hout, -⟩ := sound i next _ g₂ out g' (edited.edits hall) place
      hmapping hmerged₂ h
    exact ⟨hall.trans hedits', hout, .inr hmerges⟩

theorem Sound.rounds {r : Rules} (below : Sound g₀ places inner)
    (sources : ∀ i, g₀.MergeSource i → places i) (fuel : Nat) :
    Sound g₀ places (rounds r inner fuel) := by
  induction fuel with
  | zero =>
    intro i n merged g out g' _ _ _ _ h
    cases h
  | succ fuel ih => exact below.replaceNext ih sources

theorem run_replaceFrom (r : Rules) (depth : Nat) (i : NodeId) (n : Nat) (merged : List Entry)
    (g : Graph) : (replaceFrom r (depth + 1) i n merged).run g =
      (rounds r (replaceFrom r depth) ((g.entries i).length + 2) i n merged).run g := by
  rw [replaceFrom, run_bind_of_ok (run_get g)]

theorem replaceFrom_sound (r : Rules) (sources : ∀ i, g₀.MergeSource i → places i)
    (depth : Nat) : Sound g₀ places (replaceFrom r depth) := by
  induction depth with
  | zero =>
    intro i n merged g out g' _ _ _ _ h
    cases h
  | succ depth ih =>
    intro i n merged g out g' edited place mapping hmerged h
    rw [run_replaceFrom] at h
    exact ih.rounds sources _ i n merged g out g' edited place mapping hmerged h

/-- The nodes that replacing the merge keys of a mapping may change. -/
def Touched (g₀ : Graph) (top i : NodeId) : Prop := i = top ∨ g₀.MergeSource i

/-- Replacing the merge keys of a mapping is a matter of edits. -/
theorem replace_edits {r : Rules} {top : NodeId} {g g' : Graph}
    (edited : g₀.Edited g) (mapping : (g.node top).content.kind = .mapping)
    (h : (replace r top).run g = .ok ((), g')) :
    Graph.Edits g₀ (Touched g₀ top) g g' := by
  unfold replace at h
  obtain ⟨merged, g₁, hfrom, h⟩ := run_bind_ok h
  have hsound : Sound g₀ (Touched g₀ top) (replaceFrom r (r.limits.merging + 1)) :=
    replaceFrom_sound r (fun i hi => .inr hi) _
  obtain ⟨hedits, hmerged, hmerges⟩ :=
    hsound top 0 [] g merged g₁ edited (.inl rfl) mapping (by simp) hfrom
  cases h
  refine hedits.tail (.add (.inl rfl) ?_ hmerges hmerged)
  rw [(Graph.Flattens.of_edits hedits).kind, mapping]

end Merging

end YamlCheck.Yaml
