import YamlCheck.Proofs.Yaml.Repeats

/-!
# Two readings of one document

The dialects may give a plain scalar different tags, so that a document is read into graphs which
differ in such tags.  If all keys are texts or merge keys, and no mapping has two merge keys, then
merge keys are replaced alike in both readings, whatever the dialect and the policy: a second merge
key, where the dialects part, never comes up.
-/

namespace YamlCheck.Yaml

namespace Graph

/-! ## Keys -/

/-- Whether the tag of a node is that of a collection. -/
def collects (g : Graph) (i : NodeId) : Bool :=
  (Build.emptyCell? .classic (g.node i).tag).isSome

/-- Whether the key of an entry is a text. -/
def TextKey (g : Graph) (e : Entry) : Prop :=
  (g.node e.key).content.kind = .scalar ∧ (g.node e.key).tag = Tag.str

def Texts (g : Graph) (es : List Entry) : Prop := ∀ e ∈ es, g.TextKey e

/-- Whether all keys are texts or merge keys. -/
def TextKeys (g : Graph) : Prop :=
  ∀ i < g.nodes.size, ∀ e ∈ g.entries i, (g.node e.key).content.kind = .scalar ∧
    ((g.node e.key).tag = Tag.str ∨ (g.node e.key).tag = Tag.merge)

/-- Whether no mapping has two merge keys. -/
def SingleMerges (g : Graph) : Prop :=
  ∀ i < g.nodes.size, (g.entries i).countP g.isMerge ≤ 1

/-- Whether nothing has been merged yet. -/
def Unmerged (g : Graph) : Prop := ∀ i < g.nodes.size, (g.node i).merged = none

instance (g : Graph) : Decidable g.TextKeys :=
  inferInstanceAs (Decidable (∀ i < g.nodes.size, ∀ e ∈ g.entries i,
    (g.node e.key).content.kind = .scalar ∧
      ((g.node e.key).tag = Tag.str ∨ (g.node e.key).tag = Tag.merge)))

instance (g : Graph) : Decidable g.SingleMerges :=
  inferInstanceAs (Decidable (∀ i < g.nodes.size, (g.entries i).countP g.isMerge ≤ 1))

instance (g : Graph) : Decidable g.Unmerged :=
  inferInstanceAs (Decidable (∀ i < g.nodes.size, (g.node i).merged = none))

/-- What stands at the key of an entry. -/
def keyContent (g : Graph) (e : Entry) : Content := (g.node e.key).content

/-- The entries that are no merge keys. -/
def ordinary (g : Graph) (i : NodeId) : List Entry := (g.entries i).filter fun e => !g.isMerge e

variable {g g' h : Graph} {i j : NodeId} {e : Entry} {es es' : List Entry}

theorem TextKey.isMerge (text : g.TextKey e) : g.isMerge e = false := by
  unfold Graph.isMerge
  rw [text.2]
  decide

theorem Texts.append (left : g.Texts es) (right : g.Texts es') : g.Texts (es ++ es') := by
  intro e he
  rcases List.mem_append.mp he with he | he
  · exact left e he
  · exact right e he

theorem Texts.isMerge (texts : g.Texts es) (mem : e ∈ es) : g.isMerge e = false :=
  (texts e mem).isMerge

theorem Texts.countP (texts : g.Texts es) : es.countP g.isMerge = 0 := by
  rw [List.countP_eq_zero]
  intro e he
  simp [texts.isMerge he]

theorem Texts.filter (texts : g.Texts es) : (es.filter fun e => !g.isMerge e) = es := by
  rw [List.filter_eq_self]
  intro e he
  simp [texts.isMerge he]

/-! ## Graphs on the way -/

/-- A graph all of whose keys are texts or merge keys, at most one of these in a mapping.  What was
merged into a mapping stands before its own entries and has no merge key. -/
structure Orderly (g : Graph) : Prop where
  texts : ∀ i, ∀ e ∈ g.entries i, g.isMerge e = false → g.TextKey e
  single : ∀ i, (g.entries i).countP g.isMerge ≤ 1
  fronted : ∀ i merged, (g.node i).merged = some merged →
    merged <+: g.entries i ∧ g.Texts merged

theorem entries_of_size_le (h : g.nodes.size ≤ i) : g.entries i = [] :=
  entries_of_kind (by rw [node_of_size_le h]; simp [Node.absent, Content.kind])

theorem TextKeys.key (keys : g.TextKeys) (mem : e ∈ g.entries i) :
    (g.node e.key).content.kind = .scalar ∧
      ((g.node e.key).tag = Tag.str ∨ (g.node e.key).tag = Tag.merge) :=
  keys i (lt_size_of_kind (by rw [kind_of_mem_entries mem]; simp)) e mem

theorem TextKeys.text (keys : g.TextKeys) (mem : e ∈ g.entries i) (plain : g.isMerge e = false) :
    g.TextKey e := by
  obtain ⟨hkind, hstr | hmerge⟩ := keys.key mem
  · exact ⟨hkind, hstr⟩
  · simp [Graph.isMerge, hmerge] at plain

theorem orderly_of_read (keys : g.TextKeys) (single : g.SingleMerges) (unmerged : g.Unmerged) :
    g.Orderly where
  texts _ _ mem plain := keys.text mem plain
  single i := by
    by_cases hi : i < g.nodes.size
    · exact single i hi
    · rw [entries_of_size_le (Nat.le_of_not_lt hi)]
      simp
  fronted i merged hmerged := by
    by_cases hi : i < g.nodes.size
    · rw [unmerged i hi] at hmerged
      cases hmerged
    · rw [node_of_size_le (Nat.le_of_not_lt hi)] at hmerged
      cases hmerged

/-- What the replacing of merge keys keeps: tags and kinds, the mappings that have texts as keys
only, and the ordinary entries of a mapping that nothing is merged into. -/
structure Absorbs (g h : Graph) : Prop where
  size : h.nodes.size = g.nodes.size
  tag : ∀ i, (h.node i).tag = (g.node i).tag
  kind : ∀ i, (h.node i).content.kind = (g.node i).content.kind
  content : ∀ i, (g.node i).content.kind ≠ .mapping → (h.node i).content = (g.node i).content
  texts : ∀ i, g.Texts (g.entries i) → g.Texts (h.entries i)
  unmerged : ∀ i, (h.node i).merged = none →
    (g.node i).merged = none ∧ h.ordinary i = g.ordinary i

namespace Absorbs

variable {g₁ g₂ : Graph}

theorem refl (g : Graph) : Absorbs g g :=
  ⟨rfl, fun _ => rfl, fun _ => rfl, fun _ _ => rfl, fun _ texts => texts,
    fun _ hnone => ⟨hnone, rfl⟩⟩

theorem textKey_iff (a : Absorbs g h) : h.TextKey e ↔ g.TextKey e := by
  unfold TextKey
  rw [a.tag, a.kind]

theorem texts_iff (a : Absorbs g h) : h.Texts es ↔ g.Texts es := by
  unfold Texts
  simp only [a.textKey_iff]

theorem isMerge_eq (a : Absorbs g h) (e : Entry) : h.isMerge e = g.isMerge e := by
  unfold Graph.isMerge
  rw [a.tag]

theorem collects_eq (a : Absorbs g h) (i : NodeId) : h.collects i = g.collects i := by
  unfold collects
  rw [a.tag]

theorem trans (a : Absorbs g g₁) (b : Absorbs g₁ g₂) : Absorbs g g₂ where
  size := b.size.trans a.size
  tag i := (b.tag i).trans (a.tag i)
  kind i := (b.kind i).trans (a.kind i)
  content i hi := (b.content i (by rw [a.kind]; exact hi)).trans (a.content i hi)
  texts i htexts := a.texts_iff.mp (b.texts i (a.texts_iff.mpr (a.texts i htexts)))
  unmerged i hnone := by
    obtain ⟨hnone₁, hsame⟩ := b.unmerged i hnone
    obtain ⟨hnone₀, hsame₀⟩ := a.unmerged i hnone₁
    exact ⟨hnone₀, hsame.trans hsame₀⟩

theorem of_sameBut (same : SameBut i g h)
    (others : ∀ j, j ≠ i → (h.node j).merged = (g.node j).merged)
    (texts : g.Texts (g.entries i) → g.Texts (h.entries i))
    (unmerged : (h.node i).merged = none →
      (g.node i).merged = none ∧ h.ordinary i = g.ordinary i) : Absorbs g h where
  size := same.size
  tag := same.tag
  kind := same.kind
  content := same.content
  texts j htexts := by
    by_cases hj : j = i
    · subst hj
      exact texts htexts
    · rw [same.entries j hj]
      exact htexts
  unmerged j hnone := by
    by_cases hj : j = i
    · subst hj
      exact unmerged hnone
    · refine ⟨by rw [← others j hj]; exact hnone, ?_⟩
      unfold ordinary Graph.isMerge
      simp only [same.tag, same.entries j hj]

end Absorbs

/-! ## Dropping a merge key, adding what it brings in -/

section Edits

variable {before after merged : List Entry}

theorem absorbs_drop (split : g.entries i = before ++ e :: after) (merge : g.isMerge e = true) :
    g.Absorbs (g.setEntries i (before ++ after)) := by
  have mapping : (g.node i).content.kind = .mapping :=
    kind_of_mem_entries (e := e) (by simp [split])
  have same := sameBut_setEntries mapping (before ++ after)
  refine .of_sameBut same (fun j _ => merged_setEntries mapping _ j) (fun htexts => ?_)
    fun hnone => ⟨by rw [← merged_setEntries mapping (before ++ after)]; exact hnone, ?_⟩
  · have hplain := htexts.isMerge (e := e) (by simp [split])
    rw [merge] at hplain
    cases hplain
  · unfold ordinary Graph.isMerge
    simp only [same.tag, entries_setEntries mapping, split]
    have hkey : (g.node e.key).tag = Tag.merge := by simpa [Graph.isMerge] using merge
    simp [hkey]

theorem prefix_drop (front : merged <+: before ++ e :: after) (other : e ∉ merged) :
    merged <+: before ++ after := by
  obtain ⟨rest, hrest⟩ := front
  rcases List.append_eq_append_iff.mp hrest with ⟨mid, rfl, -⟩ | ⟨mid, rfl, hmid⟩
  · rw [List.append_assoc]
    exact List.prefix_append merged _
  · cases mid with
    | nil =>
      rw [List.append_nil]
      exact List.prefix_append before after
    | cons e' mid =>
      have hsame : e = e' := (List.cons.inj hmid).1
      exact (other (by simp [hsame])).elim

theorem Orderly.drop (orderly : g.Orderly) (split : g.entries i = before ++ e :: after)
    (merge : g.isMerge e = true) :
    (g.setEntries i (before ++ after)).Orderly ∧ g.Texts (before ++ after) := by
  have mapping : (g.node i).content.kind = .mapping :=
    kind_of_mem_entries (e := e) (by simp [split])
  have absorbs := absorbs_drop split merge
  have same := sameBut_setEntries mapping (before ++ after)
  have hmem : ∀ e' ∈ before ++ after, e' ∈ g.entries i := by
    intro e' he'
    rw [split]
    rcases List.mem_append.mp he' with he' | he' <;> simp [he']
  have hcount : (before ++ after).countP g.isMerge = 0 := by
    have hsingle := orderly.single i
    rw [split, List.countP_append, List.countP_cons_of_pos merge] at hsingle
    rw [List.countP_append]
    omega
  have htexts : g.Texts (before ++ after) := by
    intro e' he'
    have hplain := List.countP_eq_zero.mp hcount e' he'
    exact orderly.texts i e' (hmem e' he') (by simpa using hplain)
  have hmerge : (g.setEntries i (before ++ after)).isMerge = g.isMerge :=
    funext absorbs.isMerge_eq
  refine ⟨⟨fun j e' he' hplain => ?_, fun j => ?_, fun j merged hmerged => ?_⟩, htexts⟩
  · rw [absorbs.textKey_iff]
    rw [hmerge] at hplain
    by_cases hj : j = i
    · subst hj
      rw [entries_setEntries mapping] at he'
      exact htexts e' he'
    · rw [same.entries j hj] at he'
      exact orderly.texts j e' he' hplain
  · rw [hmerge]
    by_cases hj : j = i
    · subst hj
      rw [entries_setEntries mapping, hcount]
      exact Nat.zero_le 1
    · rw [same.entries j hj]
      exact orderly.single j
  · rw [merged_setEntries mapping] at hmerged
    obtain ⟨hfront, hfronted⟩ := orderly.fronted j merged hmerged
    refine ⟨?_, absorbs.texts_iff.mpr hfronted⟩
    by_cases hj : j = i
    · subst hj
      rw [entries_setEntries mapping]
      rw [split] at hfront
      refine prefix_drop hfront fun hin => ?_
      rw [hfronted.isMerge hin] at merge
      cases merge
    · rw [same.entries j hj]
      exact hfront

theorem absorbs_add (mapping : (g.node i).content.kind = .mapping) (texts : g.Texts merged) :
    g.Absorbs (g.addMerged i merged) := by
  by_cases hmerged : merged = []
  · rw [hmerged, addMerged_nil]
    exact .refl g
  · refine .of_sameBut (sameBut_addMerged mapping hmerged)
      (fun j hj => merged_addMerged mapping j hj) (fun htexts => ?_) fun hnone => ?_
    · rw [entries_addMerged mapping]
      exact texts.append htexts
    · rw [node_addMerged mapping hmerged, if_pos rfl] at hnone
      cases hnone

theorem Orderly.add (orderly : g.Orderly) (mapping : (g.node i).content.kind = .mapping)
    (texts : g.Texts merged) : (g.addMerged i merged).Orderly := by
  by_cases hmerged : merged = []
  · rw [hmerged, addMerged_nil]
    exact orderly
  have absorbs := absorbs_add mapping texts
  have same := sameBut_addMerged mapping hmerged
  have hmerge : (g.addMerged i merged).isMerge = g.isMerge := funext absorbs.isMerge_eq
  refine ⟨fun j e' he' hplain => ?_, fun j => ?_, fun j merged' hmerged' => ?_⟩
  · rw [absorbs.textKey_iff]
    rw [hmerge] at hplain
    by_cases hj : j = i
    · subst hj
      rw [entries_addMerged mapping, List.mem_append] at he'
      exact he'.elim (texts e') fun he' => orderly.texts j e' he' hplain
    · rw [same.entries j hj] at he'
      exact orderly.texts j e' he' hplain
  · rw [hmerge]
    by_cases hj : j = i
    · subst hj
      rw [entries_addMerged mapping, List.countP_append, texts.countP, Nat.zero_add]
      exact orderly.single j
    · rw [same.entries j hj]
      exact orderly.single j
  · rw [absorbs.texts_iff]
    by_cases hj : j = i
    · subst hj
      rw [node_addMerged mapping hmerged, if_pos rfl] at hmerged'
      cases hmerged'
      rw [entries_addMerged mapping]
      exact ⟨List.prefix_append _ _, texts⟩
    · rw [same.entries j hj]
      rw [merged_addMerged mapping j hj] at hmerged'
      exact orderly.fronted j merged' hmerged'

end Edits

end Graph

end YamlCheck.Yaml
