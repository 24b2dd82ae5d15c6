import YamlCheck.Proofs.Yaml.Flattening

/-!
# Scalars that a changing graph still denotes

A node with the tag of a scalar denotes its own text or, if it is a mapping, the text of its plain
value, which a key with a tag of its own marks.  Replacing merge keys may take that tag away.  Here
it is shown when it does not, so that a scalar is the same before and after.
-/

namespace YamlCheck.Yaml

namespace Graph

def isValueKey (g : Graph) (e : Entry) : Bool := (g.node e.key).tag == Tag.value

def plainEntry? (g : Graph) (i : NodeId) : Option Entry := (g.entries i).find? g.isValueKey

/-- Two graphs whose nodes stand for the same texts. -/
structure SameTexts (g g' : Graph) : Prop where
  size : g'.nodes.size = g.nodes.size
  mark : ∀ i, (g'.node i).mark = (g.node i).mark
  tag : ∀ i, (g'.node i).tag = (g.node i).tag
  kind : ∀ i, (g'.node i).content.kind = (g.node i).content.kind
  content : ∀ i, (g.node i).content.kind ≠ .mapping → (g'.node i).content = (g.node i).content
  plain : ∀ i, g'.plainEntry? i = g.plainEntry? i

namespace SameTexts

variable {g g₁ g₂ : Graph}

theorem refl (g : Graph) : SameTexts g g :=
  ⟨rfl, fun _ => rfl, fun _ => rfl, fun _ => rfl, fun _ _ => rfl, fun _ => rfl⟩

theorem trans (h : SameTexts g g₁) (h' : SameTexts g₁ g₂) : SameTexts g g₂ where
  size := h'.size.trans h.size
  mark i := (h'.mark i).trans (h.mark i)
  tag i := (h'.tag i).trans (h.tag i)
  kind i := (h'.kind i).trans (h.kind i)
  content i hi := (h'.content i (by rw [h.kind]; exact hi)).trans (h.content i hi)
  plain i := (h'.plain i).trans (h.plain i)

end SameTexts

/-! ## Edits that keep the texts -/

variable {g₀ g g' : Graph} {top : NodeId}

theorem Flattens.tag_ne_value {brought : Entry → Prop} (h : Flattens brought g g') {i : NodeId}
    (ne : (g.node i).tag ≠ Tag.value) : (g'.node i).tag ≠ Tag.value := by
  rcases h.tag i with heq | ⟨hvalue, -⟩
  · rw [heq]
    exact ne
  · exact (ne hvalue).elim

theorem settleValueKey_of_ne {e : Entry} (h : (g.node e.key).tag ≠ Tag.value) :
    g.settleValueKey e = g := by
  unfold settleValueKey
  simp [h]

/-- If the entries of one mapping change but not its plain value, all texts stay as they are. -/
theorem SameTexts.of_sameBut {i : NodeId} (h : SameBut i g g')
    (find : (g'.entries i).find? g.isValueKey = (g.entries i).find? g.isValueKey) :
    SameTexts g g' where
  size := h.size
  mark := h.mark
  tag := h.tag
  kind := h.kind
  content := h.content
  plain j := by
    have hkeys : g'.isValueKey = g.isValueKey := by
      funext e
      unfold Graph.isValueKey
      rw [h.tag]
    unfold plainEntry?
    rw [hkeys]
    by_cases hj : j = i
    · rw [hj, find]
    · rw [h.entries j hj]

/-- No mapping that a merge key names has a plain value. -/
def MergesNoValueKey (g : Graph) : Prop := ∀ e, g.Brought e → (g.node e.key).tag ≠ Tag.value

theorem SameTexts.of_edit (merges : g₀.MergesNoValueKey) (flat : Flattens g₀.Brought g₀ g)
    (own : ∀ e ∈ g.entries top, (g.node e.key).tag ≠ Tag.value)
    (edit : Edit g₀ (Merging.Touched g₀ top) g g') : SameTexts g g' := by
  cases edit with
  | @settle i e place mem hordinary =>
    have hne : (g.node e.key).tag ≠ Tag.value := by
      rcases place with rfl | hsource
      · exact own e mem
      · exact flat.tag_ne_value (merges e (flat.brought hsource mem))
    rw [settleValueKey_of_ne hne]
    exact .refl g
  | @drop i before after e _ hsplit hmerge =>
    have mapping : (g.node i).content.kind = .mapping :=
      kind_of_mem_entries (e := e) (by simp [hsplit])
    have hkey : g.isValueKey e = false := by
      unfold isMerge at hmerge
      unfold isValueKey
      rw [beq_iff_eq] at hmerge
      simp [hmerge, Tag.merge, Tag.value]
    refine .of_sameBut (sameBut_setEntries mapping _) ?_
    rw [entries_setEntries mapping, hsplit]
    simp [List.find?_append, hkey]
  | @add i merged _ mapping _ sources =>
    by_cases hmerged : merged = []
    · rw [hmerged, addMerged_nil]
      exact .refl g
    have hnone : merged.find? g.isValueKey = none := by
      rw [List.find?_eq_none]
      intro e he
      have hne := flat.tag_ne_value (merges e (sources e he))
      simpa [isValueKey] using hne
    refine .of_sameBut (sameBut_addMerged mapping hmerged) ?_
    rw [entries_addMerged mapping, List.find?_append, hnone]
    rfl

/-- If neither the mapping itself nor what is merged into it has a plain value, replacing its
merge keys leaves all texts as they are. -/
theorem SameTexts.of_edits (merges : g₀.MergesNoValueKey) (flat : Flattens g₀.Brought g₀ g)
    (own : ∀ e ∈ g.entries top, (g.node e.key).tag ≠ Tag.value)
    (edits : Edits g₀ (Merging.Touched g₀ top) g g') : SameTexts g g' := by
  induction edits with
  | refl => exact .refl g
  | @tail g₁ g₂ first last ih =>
    have hfirst := Flattens.of_edits first
    have hflat := flat.trans hfirst
    refine ih.trans (.of_edit merges hflat (fun e he => ?_) last)
    rcases hfirst.entries top e he with hmem | hbrought
    · exact hfirst.tag_ne_value (own e hmem)
    · exact hflat.tag_ne_value (merges e hbrought)

end Graph

namespace Build

open YamlCheck.Yaml.Graph

variable {g g' : Graph} {r : Rules} {i : NodeId}

/-! ## Texts and scalars -/

theorem textOf_succ (g : Graph) (fuel : Nat) (i : NodeId) :
    textOf g (fuel + 1) i =
      match (g.node i).content with
      | .scalar text => .ok text
      | .sequence _ => .error (complaint (.expectedNode .scalar .sequence) (g.node i).mark)
      | .mapping _ =>
        match g.plainEntry? i with
        | some e => textOf g fuel e.value
        | none => .error (complaint (.expectedNode .scalar .mapping) (g.node i).mark) := by
  rw [textOf]
  cases hcontent : (g.node i).content with
  | scalar text => simp only
  | sequence items => simp only
  | mapping es =>
    unfold plainEntry?
    rw [entries_of_content hcontent]
    simp only
    rfl

theorem textOf_same (h : SameTexts g g') (fuel : Nat) (i : NodeId) :
    textOf g' fuel i = textOf g fuel i := by
  induction fuel generalizing i with
  | zero => rfl
  | succ fuel ih =>
    rw [textOf_succ, textOf_succ, h.plain, h.mark]
    by_cases hkind : (g.node i).content.kind = .mapping
    · have hkind' := (h.kind i).trans hkind
      cases hcontent : (g.node i).content with
      | mapping es =>
        cases hcontent' : (g'.node i).content with
        | mapping es' => simp only [ih]
        | scalar text => simp [hcontent', Content.kind] at hkind'
        | sequence items => simp [hcontent', Content.kind] at hkind'
      | scalar text => simp [hcontent, Content.kind] at hkind
      | sequence items => simp [hcontent, Content.kind] at hkind
    · rw [h.content i hkind]
      cases hcontent : (g.node i).content with
      | mapping es => simp [hcontent, Content.kind] at hkind
      | scalar text => rfl
      | sequence items => rfl

theorem text_same (h : SameTexts g g') (l : Limits) (i : NodeId) : text l g' i = text l g i :=
  textOf_same h _ i

theorem timestamp_of_classic (classic : r.dialect = .classic) (g : Graph) (i : NodeId) :
    timestamp r g i = (text r.limits g i).bind fun _ =>
      if (g.node i).content.kind = .scalar then
        match (g.node i).content with
        | .scalar written =>
          match WrittenTimestamp.read? (dropLastBreak written.faces) with
          | some w => timestampOf .classic w
          | none => .error (.breakdown .malformedTime)
        | _ => .error .stalled
      else .error (.badKind (.notText "list")) := by
  unfold timestamp
  simp only [classic]
  cases text r.limits g i with
  | error e => rfl
  | ok t =>
    cases hcontent : (g.node i).content with
    | scalar written =>
      cases hread : WrittenTimestamp.read? (dropLastBreak written.faces) with
      | none =>
        simp only [hread]
        rfl
      | some w =>
        simp only [hread]
        rfl
    | sequence items => rfl
    | mapping es => rfl

/-- A node without changes to itself and its text denotes the same scalar. -/
theorem scalar_eq (classic : r.dialect = .classic) (mark : (g'.node i).mark = (g.node i).mark)
    (tag : (g'.node i).tag = (g.node i).tag)
    (kind : (g'.node i).content.kind = (g.node i).content.kind)
    (content : (g.node i).content.kind ≠ .mapping → (g'.node i).content = (g.node i).content)
    (text : text r.limits g' i = text r.limits g i) : scalar r g' i = scalar r g i := by
  have htime : timestamp r g' i = timestamp r g i := by
    rw [timestamp_of_classic classic, timestamp_of_classic classic, text]
    by_cases hkind : (g.node i).content.kind = .mapping
    · rw [if_neg (by rw [kind, hkind]; simp), if_neg (by rw [hkind]; simp)]
    · rw [content hkind]
  unfold scalar
  simp only [tag, mark, text, htime]

theorem scalar_same (h : SameTexts g g') (classic : r.dialect = .classic) (i : NodeId) :
    scalar r g' i = scalar r g i :=
  scalar_eq classic (h.mark i) (h.tag i) (h.kind i) (h.content i) (text_same h _ i)

/-- The tags whose nodes denote scalars. -/
def scalarTags : List String :=
  [Tag.str, Tag.null, Tag.bool, Tag.int, Tag.float, Tag.binary, Tag.timestamp]

theorem tag_mem_of_scalar_ok {x : Scalar} (h : scalar r g i = .ok x) :
    (g.node i).tag ∈ scalarTags := by
  by_cases hmem : (g.node i).tag ∈ scalarTags
  · exact hmem
  · simp only [scalarTags, List.mem_cons, List.not_mem_nil, or_false, not_or] at hmem
    obtain ⟨hstr, hnull, hbool, hint, hfloat, hbinary, htime⟩ := hmem
    unfold scalar at h
    simp only [beq_iff_eq, hstr, hnull, hbool, hint, hfloat, hbinary, htime, if_false] at h
    cases h

theorem emptyCell?_of_mem {d : Dialect} {tag : String} (h : tag ∈ scalarTags) :
    emptyCell? d tag = none := by
  simp only [scalarTags, List.mem_cons, List.not_mem_nil, or_false] at h
  rcases h with rfl | rfl | rfl | rfl | rfl | rfl | rfl <;> cases d <;> decide

theorem ne_value_of_mem {tag : String} (h : tag ∈ scalarTags) : tag ≠ Tag.value := by
  simp only [scalarTags, List.mem_cons, List.not_mem_nil, or_false] at h
  rcases h with rfl | rfl | rfl | rfl | rfl | rfl | rfl <;> decide

theorem text_of_scalar_ok {x : Scalar} (classic : r.dialect = .classic)
    (h : scalar r g i = .ok x) : ∃ t, text r.limits g i = .ok t := by
  cases htext : text r.limits g i with
  | ok t => exact ⟨t, rfl⟩
  | error e =>
    have hmem := tag_mem_of_scalar_ok h
    have htime : timestamp r g i = .error e := by
      rw [timestamp_of_classic classic, htext]
      rfl
    simp only [scalarTags, List.mem_cons, List.not_mem_nil, or_false] at hmem
    unfold scalar at h
    simp only [htext, htime] at h
    rcases hmem with htag | htag | htag | htag | htag | htag | htag <;> rw [htag] at h <;> cases h

/-- A node that denotes a scalar is a scalar or a mapping with a plain value. -/
theorem content_of_scalar_ok {x : Scalar} (classic : r.dialect = .classic)
    (h : scalar r g i = .ok x) :
    (g.node i).content.kind = .scalar ∨
      ((g.node i).content.kind = .mapping ∧ ∃ e, g.plainEntry? i = some e) := by
  obtain ⟨t, ht⟩ := text_of_scalar_ok classic h
  unfold text at ht
  rw [textOf_succ] at ht
  cases hcontent : (g.node i).content with
  | scalar written => exact .inl rfl
  | sequence items =>
    rw [hcontent] at ht
    cases ht
  | mapping es =>
    rw [hcontent] at ht
    cases hplain : g.plainEntry? i with
    | some e => exact .inr ⟨rfl, e, rfl⟩
    | none =>
      simp only [hplain] at ht
      cases ht

/-- A scalar node with its own text and its old tag denotes the same in any flattened graph. -/
theorem scalar_flattens {brought : Entry → Prop} (classic : r.dialect = .classic)
    (flat : Flattens brought g g') (kind : (g.node i).content.kind = .scalar)
    (tag : (g'.node i).tag = (g.node i).tag) : scalar r g' i = scalar r g i := by
  have hcontent := flat.content i (by simp [kind])
  have htext : text r.limits g' i = text r.limits g i := by
    obtain ⟨written, hwritten⟩ := Content.exists_text kind
    unfold text
    rw [textOf_succ, textOf_succ, hcontent, hwritten]
  exact scalar_eq classic (flat.mark i) tag (flat.kind i) (fun _ => hcontent) htext

theorem scalar_of_flattens {brought : Entry → Prop} {x : Scalar} (classic : r.dialect = .classic)
    (flat : Flattens brought g g') (kind : (g.node i).content.kind = .scalar)
    (h : scalar r g i = .ok x) : scalar r g' i = .ok x := by
  have htag : (g'.node i).tag = (g.node i).tag := by
    rcases flat.tag i with heq | ⟨hvalue, -⟩
    · exact heq
    · exact (ne_value_of_mem (tag_mem_of_scalar_ok h) hvalue).elim
  rw [scalar_flattens classic flat kind htag]
  exact h

end Build

end YamlCheck.Yaml
