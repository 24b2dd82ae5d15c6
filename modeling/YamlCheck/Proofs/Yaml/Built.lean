import YamlCheck.Proofs.Yaml.Breaking

/-!
# What a construction raises, and what it builds

Each function of a construction keeps to the document as it was read: merge keys only edit its
graph, and the collections that wait to be filled are collections of it.  So whatever the
construction fails at is a node of that document.  The mappings that it builds have no key twice.
-/

namespace YamlCheck.Yaml

/-! ## Keys -/

/-- Whether no two entries have the same key. -/
def Value.Keyed (entries : List (Value × Value)) : Prop :=
  entries.Pairwise fun e e' => e.1.same e'.1 = false

theorem Value.mem_put {entries : List (Value × Value)} {k v : Value} {e : Value × Value}
    (h : e ∈ Value.put entries k v) : e.1 = k ∨ ∃ e' ∈ entries, e.1 = e'.1 := by
  induction entries with
  | nil => exact .inl (by rw [List.mem_singleton.mp h])
  | cons e' rest ih =>
    unfold Value.put at h
    split at h
    · rcases List.mem_cons.mp h with rfl | hmem
      · exact .inr ⟨e', List.mem_cons_self, rfl⟩
      · exact .inr ⟨e, List.mem_cons_of_mem e' hmem, rfl⟩
    · rcases List.mem_cons.mp h with rfl | hmem
      · exact .inr ⟨e, List.mem_cons_self, rfl⟩
      · refine (ih hmem).imp id ?_
        rintro ⟨e₁, hmem₁, hkey⟩
        exact ⟨e₁, List.mem_cons_of_mem e' hmem₁, hkey⟩

theorem Value.Keyed.put {entries : List (Value × Value)} (h : Keyed entries) (k v : Value) :
    Keyed (Value.put entries k v) := by
  induction entries with
  | nil => exact List.pairwise_singleton _ _
  | cons e rest ih =>
    obtain ⟨hfirst, hrest⟩ := List.pairwise_cons.mp h
    unfold Value.put
    split
    · exact List.pairwise_cons.mpr ⟨hfirst, hrest⟩
    · rename_i hother
      refine List.pairwise_cons.mpr ⟨fun e' hmem => ?_, ih hrest⟩
      rcases mem_put hmem with hkey | ⟨e₁, hmem₁, hkey⟩
      · rw [hkey]
        simpa using hother
      · rw [hkey]
        exact hfirst e₁ hmem₁

def Cell.Keyed : Cell → Prop
  | .map es => Value.Keyed es
  | _ => True

theorem Cells.cell_set (cells : Cells) (i j : NodeId) (cell : Cell) :
    Cells.cell (cells.setIfInBounds i (some cell)) j = cell ∨
      Cells.cell (cells.setIfInBounds i (some cell)) j = cells.cell j := by
  unfold Cells.cell
  simp only [Array.getD_eq_getD_getElem?, Array.getElem?_setIfInBounds]
  split
  · split
    · exact .inl rfl
    · right
      rename_i hij hbound
      subst hij
      rw [Array.getElem?_eq_none (Nat.le_of_not_lt hbound)]
  · exact .inr rfl

/-! ## Constructions -/

def Progress.isUntouched : Progress → Bool
  | .untouched => true
  | _ => false

/-- How many nodes have not been reached. -/
def Construction.untouched (c : Construction) : Nat := c.progress.countP Progress.isUntouched

theorem untouched_of_getD {ps : Array Progress} {i : NodeId} (h : i < ps.size)
    (untouched : ps.getD i .untouched = .untouched) : ps[i].isUntouched = true := by
  have hget : ps.getD i .untouched = ps[i] := by simp [Array.getD_eq_getD_getElem?, h]
  rw [← hget, untouched]
  rfl

/-- A node that is reached is not untouched any more. -/
theorem countP_touch {ps : Array Progress} {i : NodeId} {p : Progress}
    (touched : p.isUntouched = false) (h : i < ps.size) :
    (ps.setIfInBounds i p).countP Progress.isUntouched =
      ps.countP Progress.isUntouched - if ps[i].isUntouched then 1 else 0 := by
  rw [Array.setIfInBounds, dif_pos h, Array.countP_set]
  simp [touched]

theorem countP_touch_le (ps : Array Progress) (i : NodeId) {p : Progress}
    (touched : p.isUntouched = false) :
    (ps.setIfInBounds i p).countP Progress.isUntouched ≤ ps.countP Progress.isUntouched := by
  by_cases h : i < ps.size
  · rw [countP_touch touched h]
    exact Nat.sub_le _ _
  · rw [Array.setIfInBounds, dif_neg h]

theorem countP_touch_lt {ps : Array Progress} {i : NodeId} {p : Progress}
    (touched : p.isUntouched = false) (h : i < ps.size)
    (untouched : ps.getD i .untouched = .untouched) :
    (ps.setIfInBounds i p).countP Progress.isUntouched < ps.countP Progress.isUntouched := by
  have hone := untouched_of_getD h untouched
  have hpos : 0 < ps.countP Progress.isUntouched :=
    Array.countP_pos_iff.mpr ⟨_, Array.getElem_mem h, hone⟩
  rw [countP_touch touched h, if_pos hone]
  exact Nat.sub_lt hpos Nat.one_pos

/-- A construction on its way through the document `g₀`: at most `left` collections wait to be
filled or may still come to wait. -/
structure Construction.Of (r : Rules) (g₀ : Graph) (left : Nat) (c : Construction) : Prop where
  rules : c.rules = r
  edited : g₀.Edited c.graph
  waiting : ∀ i ∈ c.queue, (Build.emptyCell? r.dialect (g₀.node i).tag).isSome
  keyed : ∀ i, (c.cells.cell i).Keyed
  size : c.progress.size = g₀.nodes.size
  modern : c.atOnce = true → r.dialect = .modern
  room : c.queue.length + c.untouched ≤ left

theorem Construction.Of.mono {r : Rules} {g₀ : Graph} {left left' : Nat} {c : Construction}
    (h : Construction.Of r g₀ left c) (le : left ≤ left') : Construction.Of r g₀ left' c :=
  { h with room := Nat.le_trans h.room le }

/-- A part of a construction that only fails at a node of the document. -/
abbrev Builds (r : Rules) (g₀ : Graph) (left : Nat) {α : Type} (m : Build α) : Prop :=
  Keeps (Construction.Of r g₀ left) (LoadError.Among (g₀.Fails r)) m fun _ => True

/-- A part that gives the entries of a mapping. -/
abbrev BuildsEntries (r : Rules) (g₀ : Graph) (left : Nat) (m : Build (List (Value × Value))) :
    Prop :=
  Keeps (Construction.Of r g₀ left) (LoadError.Among (g₀.Fails r)) m Value.Keyed

/-- A builder of parts.  Only the modern dialect asks for parts that have to be complete. -/
structure MakesParts (r : Rules) (g₀ : Graph) (left : Nat) (make : Builder) : Prop where
  part : ∀ i, Builds r g₀ left (make i false)
  whole : r.dialect = .modern → ∀ i, Builds r g₀ left (make i true)

namespace Build

variable {r : Rules} {g₀ : Graph} {left : Nat} {make : Builder} {α : Type}

theorem builds_complain (p : Problem) (m : Mark) : Builds r g₀ left (complain p m : Build α) :=
  .throw trivial

theorem builds_complainIn (context : Context) (around : Mark) (p : Problem) (m : Mark) :
    Builds r g₀ left (complainIn context around p m : Build α) := .throw trivial

/-- A node as a construction meets it, on a graph on the way from that of the document. -/
theorem keeps_node (i : NodeId) :
    Keeps (Construction.Of r g₀ left) (LoadError.Among (g₀.Fails r)) (node i)
      fun n => ∃ g, g₀.Edited g ∧ n = g.node i := by
  unfold node
  refine Keeps.get.bind fun c hc => ?_
  exact .pure ⟨c.graph, hc.edited, rfl⟩

theorem builds_node (i : NodeId) : Builds r g₀ left (node i) :=
  (keeps_node i).mono fun _ _ => trivial

theorem builds_setCell (i : NodeId) {cell : Cell} (keyed : cell.Keyed) :
    Builds r g₀ left (setCell i cell) := by
  refine .modify fun c hc =>
    ⟨hc.rules, hc.edited, hc.waiting, fun j => ?_, hc.size, hc.modern, hc.room⟩
  rcases Cells.cell_set c.cells i j cell with hnew | hold
  · rw [hnew]
    exact keyed
  · rw [hold]
    exact hc.keyed j

theorem builds_setProgress (i : NodeId) {p : Progress} (touched : p.isUntouched = false) :
    Builds r g₀ left (setProgress i p) := by
  refine .modify fun c hc => ⟨hc.rules, hc.edited, hc.waiting, hc.keyed, ?_, hc.modern, ?_⟩
  · simpa using hc.size
  · exact Nat.le_trans (Nat.add_le_add_left (countP_touch_le c.progress i touched) _) hc.room

theorem builds_setAtOnce {b : Bool} (modern : b = true → r.dialect = .modern) :
    Builds r g₀ left (setAtOnce b) :=
  .modify fun _ hc => ⟨hc.rules, hc.edited, hc.waiting, hc.keyed, hc.size, modern, hc.room⟩

theorem builds_sequence (makes : MakesParts r g₀ left make) (i : NodeId) :
    Builds r g₀ left (sequence make i) := by
  unfold sequence
  refine (builds_node i).step fun n => ?_
  split
  · exact .mapM fun j _ => makes.part j
  · exact builds_complain _ _

/-! ## Mappings -/

theorem builds_complainOf {i : NodeId} (mapping : (g₀.node i).content.kind = .mapping)
    (refused : r.duplicates = .refused) (around : Mark) (x : Scalar) (m : Mark) :
    Builds r g₀ left (complainOf around x m : Build α) := by
  have hraises : Raises (LoadError.Among (g₀.Fails r)) x.display := by
    intro e he
    rw [(Scalar.display_error he).2]
    exact .longKey mapping refused
  exact (Keeps.lift hraises).step fun shown => builds_complainIn _ _ _ _

theorem builds_refuseLoop (makes : MakesParts r g₀ left make) {i : NodeId}
    (mapping : (g₀.node i).content.kind = .mapping) (refused : r.duplicates = .refused)
    (around : Mark) (seen : List Scalar) (es : List Entry) :
    Builds r g₀ left (refuseRepeatedKeys.loop make around seen es) := by
  induction es generalizing seen with
  | nil => exact .pure trivial
  | cons e rest ih =>
    unfold refuseRepeatedKeys.loop
    refine (builds_node e.key).step fun key => ?_
    refine .ite (fun _ => ih seen) fun _ => ?_
    refine (makes.part e.key).step fun v => ?_
    cases v with
    | scalar s => exact .when (fun _ => builds_complainOf mapping refused _ _ _) (ih (s :: seen))
    | tuple items => exact ih seen
    | ref j => exact ih seen

theorem builds_refuseRepeatedKeys (makes : MakesParts r g₀ left make) {i : NodeId}
    (mapping : (g₀.node i).content.kind = .mapping) (refused : r.duplicates = .refused) :
    Builds r g₀ left (refuseRepeatedKeys make i) := by
  unfold refuseRepeatedKeys
  refine (builds_node i).step fun n => ?_
  exact Keeps.get.step fun c => builds_refuseLoop makes mapping refused _ _ _

theorem builds_classicEntries (makes : MakesParts r g₀ left make) (around : Mark)
    {acc : List (Value × Value)} (keyed : Value.Keyed acc) (es : List Entry) :
    BuildsEntries r g₀ left (classicEntries make around acc es) := by
  induction es generalizing acc with
  | nil => exact .pure keyed
  | cons e rest ih =>
    unfold classicEntries
    refine (makes.part e.key).step fun k => ?_
    refine .ite (fun _ => ?_) fun _ => ?_
    · refine (builds_node e.key).step fun key => ?_
      refine (builds_complainIn _ _ _ _).step fun _ => ?_
      exact (makes.part e.value).step fun v => ih (keyed.put k v)
    · exact (makes.part e.value).step fun v => ih (keyed.put k v)

theorem builds_refuseReference (around mark : Mark) (k : Value) :
    Builds r g₀ left (refuseReference around mark k) := by
  cases k with
  | ref j => exact builds_complainIn _ _ _ _
  | scalar s => exact .pure trivial
  | tuple items => exact .pure trivial

theorem builds_refuseUnhashable {i : NodeId} (collection : (g₀.node i).content.kind ≠ .scalar)
    (modern : r.dialect = .modern) (k : Value) : Builds r g₀ left (refuseUnhashable k) := by
  unfold refuseUnhashable
  cases k.collection? with
  | some j => exact Keeps.get.step fun c => .throw (.unhashable collection modern _)
  | none => exact .pure trivial

theorem builds_complainRepeated {i : NodeId} (mapping : (g₀.node i).content.kind = .mapping)
    (modern : r.dialect = .modern) (refused : r.duplicates = .refused) (around key : Mark)
    (k v old : Value) : Builds r g₀ left (complainRepeated around key k v old : Build α) := by
  unfold complainRepeated
  refine Keeps.get.step fun c => ?_
  extract_lets shown
  have hshown (v : Value) : Builds r g₀ left (shown v) := by
    have hraises : Raises (LoadError.Among (g₀.Fails r))
        (v.plainText c.rules.limits c.cells) := by
      intro e he
      rcases Value.raises_plainText _ _ v e he with rfl | rfl
      · exact .longKey mapping refused
      · exact .tooDeep (.showingKey mapping modern refused)
    exact (Keeps.lift hraises).mono fun _ _ => trivial
  refine (hshown k).step fun key => (hshown v).step fun value => (hshown old).step fun first => ?_
  exact .throw trivial

theorem builds_modernEntries (makes : MakesParts r g₀ left make) {i : NodeId}
    (mapping : (g₀.node i).content.kind = .mapping) (modern : r.dialect = .modern) (around : Mark)
    (checked : Bool) {acc : List (Value × Value)} (keyed : Value.Keyed acc) (es : List Entry) :
    BuildsEntries r g₀ left (modernEntries make around checked acc es) := by
  have hcollection : (g₀.node i).content.kind ≠ .scalar := by simp [mapping]
  induction es generalizing acc with
  | nil => exact .pure keyed
  | cons e rest ih =>
    unfold modernEntries
    refine (makes.whole modern e.key).step fun made => ?_
    refine Keeps.get.step fun _ => ?_
    refine (builds_node e.key).step fun key => ?_
    refine (builds_refuseReference _ _ _).step fun _ => ?_
    refine (makes.part e.value).step fun v => ?_
    refine (builds_refuseUnhashable hcollection modern _).step fun _ => ?_
    split
    · refine Keeps.get.bind fun c hc => ?_
      refine .when (Q := fun _ => True) (fun hrefused => ?_) (ih keyed)
      rw [hc.rules] at hrefused
      exact builds_complainRepeated mapping modern (by simpa using hrefused) _ _ _ _ _
    · exact ih (keyed.put _ _)

theorem builds_replaceMerges {i : NodeId} (mapping : (g₀.node i).content.kind = .mapping) :
    Builds r g₀ left (replaceMerges i) := by
  unfold replaceMerges
  refine Keeps.get.bind fun c hc => ?_
  have hmapping : (c.graph.node i).content.kind = .mapping := by
    rw [hc.edited.flat.kind]
    exact mapping
  have hraises : Raises (LoadError.Among (g₀.Fails r))
      ((Merging.replace c.rules i).run c.graph) := by
    refine (Merging.raises_replace c.rules hc.edited hmapping).mono fun e he => he.mono ?_
    rintro e ⟨rfl, hchain⟩
    rw [hc.rules] at hchain
    exact .tooDeep (.merging hchain)
  refine (Keeps.lift hraises).bind fun replaced hrun => ?_
  obtain ⟨⟨⟩, g⟩ := replaced
  have hedits := Merging.replace_edits hc.edited hmapping hrun
  exact .set ⟨hc.rules, hc.edited.edits hedits, hc.waiting, hc.keyed, hc.size, hc.modern, hc.room⟩

theorem builds_classicMapping (makes : MakesParts r g₀ left make) {i : NodeId}
    (mapping : (g₀.node i).content.kind = .mapping) :
    BuildsEntries r g₀ left (classicMapping make i) := by
  unfold classicMapping
  refine (builds_replaceMerges mapping).step fun _ => ?_
  refine (builds_node i).step fun n => ?_
  exact Keeps.get.step fun c => builds_classicEntries makes _ .nil _

theorem builds_modernMapping (makes : MakesParts r g₀ left make) {i : NodeId}
    (mapping : (g₀.node i).content.kind = .mapping) (modern : r.dialect = .modern) :
    BuildsEntries r g₀ left (modernMapping make i) := by
  unfold modernMapping
  refine (builds_replaceMerges mapping).step fun _ => ?_
  refine (builds_node i).step fun n => ?_
  exact Keeps.get.step fun c => builds_modernEntries makes mapping modern _ _ .nil _

theorem builds_mapping (makes : MakesParts r g₀ left make) (i : NodeId) :
    BuildsEntries r g₀ left (mapping make i) := by
  unfold mapping
  refine Keeps.get.bind fun c hc => ?_
  refine (keeps_node i).bind fun n hn => ?_
  obtain ⟨g, edited, rfl⟩ := hn
  refine .ite (fun _ => .throw_bind trivial) fun hkind => ?_
  have hmapping : (g₀.node i).content.kind = .mapping := by
    rw [← edited.flat.kind]
    simpa using hkind
  cases hd : c.rules.dialect with
  | classic =>
    refine .when (Q := fun _ => True) (fun hrefused => ?_) (builds_classicMapping makes hmapping)
    rw [hc.rules] at hrefused
    exact builds_refuseRepeatedKeys makes hmapping (by simpa using hrefused)
  | modern => exact builds_modernMapping makes hmapping (by rw [← hc.rules, hd])

/-! ## Pairs and ordered maps -/

theorem builds_singleEntry (context : Context) (around : Mark) (i : NodeId) :
    Builds r g₀ left (singleEntry context around i) := by
  unfold singleEntry
  refine (builds_node i).step fun n => ?_
  split
  · exact .pure trivial
  · exact builds_complainIn _ _ _ _
  · exact builds_complainIn _ _ _ _

theorem keeps_pairItems (context : Context) (i : NodeId) :
    Keeps (Construction.Of r g₀ left) (LoadError.Among (g₀.Fails r))
      (pairItems context i) fun p => (g₀.node i).content = .sequence p.2 := by
  unfold pairItems
  refine (keeps_node i).bind fun n hn => ?_
  obtain ⟨g, edited, rfl⟩ := hn
  split
  · rename_i items hcontent
    have hkind : (g₀.node i).content.kind ≠ .mapping := by
      rw [← edited.flat.kind, hcontent]
      simp [Content.kind]
    refine .pure ?_
    rw [← edited.flat.content i hkind]
    exact hcontent
  · exact .throw trivial

theorem builds_pairsLoop (makes : MakesParts r g₀ left make) (context : Context)
    (i : NodeId) (around : Mark) (acc : List Value) (items : List NodeId) :
    Builds r g₀ left (fillPairs.loop make context i around acc items) := by
  induction items generalizing acc with
  | nil => exact .pure trivial
  | cons j rest ih =>
    unfold fillPairs.loop
    refine (builds_singleEntry context around j).step fun e => ?_
    refine (makes.part e.key).step fun k => ?_
    refine (makes.part e.value).step fun v => ?_
    exact Keeps.step (builds_setCell i trivial) fun _ => ih _

theorem builds_fillPairs (makes : MakesParts r g₀ left make) (context : Context)
    (i : NodeId) : Builds r g₀ left (fillPairs make context i) := by
  unfold fillPairs
  exact (keeps_pairItems context i).step fun p => builds_pairsLoop makes context i _ [] _

/-- An ordered map can only repeat a key once it has an entry. -/
theorem builds_orderedLoop (makes : MakesParts r g₀ left make) {i : NodeId}
    {all : List NodeId} (tag : (g₀.node i).tag = Tag.omap)
    (content : (g₀.node i).content = .sequence all) (modern : r.dialect = .modern)
    (around : Mark) (acc : List (Value × Value)) (items : List NodeId)
    (length : acc.length + items.length = all.length) :
    Builds r g₀ left (fillOrderedMap.loop make i around acc items) := by
  have hcollection : (g₀.node i).content.kind ≠ .scalar := by simp [content, Content.kind]
  induction items generalizing acc with
  | nil => exact .pure trivial
  | cons j rest ih =>
    unfold fillOrderedMap.loop
    rw [List.length_cons] at length
    refine (builds_singleEntry _ around j).step fun e => ?_
    refine (makes.part e.key).step fun k => ?_
    refine (builds_refuseUnhashable hcollection modern k).step fun _ => ?_
    refine .check (fun hrepeated => .entry tag content modern ?_) ?_
    · have hnonempty : acc ≠ [] := by
        rintro rfl
        simp [Value.get?] at hrepeated
      have hpositive : 0 < acc.length := List.length_pos_iff.mpr hnonempty
      omega
    · refine (makes.part e.value).step fun v => ?_
      refine Keeps.step (builds_setCell i trivial) fun _ => ?_
      refine ih _ ?_
      rw [List.length_append, List.length_singleton]
      omega

theorem builds_fillOrderedMap (makes : MakesParts r g₀ left make) {i : NodeId}
    (tag : (g₀.node i).tag = Tag.omap) (modern : r.dialect = .modern) :
    Builds r g₀ left (fillOrderedMap make i) := by
  unfold fillOrderedMap
  refine (keeps_pairItems _ i).bind fun p hcontent => ?_
  obtain ⟨around, items⟩ := p
  exact builds_orderedLoop makes tag hcontent modern around [] items (by simp)

/-! ## Nodes -/

theorem tag_of_emptyCell? {d : Dialect} {tag : String} (h : (emptyCell? d tag).isSome) :
    tag = Tag.map ∨ (tag = Tag.seq ∨ tag = Tag.pairs) ∨ tag = Tag.set ∨ tag = Tag.omap := by
  unfold emptyCell? at h
  split at h
  · rename_i hmap
    exact .inl (by simpa using hmap)
  split at h
  · rename_i hlist
    exact .inr (.inl (by simpa using hlist))
  split at h
  · rename_i hset
    exact .inr (.inr (.inl (by simpa using hset)))
  split at h
  · rename_i homap
    exact .inr (.inr (.inr (by simpa using homap)))
  · cases h

theorem keyed_of_emptyCell? {d : Dialect} {tag : String} {cell : Cell}
    (h : emptyCell? d tag = some cell) : cell.Keyed := by
  cases cell with
  | map es =>
    unfold emptyCell? at h
    repeat' split at h
    all_goals
      cases h
      try exact .nil
  | _ => trivial

theorem builds_fill (makes : MakesParts r g₀ left make) {i : NodeId}
    (collection : (emptyCell? r.dialect (g₀.node i).tag).isSome) :
    Builds r g₀ left (fill make i) := by
  unfold fill
  refine (keeps_node i).bind fun n hn => ?_
  obtain ⟨g, edited, rfl⟩ := hn
  refine Keeps.get.bind fun c hc => ?_
  refine .ite (fun _ => ?_) fun hseq => .ite (fun _ => ?_) fun hmap => ?_
  · exact (builds_sequence makes i).step fun items => builds_setCell i trivial
  · exact (builds_mapping makes i).bind fun entries keyed => builds_setCell i keyed
  refine .ite (fun _ => ?_) fun hset => .ite (fun _ => ?_) fun hpairs => ?_
  · exact (builds_mapping makes i).step fun entries => builds_setCell i trivial
  · exact builds_fillPairs makes _ i
  refine .ite (fun _ => builds_fillPairs makes _ i) fun hclassic => ?_
  have hmodern : r.dialect = .modern := by
    rw [hc.rules] at hclassic
    cases hd : r.dialect with
    | classic => simp [hd] at hclassic
    | modern => rfl
  have homap : (g.node i).tag = Tag.omap := by
    rw [← edited.flat.emptyCell?_eq] at collection
    rcases tag_of_emptyCell? collection with hmap' | (hseq' | hpairs') | hset' | homap
    · simp [hmap'] at hmap
    · simp [hseq'] at hseq
    · simp [hpairs'] at hpairs
    · simp [hset'] at hset
    · exact homap
  have htag : (g₀.node i).tag = Tag.omap :=
    (edited.flat.tag_eq_iff (by decide) (by decide)).mp homap
  exact builds_fillOrderedMap makes htag hmodern

/-- A collection that is not filled on the spot is put in the queue. -/
theorem leads_start {i : NodeId} (makes : r.dialect = .modern → MakesParts r g₀ left make)
    (collection : (emptyCell? r.dialect (g₀.node i).tag).isSome) {empty : Cell}
    (keyed : empty.Keyed) {c : Construction} (hc : Construction.Of r g₀ left c) :
    Leads (LoadError.Among (g₀.Fails r)) (start make i empty) c fun _ c' =>
      Construction.Of r g₀ (left + 1) c' := by
  unfold start
  refine (builds_setCell i keyed c hc).bind fun _ c₁ h₁ => ?_
  refine .get_bind (.ite (fun hatOnce => ?_) fun _ => ?_)
  · have hfill : Builds r g₀ left (do fill make i; return Value.ref i) :=
      (builds_fill (makes (h₁.1.modern hatOnce)) collection).step fun _ => .pure trivial
    have hfilled : Builds r g₀ left
        (if c₁.rules.dialect == .modern then do
          setProgress i (.started (some (.ref i)))
          fill make i
          return Value.ref i
        else do
          fill make i
          return Value.ref i) := .when (fun _ => builds_setProgress i rfl) hfill
    exact (hfilled c₁ h₁.1).mono fun _ _ h => h.1.mono (Nat.le_succ left)
  · refine .set_bind (.pure ⟨h₁.1.rules, h₁.1.edited, fun j hj => ?_, h₁.1.keyed, h₁.1.size,
      h₁.1.modern, ?_⟩)
    · rw [List.mem_append, List.mem_singleton] at hj
      rcases hj with hj | rfl
      · exact h₁.1.waiting j hj
      · exact collection
    · have hroom := h₁.1.room
      show (c₁.queue ++ [i]).length + c₁.untouched ≤ left + 1
      rw [List.length_append, List.length_singleton]
      omega

theorem leads_fresh_scalar {i : NodeId} {c : Construction} (hc : Construction.Of r g₀ left c)
    (scalar : emptyCell? c.rules.dialect (c.graph.node i).tag = none) :
    Leads (LoadError.Among (g₀.Fails r)) (fresh make i) c fun _ c' =>
      Construction.Of r g₀ left c' := by
  have hraises : Raises (LoadError.Among (g₀.Fails r)) (Build.scalar c.rules c.graph i) := by
    rw [hc.rules]
    exact raises_scalar hc.edited
  unfold fresh
  refine .get_bind ?_
  rw [scalar]
  exact (Leads.lift hraises).bind fun s c' h => .pure (h.2 ▸ hc)

theorem leads_fresh (makes : r.dialect = .modern → MakesParts r g₀ left make) (i : NodeId)
    {c : Construction} (hc : Construction.Of r g₀ left c) :
    Leads (LoadError.Among (g₀.Fails r)) (fresh make i) c fun _ c' =>
      Construction.Of r g₀ (left + 1) c' := by
  cases hcell : emptyCell? c.rules.dialect (c.graph.node i).tag with
  | none => exact (leads_fresh_scalar hc hcell).mono fun _ _ h => h.mono (Nat.le_succ left)
  | some cell =>
    unfold fresh
    refine .get_bind ?_
    rw [hcell]
    refine leads_start makes ?_ (keyed_of_emptyCell? hcell) hc
    rw [← hc.edited.flat.emptyCell?_eq, ← hc.rules, hcell]
    rfl

/-- A node that has not been reached counts no more as untouched once it is. -/
theorem leads_fresh_of_untouched
    (makes : ∀ few, left = few + 1 → r.dialect = .modern → MakesParts r g₀ few make) {i : NodeId}
    {c : Construction} (hc : Construction.Of r g₀ left c)
    (untouched : c.progress.getD i .untouched = .untouched) :
    Leads (LoadError.Among (g₀.Fails r)) (fresh make i)
      { c with progress := c.progress.setIfInBounds i (.started none) } fun _ c' =>
        Construction.Of r g₀ left c' := by
  have hroom : c.queue.length + c.progress.countP Progress.isUntouched ≤ left := hc.room
  have hreached : ∀ {few}, c.queue.length +
      (c.progress.setIfInBounds i (.started none)).countP Progress.isUntouched ≤ few →
      Construction.Of r g₀ few
        { c with progress := c.progress.setIfInBounds i (.started none) } :=
    fun room => ⟨hc.rules, hc.edited, hc.waiting, hc.keyed, by simpa using hc.size, hc.modern,
      room⟩
  by_cases hi : i < c.progress.size
  · have hlt := countP_touch_lt (p := .started none) rfl hi untouched
    obtain ⟨few, rfl⟩ : ∃ few, left = few + 1 := ⟨left - 1, by omega⟩
    exact leads_fresh (makes few rfl) i (hreached (by omega))
  · have hle := countP_touch_le c.progress i (p := .started none) rfl
    refine leads_fresh_scalar (hreached (by omega)) ?_
    have habsent : c.graph.node i = .absent := by
      refine Graph.node_of_size_le ?_
      rw [hc.edited.flat.size, ← hc.size]
      exact Nat.le_of_not_lt hi
    show emptyCell? c.rules.dialect (c.graph.node i).tag = none
    rw [habsent]
    rfl

/-- A node is built with one node less left for its parts, if it has not been reached before. -/
theorem builds_makeWith
    (makes : ∀ few, left = few + 1 → r.dialect = .modern → MakesParts r g₀ few make) (i : NodeId)
    {whole : Bool} (modern : whole = true → r.dialect = .modern) :
    Builds r g₀ left (makeWith make i whole) := by
  intro c hc
  unfold makeWith
  refine .get_bind ?_
  cases hprogress : c.progress.getD i .untouched with
  | finished v => exact .pure ⟨hc, trivial⟩
  | started known =>
    dsimp only
    cases c.rules.dialect with
    | classic => exact builds_complain _ _ c hc
    | modern =>
      have hknown : Builds r g₀ left
          (if whole = true then do
            setAtOnce true
            return known.getD .null
          else return known.getD .null) :=
        .when (fun hwhole => builds_setAtOnce fun _ => modern hwhole) (.pure trivial)
      exact hknown c hc
  | untouched =>
    have hbuild : ∀ c₁, Construction.Of r g₀ left c₁ →
        c₁.progress.getD i .untouched = .untouched →
        Leads (LoadError.Among (g₀.Fails r))
          (do
            setProgress i (.started none)
            let v ← fresh make i
            setProgress i (.finished v)
            if whole then setAtOnce c.atOnce
            return v) c₁ fun _ c' => Construction.Of r g₀ left c' ∧ True := by
      intro c₁ h₁ huntouched
      refine .modify_bind ((leads_fresh_of_untouched makes h₁ huntouched).bind fun v c₂ h₂ => ?_)
      have hlast : Builds r g₀ left
          (do
            setProgress i (.finished v)
            if whole then setAtOnce c.atOnce
            return v) := by
        refine (builds_setProgress i rfl).step fun _ => ?_
        exact .when (fun _ => builds_setAtOnce hc.modern) (.pure trivial)
      exact hlast c₂ h₂
    dsimp only
    refine .ite (fun hwhole => .modify_bind ?_) fun _ => hbuild c hc hprogress
    exact hbuild _ ⟨hc.rules, hc.edited, hc.waiting, hc.keyed, hc.size, fun _ => modern hwhole,
      hc.room⟩ hprogress

/-- In the classic dialect no collection is filled while another is.  In the modern one those that
are lie in one another, so that they are no more than the nodes that were left. -/
theorem makes_make {depth : Nat} (positive : r.dialect = .classic → 0 < depth)
    (enough : r.dialect = .modern → left < depth ∨ r.limits.building < g₀.nodes.size) :
    MakesParts r g₀ left (Build.make depth) := by
  induction depth generalizing left with
  | zero =>
    have hexhausts : ∀ {whole}, (whole = true → r.dialect = .modern) →
        ∀ i, Builds r g₀ left (Build.make 0 i whole) := by
      intro whole _ i
      cases hd : r.dialect with
      | classic => exact absurd (positive hd) (Nat.lt_irrefl 0)
      | modern =>
        have hmany := (enough hd).resolve_left (Nat.not_lt_zero left)
        exact .throw (.tooDeep (.building hd hmany))
    exact ⟨hexhausts (by simp), fun hmodern => hexhausts fun _ => hmodern⟩
  | succ depth ih =>
    have hparts : ∀ few, left = few + 1 → r.dialect = .modern →
        MakesParts r g₀ few (Build.make depth) := fun few hfew hmodern => by
      refine ih (fun hclassic => by simp [hclassic] at hmodern) fun _ => ?_
      exact (enough hmodern).imp_left fun hlt => by omega
    exact ⟨fun i => builds_makeWith hparts i (by simp),
      fun hmodern i => builds_makeWith hparts i fun _ => hmodern⟩

/-! ## Documents -/

/-- Each round fills what waits, so that only nodes that have not been reached may wait after it. -/
theorem builds_fillQueue (makes : ∀ few, few ≤ left → MakesParts r g₀ few make) {fuel : Nat}
    (enough : left < fuel) : Builds r g₀ left (fillQueue make fuel) := by
  induction fuel generalizing left with
  | zero => omega
  | succ fuel ih =>
    intro c hc
    unfold fillQueue
    refine .get_bind (.ite (fun _ => .pure ⟨hc, trivial⟩) fun hqueue => ?_)
    have hroom := hc.room
    have hpos : 0 < c.queue.length := by
      refine List.length_pos_iff.mpr fun hnil => hqueue ?_
      rw [hnil]
      rfl
    have hemptied : Construction.Of r g₀ (left - 1) { c with queue := [] } := by
      refine ⟨hc.rules, hc.edited, by simp, hc.keyed, hc.size, hc.modern, ?_⟩
      show 0 + c.untouched ≤ left - 1
      omega
    have hround : Builds r g₀ (left - 1) (c.queue.forM (fill make)) :=
      .forM fun i hi => builds_fill (makes _ (Nat.sub_le left 1)) (hc.waiting i hi)
    refine .set_bind ((hround _ hemptied).bind fun _ c₁ h₁ => ?_)
    have hrest := ih (fun few hfew => makes few (by omega)) (by omega) c₁ h₁.1
    exact hrest.mono fun _ _ h => ⟨h.1.mono (by omega), trivial⟩

theorem keeps_document : Keeps (Construction.Of r g₀ g₀.nodes.size) (LoadError.Among (g₀.Fails r))
    document fun d => ∀ i, (d.cells.cell i).Keyed := by
  unfold document
  refine Keeps.get.bind fun c hc => ?_
  have hbound : g₀.nodes.size < c.graph.bound := by
    rw [Graph.bound, hc.edited.flat.size]
    omega
  have hmakes : ∀ few, few ≤ g₀.nodes.size →
      MakesParts r g₀ few (Build.make (c.rules.limits.building + 1)) := fun few hfew => by
    rw [hc.rules]
    exact makes_make (fun _ => Nat.succ_pos _) fun _ => by omega
  refine ((hmakes _ (Nat.le_refl _)).part _).step fun root => ?_
  refine (builds_fillQueue hmakes hbound).step fun _ => ?_
  exact Keeps.get.bind fun c hc => .pure hc.keyed

end Build

theorem Construction.Of.start (r : Rules) (g : Graph) :
    Construction.Of r g g.nodes.size (Construction.start r g) where
  rules := rfl
  edited := .refl g
  waiting := by
    intro i hi
    cases hi
  keyed := by
    intro i
    have hcell : (Construction.start r g).cells.cell i = .list [] := by
      simp only [Cells.cell, Construction.start, Array.getD_eq_getD_getElem?,
        Array.getElem?_replicate]
      split <;> rfl
    rw [hcell]
    exact trivial
  size := by simp [Construction.start]
  modern := by simp [Construction.start]
  room := by
    have hle : (Construction.start r g).progress.countP Progress.isUntouched ≤
        (Construction.start r g).progress.size := Array.countP_le_size
    have hsize : (Construction.start r g).progress.size = g.nodes.size := by
      simp [Construction.start]
    show 0 + (Construction.start r g).progress.countP Progress.isUntouched ≤ g.nodes.size
    omega

/-- A document whose construction fails has a node at which it does. -/
theorem Graph.fails_of_document {g : Graph} {r : Rules} {e : LoadError}
    (h : g.document r = .error e) : e.Among (g.Fails r) := by
  unfold Graph.document at h
  cases hrun : Build.document.run (Construction.start r g) with
  | ok p =>
    rw [hrun] at h
    cases h
  | error e =>
    rw [hrun] at h
    cases h
    exact Build.keeps_document.raises (.start r g) hrun

theorem Graph.breaks_of_document {g : Graph} {r : Rules} {b : Breakdown}
    (h : g.document r = .error (.breakdown b)) : g.Breaks r b :=
  Graph.Fails.breaks (Graph.fails_of_document h)

/-- No mapping of a document that was built has a key twice. -/
theorem Graph.keyed_of_document {g : Graph} {r : Rules} {d : Document}
    (h : g.document r = .ok d) (i : NodeId) : (d.cells.cell i).Keyed := by
  unfold Graph.document at h
  cases hrun : Build.document.run (Construction.start r g) with
  | ok p =>
    rw [hrun] at h
    cases h
    exact (Build.keeps_document.ends (.start r g) hrun).2 i
  | error e =>
    rw [hrun] at h
    cases h

end YamlCheck.Yaml
