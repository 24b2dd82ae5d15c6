import YamlCheck.Proofs.Yaml.Denoted
import YamlCheck.Proofs.Yaml.PlainValue
import YamlCheck.Proofs.Yaml.Rounds

/-!
# Documents that break their construction down

A construction complains about most of what is wrong with a document.  For a few nodes it fails
otherwise: scalars whose text denotes no value of their type, mappings that stand for their own
plain value or for a time, and in the modern dialect keys that cannot be hashed and ordered maps
that repeat a key.  Some of these failures are breakdowns, which no rule foresees.  The nodes can be
told from the document as it is read, whatever merge keys do to it on the way.
-/

namespace YamlCheck.Yaml

open YamlCheck.Text

/-! ## Nodes that no rule foresees -/

/-- Whether a mapping stands for another node: one that a value key names, be it among its own
entries or among those that merge keys bring in. -/
def Graph.StandsFor (g : Graph) (i j : NodeId) : Prop :=
  (g.node i).content.kind = .mapping ∧
    ∃ e, (e ∈ g.entries i ∨ g.Brought e) ∧ (g.node e.key).tag = Tag.value ∧ e.value = j

/-- Whether a node is read as a text: it is a scalar, or a mapping that stands for one. -/
def Graph.Spells (g : Graph) (i : NodeId) (text : Letters) : Prop :=
  ∃ j, Relation.ReflTransGen g.StandsFor i j ∧ (g.node j).content = .scalar text

/-- Whether a document uses up the stack at some of its nodes. -/
inductive Graph.Exhausts (r : Rules) (g : Graph) : Recursion → Prop
  | plainValue {i : NodeId} (chain : Chain g.StandsFor (r.limits.plain + 1) i) :
      Graph.Exhausts r g .plainValue
  | merging {i : NodeId} (chain : Chain g.Draws (r.limits.merging + 1) i) :
      Graph.Exhausts r g .merging
  | building (modern : r.dialect = .modern) (many : r.limits.building < g.nodes.size) :
      Graph.Exhausts r g .building
  | showingKey {i : NodeId} (mapping : (g.node i).content.kind = .mapping)
      (modern : r.dialect = .modern) (refused : r.duplicates = .refused) :
      Graph.Exhausts r g .showing
  | showingTime {i : NodeId} (tag : (g.node i).tag = Tag.timestamp)
      (collection : (g.node i).content.kind ≠ .scalar) (modern : r.dialect = .modern) :
      Graph.Exhausts r g .showing

/-- Whether a node of a document breaks its construction down in some way. -/
inductive Graph.Breaks (r : Rules) (g : Graph) : Breakdown → Prop
  | word {i : NodeId} {text : Letters} (tag : (g.node i).tag = Tag.bool)
      (spells : g.Spells i text) (unknown : NoTruthWord r.dialect text) :
      Graph.Breaks r g (.unknownWord text.lowercase)
  | integer {i : NodeId} {text : Letters} (tag : (g.node i).tag = Tag.int)
      (spells : g.Spells i text) (digitless : Digitless r.schema text) :
      Graph.Breaks r g .emptyNumeral
  | number {i : NodeId} {text : Letters} {b : Breakdown} (tag : (g.node i).tag = Tag.float)
      (spells : g.Spells i text) (fault : NumberFault r.schema text b) :
      Graph.Breaks r g b
  | notTime {i : NodeId} {text : Letters} (tag : (g.node i).tag = Tag.timestamp)
      (content : (g.node i).content = .scalar text) (classic : r.dialect = .classic)
      (unread : WrittenTimestamp.read? (dropLastBreak text.faces) = none) :
      Graph.Breaks r g .malformedTime
  | beyondLast {i : NodeId} {text : Letters} {w : WrittenTimestamp}
      (tag : (g.node i).tag = Tag.timestamp) (content : (g.node i).content = .scalar text)
      (modern : r.dialect = .modern)
      (written : WrittenTimestamp.read? (dropLastBreak text.faces) = some w)
      (beyond : w.BeyondLast) : Graph.Breaks r g .calendarEnd
  | entry {i : NodeId} {items : List NodeId} (tag : (g.node i).tag = Tag.omap)
      (content : (g.node i).content = .sequence items) (modern : r.dialect = .modern)
      (several : 2 ≤ items.length) : Graph.Breaks r g .repeatedEntry
  | tooDeep {recursion : Recursion} (exhausts : g.Exhausts r recursion) :
      Graph.Breaks r g (.tooDeep recursion)

/-- Whether the construction of a document fails at one of its nodes with some error that is no
complaint.  A scalar does so if the reader of its type does. -/
inductive Graph.Fails (r : Rules) (g : Graph) : LoadError → Prop
  | word {i : NodeId} {text : Letters} {e : LoadError} (tag : (g.node i).tag = Tag.bool)
      (spells : g.Spells i text) (error : boolOf r.dialect text = .error e) : Graph.Fails r g e
  | integer {i : NodeId} {text : Letters} {e : LoadError} (tag : (g.node i).tag = Tag.int)
      (spells : g.Spells i text) (error : intOf r.schema text = .error e) : Graph.Fails r g e
  | number {i : NodeId} {text : Letters} {e : LoadError} (tag : (g.node i).tag = Tag.float)
      (spells : g.Spells i text) (error : floatOf r.schema i text = .error e) : Graph.Fails r g e
  | time {i : NodeId} {text : Letters} {w : WrittenTimestamp} {e : LoadError}
      (tag : (g.node i).tag = Tag.timestamp) (content : (g.node i).content = .scalar text)
      (written : WrittenTimestamp.read? (dropLastBreak text.faces) = some w)
      (error : timestampOf r.dialect w = .error e) : Graph.Fails r g e
  | notTime {i : NodeId} {text : Letters} (tag : (g.node i).tag = Tag.timestamp)
      (content : (g.node i).content = .scalar text) (classic : r.dialect = .classic)
      (unread : WrittenTimestamp.read? (dropLastBreak text.faces) = none) :
      Graph.Fails r g (.breakdown .malformedTime)
  | mappedTime {i : NodeId} {text : Letters} (tag : (g.node i).tag = Tag.timestamp)
      (mapping : (g.node i).content.kind = .mapping) (spells : g.Spells i text)
      (classic : r.dialect = .classic) : Graph.Fails r g (.badKind (.notText "list"))
  | unhashable {i : NodeId} (collection : (g.node i).content.kind ≠ .scalar)
      (modern : r.dialect = .modern) (kind : String) : Graph.Fails r g (.badKind (.unhashable kind))
  | longKey {i : NodeId} (mapping : (g.node i).content.kind = .mapping)
      (refused : r.duplicates = .refused) : Graph.Fails r g (.badValue .longInteger)
  | entry {i : NodeId} {items : List NodeId} (tag : (g.node i).tag = Tag.omap)
      (content : (g.node i).content = .sequence items) (modern : r.dialect = .modern)
      (several : 2 ≤ items.length) : Graph.Fails r g (.breakdown .repeatedEntry)
  | tooDeep {recursion : Recursion} (exhausts : g.Exhausts r recursion) :
      Graph.Fails r g (.breakdown (.tooDeep recursion))

/-- A failure that is a breakdown tells what broke down. -/
theorem Graph.Fails.breaks {r : Rules} {g : Graph} {b : Breakdown}
    (h : g.Fails r (.breakdown b)) : g.Breaks r b := by
  cases h with
  | word tag spells error =>
    obtain ⟨rfl, hunknown⟩ := raises_boolOf r.dialect _ _ error
    exact .word tag spells hunknown
  | integer tag spells error =>
    obtain ⟨rfl, hdigitless⟩ := raises_intOf r.schema _ _ error
    exact .integer tag spells hdigitless
  | number tag spells error => exact .number tag spells (raises_floatOf r.schema _ _ _ error)
  | time tag content written error =>
    obtain ⟨rfl, hmodern, hbeyond⟩ := raises_timestampOf r.dialect _ _ error
    exact .beyondLast tag content hmodern written hbeyond
  | notTime tag content classic unread => exact .notTime tag content classic unread
  | entry tag content modern several => exact .entry tag content modern several
  | tooDeep exhausts => exact .tooDeep exhausts

/-- Whether an error is about a value, and neither about the bytes nor about the steps. -/
def LoadError.OfValue : LoadError → Prop
  | .badValue _ | .badKind _ | .breakdown _ => True
  | _ => False

theorem LoadError.Within.ofValue {known : Breakdown → Prop} {e : LoadError} (h : e.Within known) :
    e.OfValue := by
  cases e with
  | badValue f => trivial
  | badKind f => trivial
  | breakdown b => trivial
  | _ => exact h

/-- A document that has been read fails for its values alone. -/
theorem Graph.Fails.ofValue {r : Rules} {g : Graph} {e : LoadError} (h : g.Fails r e) :
    e.OfValue := by
  cases h with
  | word tag spells error => exact (raises_boolOf r.dialect _ _ error).ofValue
  | integer tag spells error => exact (raises_intOf r.schema _ _ error).ofValue
  | number tag spells error => exact (raises_floatOf r.schema _ _ _ error).ofValue
  | time tag content written error => exact (raises_timestampOf r.dialect _ _ error).ofValue
  | _ => trivial

/-! ## Texts and scalars of a changed graph -/

namespace Graph

variable {brought : Entry → Prop} {g₀ g : Graph} {i : NodeId} {text : Letters}

/-- A value key of a changed graph was one all along. -/
theorem Flattens.tag_value (h : Flattens brought g₀ g) (value : (g.node i).tag = Tag.value) :
    (g₀.node i).tag = Tag.value := by
  rcases h.tag i with heq | ⟨hvalue, -⟩
  · rw [← heq]
    exact value
  · exact hvalue

theorem Flattens.content_scalar (h : Flattens brought g₀ g)
    (content : (g.node i).content = .scalar text) : (g₀.node i).content = .scalar text := by
  have hkind : (g₀.node i).content.kind ≠ .mapping := by
    rw [← h.kind, content]
    simp [Content.kind]
  rw [← h.content i hkind]
  exact content

/-- What a mapping stands for in a changed graph it may stand for from the start. -/
theorem Edited.standsFor (h : g₀.Edited g) {e : Entry} (mem : e ∈ g.entries i)
    (value : (g.node e.key).tag = Tag.value) : g₀.StandsFor i e.value := by
  have hmapping : (g₀.node i).content.kind = .mapping := by
    rw [← h.flat.kind]
    exact kind_of_mem_entries mem
  exact ⟨hmapping, e, h.flat.entries i e mem, h.flat.tag_value value, rfl⟩

end Graph

/-! ## Displays of values -/

theorem Scalar.display_error {x : Scalar} {e : LoadError} (h : x.display = .error e) :
    (∃ n, x = .int n ∧ isLong n = true) ∧ e = .badValue .longInteger := by
  cases x with
  | int n =>
    by_cases hlong : isLong n
    · simp only [display, intDisplay, hlong, if_true, Except.error.injEq] at h
      exact ⟨⟨n, rfl, hlong⟩, h.symm⟩
    · simp [display, intDisplay, hlong] at h
  | _ => cases h

/-- Why a value cannot be shown. -/
def ShowFault (e : LoadError) : Prop :=
  e = .badValue .longInteger ∨ e = .breakdown (.tooDeep .showing)

theorem Scalar.raises_display (x : Scalar) : Raises ShowFault x.display :=
  fun _ h => .inl (Scalar.display_error h).2

namespace Tree

mutual

theorem raises_displayIn (around : List String) :
    (t : Tree) → Raises ShowFault (t.displayIn around)
  | .scalar s => by
    rw [displayIn]
    exact s.raises_display
  | .tuple [] => by
    rw [displayIn, displayItems]
    · exact .ok _
    · simp
  | .tuple [v] => by
    rw [displayIn]
    exact (raises_displayIn _ v).bind fun _ _ => .pure _
  | .tuple (v :: v' :: vs) => by
    rw [displayIn]
    · exact (raises_displayItems _ (v :: v' :: vs)).bind fun _ _ => .pure _
    · simp
  | .list vs => by
    rw [displayIn]
    exact (raises_displayItems _ vs).bind fun _ _ => .pure _
  | .map es => by
    rw [displayIn]
    exact (raises_displayEntries _ _ _ _ es).bind fun _ _ => .pure _
  | .orderedMap [] => by
    rw [displayIn]
    exact .ok _
  | .orderedMap (e :: es) => by
    rw [displayIn]
    · exact (raises_displayEntries _ _ _ _ (e :: es)).bind fun _ _ => .pure _
    · simp
  | .set [] => by
    rw [displayIn]
    exact .ok _
  | .set (v :: vs) => by
    rw [displayIn]
    · exact (raises_displayItems _ (v :: vs)).bind fun _ _ => .pure _
    · simp
  | .cycle levels => by
    rw [displayIn]
    exact .ok _
  | .deep => by
    rw [displayIn]
    exact .error (.inr rfl)

theorem raises_displayItems (around : List String) :
    (vs : List Tree) → Raises ShowFault (displayItems around vs)
  | [] => by
    rw [displayItems]
    exact .ok _
  | v :: vs => by
    rw [displayItems]
    refine (raises_displayIn around v).bind fun _ _ => ?_
    exact (raises_displayItems around vs).bind fun _ _ => .pure _

theorem raises_displayEntries (left between right : String) (around : List String) :
    (es : List (Tree × Tree)) → Raises ShowFault (displayEntries left between right around es)
  | [] => by
    rw [displayEntries]
    exact .ok _
  | (k, v) :: es => by
    rw [displayEntries]
    refine (raises_displayIn around k).bind fun _ _ => ?_
    refine (raises_displayIn around v).bind fun _ _ => ?_
    exact (raises_displayEntries left between right around es).bind fun _ _ => .pure _

end

end Tree

theorem raises_map {α β : Type} {P : LoadError → Prop} {r : Except LoadError α} (f : α → β)
    (h : Raises P r) : Raises P (r.map f) := by
  cases r with
  | ok v => exact .ok _
  | error e => exact .error (h e rfl)

theorem Scalar.raises_plainText (x : Scalar) : Raises ShowFault x.plainText := by
  unfold plainText
  split
  · exact .ok _
  · exact .ok _
  · exact .ok _
  · exact raises_map _ x.raises_display

theorem Value.raises_plainText (limits : Limits) (cells : Cells) (v : Value) :
    Raises ShowFault (v.plainText limits cells) := by
  have hshallow := raises_map Letters.ofText (Tree.raises_displayIn [] (v.shallow limits cells))
  cases v with
  | scalar s => exact s.raises_plainText
  | tuple items => exact hshallow
  | ref i => exact hshallow

namespace Build

/-! ## Texts -/

/-- The ways in which a text is looked for: in a scalar, or beyond a mapping. -/
theorem textOf_cases (g : Graph) (fuel : Nat) (i : NodeId) :
    (∃ text, (g.node i).content = .scalar text ∧ textOf g (fuel + 1) i = .ok text) ∨
      (∃ e ∈ g.entries i, (g.node e.key).tag = Tag.value ∧
        textOf g (fuel + 1) i = textOf g fuel e.value) ∨
      ∃ p m, textOf g (fuel + 1) i = .error (complaint p m) := by
  rw [textOf_succ]
  cases hcontent : (g.node i).content with
  | scalar text => exact .inl ⟨text, rfl, rfl⟩
  | sequence items => exact .inr (.inr ⟨_, _, rfl⟩)
  | mapping es =>
    cases hplain : g.plainEntry? i with
    | none => exact .inr (.inr ⟨_, _, rfl⟩)
    | some e =>
      have hmem : e ∈ g.entries i := List.mem_of_find?_eq_some hplain
      have hvalue : (g.node e.key).tag = Tag.value := by
        simpa [Graph.isValueKey] using List.find?_some hplain
      exact .inr (.inl ⟨e, hmem, hvalue, rfl⟩)

theorem spells_of_textOf {g₀ g : Graph} {fuel : Nat} {i : NodeId} {text : Letters}
    (edited : g₀.Edited g) (h : textOf g fuel i = .ok text) : g₀.Spells i text := by
  induction fuel generalizing i with
  | zero => cases h
  | succ fuel ih =>
    rcases textOf_cases g fuel i with ⟨own, hcontent, hok⟩ | ⟨e, hmem, hvalue, hnext⟩ |
      ⟨p, m, herror⟩
    · rw [hok] at h
      cases h
      exact ⟨i, .refl, edited.flat.content_scalar hcontent⟩
    · rw [hnext] at h
      obtain ⟨j, hleads, hcontent⟩ := ih h
      exact ⟨j, .head (edited.standsFor hmem hvalue) hleads, hcontent⟩
    · rw [herror] at h
      cases h

/-- A text that is not found within some levels, and not missed either, is beyond as many
mappings. -/
theorem chain_of_textOf {g₀ g : Graph} {fuel : Nat} {i : NodeId} {e : LoadError}
    (edited : g₀.Edited g) (h : textOf g fuel i = .error e) (missed : ∀ p m, e ≠ complaint p m) :
    e = .breakdown (.tooDeep .plainValue) ∧ Chain g₀.StandsFor fuel i := by
  induction fuel generalizing i with
  | zero =>
    cases h
    exact ⟨rfl, trivial⟩
  | succ fuel ih =>
    rcases textOf_cases g fuel i with ⟨own, -, hok⟩ | ⟨e, hmem, hvalue, hnext⟩ | ⟨p, m, herror⟩
    · rw [hok] at h
      cases h
    · rw [hnext] at h
      obtain ⟨he, hchain⟩ := ih h
      exact ⟨he, e.value, edited.standsFor hmem hvalue, hchain⟩
    · rw [herror] at h
      cases h
      exact (missed p m rfl).elim

/-! ## Displays of nodes -/

theorem raises_itemsDisplay {P : LoadError → Prop} {inner : NodeId → Except LoadError String}
    (each : ∀ i, Raises P (inner i)) (items : List NodeId) : Raises P (itemsDisplay inner items) :=
  (Raises.mapM each items).bind fun _ _ => .pure _

theorem raises_entriesDisplay {P : LoadError → Prop} {inner : NodeId → Except LoadError String}
    (each : ∀ i, Raises P (inner i)) (es : List Entry) : Raises P (entriesDisplay inner es) := by
  refine (Raises.mapM (fun e => ?_) es).bind fun _ _ => .pure _
  exact (each e.key).bind fun _ _ => (each e.value).bind fun _ _ => .pure _

/-- A node is shown, unless too many others lie in it. -/
theorem raises_nodeDisplay (g : Graph) (depth : Nat) (around : List NodeId) (i : NodeId) :
    Raises (· = .breakdown (.tooDeep .showing)) (nodeDisplay g depth around i) := by
  induction depth generalizing around i with
  | zero => exact .error rfl
  | succ depth ih =>
    unfold nodeDisplay
    extract_lets n frame inner
    have hinner : ∀ j, Raises (· = .breakdown (.tooDeep .showing)) (inner j) := ih (i :: around)
    split
    · exact .pure _
    · refine .ite (fun _ => .bind (.pure _) fun _ _ => .pure _) fun _ => ?_
      exact (raises_itemsDisplay hinner _).bind fun _ _ => .pure _
    · refine .ite (fun _ => .bind (.pure _) fun _ _ => .pure _) fun _ => ?_
      exact (raises_entriesDisplay hinner _).bind fun _ _ => .pure _

/-- Showing what is in a node fails at a collection only. -/
theorem raises_contentDisplay (l : Limits) (g : Graph) (i : NodeId) :
    Raises (fun e => e = .breakdown (.tooDeep .showing) ∧ (g.node i).content.kind ≠ .scalar)
      (contentDisplay l g i) := by
  have hinner : ∀ j, Raises (· = .breakdown (.tooDeep .showing)) (nodeDisplay g l.nodes [i] j) :=
    raises_nodeDisplay g l.nodes [i]
  unfold contentDisplay
  extract_lets inner
  cases hcontent : (g.node i).content with
  | scalar text => exact .pure _
  | sequence items =>
    refine ((raises_itemsDisplay hinner items).mono fun e he => ?_).bind fun _ _ => .pure _
    exact ⟨he, by simp [Content.kind]⟩
  | mapping es =>
    refine ((raises_entriesDisplay hinner es).mono fun e he => ?_).bind fun _ _ => .pure _
    exact ⟨he, by simp [Content.kind]⟩

section Scalars

variable {r : Rules} {g₀ g : Graph} {i : NodeId}

/-- A text is not found only if plain values lead on too far. -/
theorem raises_text (edited : g₀.Edited g) (i : NodeId) :
    Raises (LoadError.Among (g₀.Fails r)) (text r.limits g i) := by
  intro e he
  by_cases hmissed : ∃ p m, e = complaint p m
  · obtain ⟨p, m, rfl⟩ := hmissed
    trivial
  · obtain ⟨rfl, hchain⟩ := chain_of_textOf edited he fun p m heq => hmissed ⟨p, m, heq⟩
    exact .tooDeep (.plainValue hchain)

/-- A node that has a text and is no scalar is a mapping. -/
theorem kind_of_text {t : Letters} (edited : g₀.Edited g) (h : text r.limits g i = .ok t)
    (other : (g.node i).content.kind ≠ .scalar) : (g₀.node i).content.kind = .mapping := by
  rw [← edited.flat.kind]
  rcases textOf_cases g r.limits.plain i with ⟨own, hcontent, -⟩ | ⟨e, hmem, -, -⟩ |
    ⟨p, m, herror⟩
  · rw [hcontent] at other
    exact (other rfl).elim
  · exact Graph.kind_of_mem_entries hmem
  · cases herror.symm.trans h

theorem raises_timestamp (edited : g₀.Edited g) (tag : (g₀.node i).tag = Tag.timestamp) :
    Raises (LoadError.Among (g₀.Fails r)) (timestamp r g i) := by
  have htext : Raises (LoadError.Among (g₀.Fails r)) (text r.limits g i) :=
    raises_text edited i
  unfold timestamp
  extract_lets n written finish
  by_cases hkind : n.content.kind = .scalar
  · obtain ⟨text, hcontent⟩ := Content.exists_text hkind
    have hown : (g₀.node i).content = .scalar text := edited.flat.content_scalar hcontent
    have hwritten : written = WrittenTimestamp.read? (dropLastBreak text.faces) := by
      dsimp only [written]
      rw [hcontent]
    have hfinish : Raises (LoadError.Among (g₀.Fails r)) (finish ()) := by
      have hshown := raises_contentDisplay r.limits g i
      dsimp only [finish]
      rw [hwritten]
      cases hread : WrittenTimestamp.read? (dropLastBreak text.faces) with
      | some w => exact fun e he => LoadError.among_of (.time tag hown hread he)
      | none =>
        cases hd : r.dialect with
        | classic => exact .throw (.notTime tag hown hd hread)
        | modern =>
          refine (hshown.mono fun e he => (he.2 hkind).elim).bind fun _ _ => ?_
          exact .throw trivial
    refine .ite (fun _ => ?_) fun _ => hfinish
    refine htext.bind fun _ _ => ?_
    exact .ite (fun hother => absurd hkind (by simpa using hother)) fun _ => hfinish
  · have hwritten : written = none := by
      dsimp only [written]
      split
      · rename_i text hcontent
        simp [hcontent, Content.kind] at hkind
      · rfl
    refine .ite (fun hclassic => ?_) fun hmodern => ?_
    · refine htext.bind fun t ht => ?_
      have hmapping := kind_of_text (r := r) edited ht hkind
      have hspells := spells_of_textOf edited ht
      refine .ite (fun _ => .throw_bind ?_) fun hscalar => (hscalar (by simp [hkind])).elim
      exact .mappedTime tag hmapping hspells (by simpa using hclassic)
    · dsimp only [finish]
      rw [hwritten]
      cases hd : r.dialect with
      | classic => simp [hd] at hmodern
      | modern =>
        have hcollection : (g₀.node i).content.kind ≠ .scalar := by rwa [← edited.flat.kind]
        refine Raises.bind ?_ fun _ _ => .throw trivial
        refine (raises_contentDisplay r.limits g i).mono fun e he => LoadError.among_of ?_
        rw [he.1]
        exact .tooDeep (.showingTime tag hcollection hd)

theorem raises_bytesOf (known : LoadError → Prop) (mark : Mark) (text : Letters) :
    Raises (LoadError.Among known) (bytesOf mark text) := by
  unfold bytesOf
  extract_lets complain
  split
  · exact .error trivial
  · split
    · exact .ok _
    · exact .error trivial

/-- A scalar only fails at a text that denotes no value of its type. -/
theorem raises_scalar (edited : g₀.Edited g) :
    Raises (LoadError.Among (g₀.Fails r)) (scalar r g i) := by
  have htext : Raises (LoadError.Among (g₀.Fails r)) (text r.limits g i) :=
    raises_text edited i
  have hspells : ∀ t, text r.limits g i = .ok t → g₀.Spells i t := fun t ht =>
    spells_of_textOf edited ht
  have htags : ∀ {tag : String}, tag ≠ Tag.value → tag ≠ Tag.str →
      ((g.node i).tag == tag) = true → (g₀.node i).tag = tag := by
    intro tag hvalue hstr h
    exact (edited.flat.tag_eq_iff hvalue hstr).mp (by simpa using h)
  unfold scalar
  extract_lets n tag
  refine .ite (fun _ => ?_) fun _ => .ite (fun _ => ?_) fun _ => ?_
  · exact htext.bind fun t _ => .pure _
  · exact htext.bind fun t _ => .pure _
  refine .ite (fun htag => ?_) fun _ => .ite (fun htag => ?_) fun _ => ?_
  · have hown : (g₀.node i).tag = Tag.bool := htags (by decide) (by decide) htag
    refine htext.bind fun t ht => Raises.bind ?_ fun v _ => .pure _
    exact fun e he => LoadError.among_of (.word hown (hspells t ht) he)
  · have hown : (g₀.node i).tag = Tag.int := htags (by decide) (by decide) htag
    refine htext.bind fun t ht => Raises.bind ?_ fun v _ => .pure _
    exact fun e he => LoadError.among_of (.integer hown (hspells t ht) he)
  refine .ite (fun htag => ?_) fun _ => .ite (fun _ => ?_) fun _ => ?_
  · have hown : (g₀.node i).tag = Tag.float := htags (by decide) (by decide) htag
    refine htext.bind fun t ht => ?_
    exact fun e he => LoadError.among_of (.number hown (hspells t ht) he)
  · refine htext.bind fun t _ => ?_
    exact (raises_bytesOf _ _ t).bind fun v _ => .pure _
  refine .ite (fun htag => ?_) fun _ => .throw trivial
  exact raises_timestamp edited (htags (by decide) (by decide) htag)

end Scalars

end Build

end YamlCheck.Yaml
