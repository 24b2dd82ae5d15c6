import YamlCheck.Proofs.Yaml.Mirrored

/-!
# Which collections a document builds

What a construction does to its cells is of no interest here, only which collections it builds and
in which order they wait to be filled.  In either dialect that follows from the graph alone: filling
a collection calls on its parts one after the other, and a part that is a collection and has not
been built joins the queue.  The keys must not be collections, since the modern dialect fills those
on the spot.
-/

namespace YamlCheck.Yaml

open YamlCheck.Text

open Build Construction

/-- The collections that are built so far, and those that wait to be filled. -/
structure Roster where
  queue : List NodeId
  built : NodeId → Bool

namespace Roster

/-- The roster once a node is called on. -/
def enlist (collects : NodeId → Bool) (r : Roster) (i : NodeId) : Roster :=
  if collects i && !r.built i then ⟨r.queue ++ [i], fun j => j == i || r.built j⟩ else r

/-- The roster once some nodes are called on, one after the other. -/
def enlistAll (collects : NodeId → Bool) (r : Roster) (is : List NodeId) : Roster :=
  is.foldl (enlist collects) r

variable {collects : NodeId → Bool} {r : Roster} {i j : NodeId} {is js : List NodeId}

theorem enlistAll_append (r : Roster) (is js : List NodeId) :
    enlistAll collects r (is ++ js) = enlistAll collects (enlistAll collects r is) js :=
  List.foldl_append

theorem enlist_of_known (known : collects i = true → r.built i = true) :
    enlist collects r i = r := by
  unfold enlist
  cases hcollects : collects i with
  | false => simp
  | true => simp [known hcollects]

theorem built_enlist (h : r.built j = true) : (enlist collects r i).built j = true := by
  unfold enlist
  split
  · simp [h]
  · exact h

theorem built_enlist_self (h : collects i = true) : (enlist collects r i).built i = true := by
  unfold enlist
  cases hbuilt : r.built i with
  | false => simp [h]
  | true => simp [hbuilt]

theorem built_enlistAll (h : r.built j = true) : (enlistAll collects r is).built j = true := by
  induction is generalizing r with
  | nil => exact h
  | cons i is ih => exact ih (built_enlist h)

theorem built_of_mem (mem : j ∈ is) (h : collects j = true) :
    (enlistAll collects r is).built j = true := by
  induction is generalizing r with
  | nil => cases mem
  | cons i is ih =>
    rcases List.mem_cons.mp mem with rfl | mem
    · have hrest : (enlistAll collects (enlist collects r j) is).built j = true :=
        built_enlistAll (built_enlist_self h)
      exact hrest
    · exact ih mem

theorem enlistAll_of_known (known : ∀ i ∈ is, collects i = true → r.built i = true) :
    enlistAll collects r is = r := by
  induction is with
  | nil => rfl
  | cons i is ih =>
    have hfirst := enlist_of_known (known i (by simp))
    unfold enlistAll
    rw [List.foldl_cons, hfirst]
    exact ih fun j hj => known j (by simp [hj])

/-- Nodes that are called on a second time change nothing. -/
theorem enlistAll_twice (r : Roster) (is js : List NodeId) :
    enlistAll collects r (is ++ (is ++ js)) = enlistAll collects r (is ++ js) := by
  have hagain : enlistAll collects (enlistAll collects r is) is = enlistAll collects r is :=
    enlistAll_of_known fun i hi hcollects => built_of_mem hi hcollects
  rw [enlistAll_append, enlistAll_append, enlistAll_append, hagain]

end Roster

/-- The nodes that are called on for the entries of a mapping. -/
def entryParts (es : List Entry) : List NodeId := es.flatMap fun e => [e.key, e.value]

theorem entryParts_append (es es' : List Entry) :
    entryParts (es ++ es') = entryParts es ++ entryParts es' := List.flatMap_append

/-- The nodes that are called on when a collection is filled that is no mapping. -/
def Graph.itemParts (g : Graph) (i : NodeId) (items : List NodeId) : List NodeId :=
  if (g.node i).tag == Tag.seq then items else items.flatMap fun j => entryParts (g.entries j)

namespace Construction

/-- Whether the collection at a node is built. -/
def holds (c : Construction) (i : NodeId) : Bool :=
  match c.stage i with
  | .finished (.ref j) => j == i
  | _ => false

def roster (c : Construction) : Roster := ⟨c.queue, c.holds⟩

/-- A state between two nodes, in either dialect.  The scalar of a text that is read is the text. -/
structure Quiet (c : Construction) : Prop where
  waits : c.atOnce = false
  room : c.graph.nodes.size ≤ c.progress.size
  stage : ∀ i, c.stage i = .untouched ∨
    (c.stage i = .finished (.ref i) ∧ c.graph.collects i = true) ∨
    ∃ x, c.stage i = .finished (.scalar x) ∧ c.graph.collects i = false ∧
      ∀ text, (c.graph.node i).tag = Tag.str → (c.graph.node i).content = .scalar text →
        x = .text text

/-- What comes of a state when some nodes are called on. -/
structure Calls (c c' : Construction) (is : List NodeId) : Prop where
  quiet : c'.Quiet
  rules : c'.rules = c.rules
  graph : c'.graph = c.graph
  roster : c'.roster = c.roster.enlistAll c.graph.collects is

variable {c c' c₁ : Construction} {i : NodeId} {is js : List NodeId}

theorem Calls.nothing (quiet : c.Quiet) : Calls c c [] := ⟨quiet, rfl, rfl, rfl⟩

theorem Calls.trans (first : Calls c c₁ is) (next : Calls c₁ c' js) : Calls c c' (is ++ js) where
  quiet := next.quiet
  rules := next.rules.trans first.rules
  graph := next.graph.trans first.graph
  roster := by
    rw [next.roster, first.roster, first.graph, Roster.enlistAll_append]

theorem Quiet.withCell (quiet : c.Quiet) (i : NodeId) (cell : Cell) : (c.withCell i cell).Quiet :=
  ⟨quiet.waits, quiet.room, quiet.stage⟩

theorem Calls.withCell (calls : Calls c c' is) (i : NodeId) (cell : Cell) :
    Calls c (c'.withCell i cell) is :=
  ⟨calls.quiet.withCell i cell, calls.rules, calls.graph, calls.roster⟩

theorem Quiet.start (r : Rules) (g : Graph) : (Construction.start r g).Quiet where
  waits := rfl
  room := by simp [Construction.start]
  stage i := .inl (stage_start r g i)

theorem Quiet.emptied (quiet : c.Quiet) : Construction.Quiet { c with queue := [] } :=
  ⟨quiet.waits, quiet.room, quiet.stage⟩

/-- Replacing merge keys changes nothing that was read or built. -/
theorem Quiet.withGraph {g : Graph} (quiet : c.Quiet) (absorbs : c.graph.Absorbs g) :
    (c.withGraph g).Quiet where
  waits := quiet.waits
  room := by
    have hsize := absorbs.size
    have hroom := quiet.room
    change g.nodes.size ≤ c.progress.size
    omega
  stage i := by
    have hcollects := absorbs.collects_eq i
    rcases quiet.stage i with huntouched | ⟨hstage, hcollection⟩ | ⟨x, hstage, hscalar, htext⟩
    · exact .inl huntouched
    · exact .inr (.inl ⟨hstage, hcollects.trans hcollection⟩)
    · refine .inr (.inr ⟨x, hstage, hcollects.trans hscalar, fun text htag hcontent => ?_⟩)
      have hkind : (c.graph.node i).content.kind ≠ .mapping := by
        rw [← absorbs.kind]
        intro hmapping
        have hcontent' : (g.node i).content = .scalar text := hcontent
        rw [hcontent'] at hmapping
        cases hmapping
      exact htext text ((absorbs.tag i).symm.trans htag)
        ((absorbs.content i hkind).symm.trans hcontent)

end Construction

namespace Build

variable {c c' : Construction} {i : NodeId} {n : Nat}

theorem emptyCell?_isSome (d : Dialect) (g : Graph) (i : NodeId) :
    (emptyCell? d (g.node i).tag).isSome = g.collects i := by
  unfold Graph.collects emptyCell?
  repeat' split
  all_goals rfl

theorem scalar_of_text {r : Rules} {g : Graph} {text : Letters} (tag : (g.node i).tag = Tag.str)
    (content : (g.node i).content = .scalar text) : scalar r g i = .ok (.text text) := by
  have htext : Build.text r.limits g i = .ok text := by
    unfold Build.text
    rw [textOf_succ, content]
  unfold scalar
  simp only [tag, beq_self_eq_true, if_true, htext]
  rfl

/-- The value that a node is made into, as far as keys need it. -/
def MadeOf (g : Graph) (i : NodeId) (v : Value) : Prop :=
  (v = .ref i ∧ g.collects i = true) ∨
    ∃ x, v = .scalar x ∧ g.collects i = false ∧
      ∀ text, (g.node i).tag = Tag.str → (g.node i).content = .scalar text → x = .text text

theorem calls_learn {x : Scalar} (quiet : c.Quiet) (untouched : c.stage i = .untouched)
    (scalar : c.graph.collects i = false)
    (text : ∀ text, (c.graph.node i).tag = Tag.str →
      (c.graph.node i).content = .scalar text → x = .text text) : Calls c (c.learn i x) [i] where
  quiet := by
    refine ⟨quiet.waits, ?_, fun j => ?_⟩
    · rw [size_learn]
      exact quiet.room
    · rw [stage_learn]
      split
      · rename_i hj
        rw [← hj.1]
        exact .inr (.inr ⟨x, rfl, scalar, text⟩)
      · exact quiet.stage j
  rules := rfl
  graph := rfl
  roster := by
    have hsame : (c.learn i x).holds = c.holds := by
      funext j
      unfold holds
      rw [stage_learn]
      by_cases hj : i = j ∧ i < c.progress.size
      · rw [if_pos hj, ← hj.1, untouched]
      · rw [if_neg hj]
    have hskip : c.roster.enlistAll c.graph.collects [i] = c.roster :=
      Roster.enlistAll_of_known fun j hj hcollects => by
        rw [List.mem_singleton.mp hj, scalar] at hcollects
        cases hcollects
    rw [hskip]
    unfold roster
    rw [hsame]
    rfl

theorem calls_enqueue {cell : Cell} (quiet : c.Quiet) (untouched : c.stage i = .untouched)
    (collection : c.graph.collects i = true) : Calls c (c.enqueue i cell) [i] := by
  have hlt : i < c.progress.size := by
    refine Nat.lt_of_lt_of_le (Graph.lt_size_of_tag fun hnull => ?_) quiet.room
    unfold Graph.collects at collection
    rw [hnull] at collection
    cases collection
  refine ⟨⟨quiet.waits, ?_, fun j => ?_⟩, rfl, rfl, ?_⟩
  · rw [size_enqueue]
    exact quiet.room
  · rw [stage_enqueue]
    split
    · rename_i hj
      rw [← hj.1]
      exact .inr (.inl ⟨rfl, collection⟩)
    · exact quiet.stage j
  · have hfresh : c.holds i = false := by
      unfold holds
      rw [untouched]
    have hholds : (c.enqueue i cell).holds = fun j => j == i || c.holds j := by
      funext j
      unfold holds
      rw [stage_enqueue]
      by_cases hij : i = j
      · subst hij
        simp [hlt]
      · simp [hij, Ne.symm hij]
    unfold roster Roster.enlistAll Roster.enlist
    simp only [List.foldl_cons, List.foldl_nil, collection, hfresh, hholds]
    rfl

theorem calls_known (quiet : c.Quiet) (known : c.graph.collects i = true → c.holds i = true) :
    Calls c c [i] where
  quiet := quiet
  rules := rfl
  graph := rfl
  roster := (Roster.enlistAll_of_known fun j hj hcollects => by
    rw [List.mem_singleton.mp hj] at hcollects ⊢
    exact known hcollects).symm

/-- Making a node calls on it, in either dialect; what has to be complete must be no collection. -/
theorem calls_make {whole : Bool} {v : Value} (quiet : c.Quiet)
    (part : whole = true → c.graph.collects i = false)
    (run : (make (n + 1) i whole).run c = .ok (v, c')) :
    Calls c c' [i] ∧ MadeOf c.graph i v := by
  rcases quiet.stage i with huntouched | ⟨hstage, hcollection⟩ | ⟨x, hstage, hscalar, htext⟩
  · have hcell := emptyCell?_isSome c.rules.dialect c.graph i
    cases hempty : emptyCell? c.rules.dialect (c.graph.node i).tag with
    | none =>
      rw [hempty] at hcell
      rw [run_make_scalar huntouched hempty] at run
      cases hread : scalar c.rules c.graph i with
      | error e =>
        rw [hread] at run
        cases run
      | ok x =>
        rw [hread] at run
        cases run
        have htext : ∀ text, (c.graph.node i).tag = Tag.str →
            (c.graph.node i).content = .scalar text → x = .text text := by
          intro text htag hcontent
          rw [scalar_of_text htag hcontent] at hread
          exact (Except.ok.inj hread).symm
        exact ⟨calls_learn quiet huntouched hcell.symm htext, .inr ⟨x, rfl, hcell.symm, htext⟩⟩
    | some cell =>
      rw [hempty] at hcell
      cases whole with
      | true =>
        rw [part rfl] at hcell
        cases hcell
      | false =>
        rw [run_make_cell huntouched quiet.waits hempty] at run
        cases run
        exact ⟨calls_enqueue quiet huntouched hcell.symm, .inl ⟨rfl, hcell.symm⟩⟩
  · rw [run_make_of_finished hstage] at run
    cases run
    have hholds : c.holds i = true := by
      unfold holds
      rw [hstage]
      exact beq_self_eq_true i
    exact ⟨calls_known quiet fun _ => hholds, .inl ⟨rfl, hcollection⟩⟩
  · rw [run_make_of_finished hstage] at run
    cases run
    refine ⟨calls_known quiet fun hcollects => ?_, .inr ⟨x, rfl, hscalar, htext⟩⟩
    rw [hscalar] at hcollects
    cases hcollects

/-- A part that need not be complete. -/
theorem calls_part {v : Value} (quiet : c.Quiet)
    (run : (make (n + 1) i false).run c = .ok (v, c')) : Calls c c' [i] :=
  (calls_make quiet (fun h => by cases h) run).1

theorem calls_items {items : List NodeId} {vs : List Value} (quiet : c.Quiet)
    (run : (items.mapM fun j => make (n + 1) j false).run c = .ok (vs, c')) :
    Calls c c' items := by
  induction items generalizing c vs with
  | nil =>
    rw [List.mapM_nil] at run
    cases run
    exact .nothing quiet
  | cons j items ih =>
    rw [List.mapM_cons] at run
    obtain ⟨v, c₁, hmake, run⟩ := run_bind_ok run
    obtain ⟨ws, c₂, hrest, run⟩ := run_bind_ok run
    cases run
    have hcalls := calls_part quiet hmake
    exact hcalls.trans (ih hcalls.quiet hrest)

theorem calls_classicEntries {around : Mark} {es : List Entry} {acc r : List (Value × Value)}
    (quiet : c.Quiet)
    (run : (classicEntries (make (n + 1)) around acc es).run c = .ok (r, c')) :
    Calls c c' (entryParts es) := by
  induction es generalizing acc c with
  | nil =>
    cases run
    exact .nothing quiet
  | cons e rest ih =>
    unfold classicEntries at run
    obtain ⟨k, c₁, hkey, run⟩ := run_bind_ok run
    have hcalls₁ := calls_part quiet hkey
    by_cases hcollection : k.collection?.isSome
    · simp only [hcollection, if_true] at run
      obtain ⟨_, _, -, run⟩ := run_bind_ok run
      obtain ⟨_, _, hthrow, -⟩ := run_bind_ok run
      cases hthrow
    · simp only [hcollection] at run
      rw [if_neg (by simp)] at run
      obtain ⟨v, c₂, hvalue, run⟩ := run_bind_ok run
      have hcalls₂ := calls_part hcalls₁.quiet hvalue
      exact (hcalls₁.trans hcalls₂).trans (ih hcalls₂.quiet run)

theorem calls_pairs {context : Context} {around : Mark} {items : List NodeId} {acc : List Value}
    (quiet : c.Quiet)
    (run : (fillPairs.loop (make (n + 1)) context i around acc items).run c = .ok ((), c')) :
    Calls c c' (items.flatMap fun j => entryParts (c.graph.entries j)) := by
  induction items generalizing c acc with
  | nil =>
    cases run
    exact .nothing quiet
  | cons j rest ih =>
    unfold fillPairs.loop at run
    obtain ⟨e, c₀, hentry, run⟩ := run_bind_ok run
    obtain ⟨hcontent, hsame⟩ := singleEntry_ok hentry
    rw [hsame] at run
    obtain ⟨k, c₁, hkey, run⟩ := run_bind_ok run
    obtain ⟨v, c₂, hvalue, run⟩ := run_bind_ok run
    obtain ⟨⟨⟩, c₃, hcell, run⟩ := run_bind_ok run
    cases hcell
    have hcalls₁ := calls_part quiet hkey
    have hcalls₂ := (hcalls₁.trans (calls_part hcalls₁.quiet hvalue)).withCell i
      (.list (acc ++ [.tuple [k, v]]))
    have hrest := ih hcalls₂.quiet run
    rw [hcalls₂.graph] at hrest
    rw [List.flatMap_cons, Graph.entries_of_content hcontent]
    exact hcalls₂.trans hrest

theorem calls_orderedPairs {around : Mark} {items : List NodeId} {acc : List (Value × Value)}
    (quiet : c.Quiet)
    (run : (fillOrderedMap.loop (make (n + 1)) i around acc items).run c = .ok ((), c')) :
    Calls c c' (items.flatMap fun j => entryParts (c.graph.entries j)) := by
  induction items generalizing c acc with
  | nil =>
    cases run
    exact .nothing quiet
  | cons j rest ih =>
    unfold fillOrderedMap.loop at run
    obtain ⟨e, c₀, hentry, run⟩ := run_bind_ok run
    obtain ⟨hcontent, hsame⟩ := singleEntry_ok hentry
    rw [hsame] at run
    obtain ⟨k, c₁, hkey, run⟩ := run_bind_ok run
    obtain ⟨⟨⟩, c₂, hhash, run⟩ := run_bind_ok run
    obtain ⟨hsame', -⟩ := refuseUnhashable_ok (l := c₁) hhash
    rw [hsame'] at run
    by_cases hrepeated : (Value.get? acc k).isSome
    · simp only [hrepeated, if_true] at run
      obtain ⟨_, _, hthrow, -⟩ := run_bind_ok run
      cases hthrow
    · simp only [hrepeated] at run
      rw [if_neg (by simp)] at run
      obtain ⟨v, c₃, hvalue, run⟩ := run_bind_ok run
      obtain ⟨⟨⟩, c₄, hcell, run⟩ := run_bind_ok run
      cases hcell
      have hcalls₁ := calls_part quiet hkey
      have hcalls₂ := (hcalls₁.trans (calls_part hcalls₁.quiet hvalue)).withCell i
        (.orderedMap (acc ++ [(k, v)]))
      have hrest := ih hcalls₂.quiet run
      rw [hcalls₂.graph] at hrest
      rw [List.flatMap_cons, Graph.entries_of_content hcontent]
      exact hcalls₂.trans hrest

/-! ## Mappings of the modern dialect -/

/-- A text is made at once, whether or not it has to be complete. -/
theorem make_text {whole : Bool} {text : Letters} (quiet : c.Quiet)
    (tag : (c.graph.node i).tag = Tag.str) (content : (c.graph.node i).content = .scalar text) :
    ∃ c₁, (make (n + 1) i whole).run c = .ok (.scalar (.text text), c₁) ∧ Calls c c₁ [i] := by
  have hscalar : c.graph.collects i = false := by
    unfold Graph.collects
    rw [tag]
    rfl
  have hmade : ∃ c₁, (make (n + 1) i whole).run c = .ok (.scalar (.text text), c₁) := by
    rcases quiet.stage i with huntouched | ⟨-, hcollection⟩ | ⟨x, hstage, -, htext⟩
    · have hempty : emptyCell? c.rules.dialect (c.graph.node i).tag = none :=
        emptyCell?_of_mem (by rw [tag]; simp [scalarTags])
      rw [run_make_scalar huntouched hempty, scalar_of_text tag content]
      exact ⟨_, rfl⟩
    · rw [hscalar] at hcollection
      cases hcollection
    · rw [run_make_of_finished hstage, htext text tag content]
      exact ⟨c, rfl⟩
  obtain ⟨c₁, hrun⟩ := hmade
  exact ⟨c₁, hrun, (calls_make quiet (fun _ => hscalar) hrun).1⟩

/-- What becomes of a text that a mapping repeats as a key: a complaint about it, unless one of its
values cannot be shown. -/
def repeatedText (limits : Limits) (cells : Cells) (around key : Mark) (text : Letters)
    (v old : Value) : LoadError :=
  match v.plainText limits cells, old.plainText limits cells with
  | .ok value, .ok original =>
    .complaint .checkingKeys {
      context := some .mappingValue, contextMark := some around
      problem := some (.repeatedKeyWithValue text value original)
      problemMark := some key, note := some .aboutRepeatedKeys }
  | .ok _, .error e | .error e, _ => e

theorem run_complainRepeated_text {α : Type} (around key : Mark) (text : Letters) (v old : Value) :
    (complainRepeated around key (.scalar (.text text)) v old : Build α).run c =
      .error (repeatedText c.rules.limits c.cells around key text v old) := by
  unfold complainRepeated repeatedText
  rw [run_bind_of_ok (run_get c)]
  extract_lets shown
  have known : ∀ {v : Value} {t : Letters}, v.plainText c.rules.limits c.cells = .ok t →
      (shown v).run c = .ok (t, c) := fun h => by
    dsimp only [shown]
    rw [h]
    rfl
  have unknown : ∀ {v : Value} {e : LoadError}, v.plainText c.rules.limits c.cells = .error e →
      (shown v).run c = .error e := fun h => by
    dsimp only [shown]
    rw [h]
    rfl
  rw [run_bind_of_ok (known (v := .scalar (.text text)) rfl)]
  cases hv : v.plainText c.rules.limits c.cells with
  | error e => exact run_bind_of_error (unknown hv)
  | ok value =>
    rw [run_bind_of_ok (known hv)]
    cases hold : old.plainText c.rules.limits c.cells with
    | error e => exact run_bind_of_error (unknown hold)
    | ok original =>
      rw [run_bind_of_ok (known hold)]
      rfl

section ModernEntries

variable {make : Builder} {around : Mark} {checked : Bool} {acc : List (Value × Value)} {e : Entry}
  {rest : List Entry} {text : Letters} {c₁ c₂ : Construction} {v old : Value}

theorem run_modernEntries_text (key : (make e.key true).run c = .ok (.scalar (.text text), c₁)) :
    (modernEntries make around checked acc (e :: rest)).run c =
      (make e.value false >>= fun v =>
        match checked, Value.get? acc (.scalar (.text text)) with
        | true, some old => do
          if (← get).rules.duplicates == .refused then
            complainRepeated around (c₁.graph.node e.key).mark (.scalar (.text text)) v old
          modernEntries make around checked acc rest
        | _, _ =>
          modernEntries make around checked (Value.put acc (.scalar (.text text)) v) rest).run
        c₁ := by
  rw [modernEntries, run_bind_of_ok key, run_bind_of_ok (run_get c₁),
    run_bind_of_ok (run_node e.key c₁)]
  rfl

/-- The value of a key that is new, or of any key in a mapping that is not checked, is noted. -/
theorem run_modernEntries_put (key : (make e.key true).run c = .ok (.scalar (.text text), c₁))
    (value : (make e.value false).run c₁ = .ok (v, c₂))
    (new : checked = true → Value.get? acc (.scalar (.text text)) = none) :
    (modernEntries make around checked acc (e :: rest)).run c =
      (modernEntries make around checked (Value.put acc (.scalar (.text text)) v) rest).run c₂ := by
  rw [run_modernEntries_text key, run_bind_of_ok value]
  cases checked with
  | false => rfl
  | true =>
    rw [new rfl]

/-- A repeated key is passed over or refused. -/
theorem run_modernEntries_repeated
    (key : (make e.key true).run c = .ok (.scalar (.text text), c₁))
    (value : (make e.value false).run c₁ = .ok (v, c₂))
    (known : Value.get? acc (.scalar (.text text)) = some old) :
    (modernEntries make around true acc (e :: rest)).run c =
      if c₂.rules.duplicates = .refused then
        .error (repeatedText c₂.rules.limits c₂.cells around (c₁.graph.node e.key).mark text v old)
      else (modernEntries make around true acc rest).run c₂ := by
  rw [run_modernEntries_text key, run_bind_of_ok value, known]
  by_cases hrefused : c₂.rules.duplicates = .refused
  · rw [if_pos hrefused, run_bind_of_ok (run_get c₂)]
    simp only [hrefused, beq_self_eq_true, if_true]
    exact run_bind_of_error (run_complainRepeated_text _ _ _ _ _)
  · rw [if_neg hrefused, run_bind_of_ok (run_get c₂)]
    simp only [beq_iff_eq, hrefused, if_false]

end ModernEntries

/-- A round of the entries of a mapping that ends well has made the key, a text, and the value. -/
theorem modernEntries_ok {around : Mark} {checked : Bool} {e : Entry} {rest : List Entry}
    {acc r : List (Value × Value)} (quiet : c.Quiet) (plain : c.graph.TextKey e)
    (run : (modernEntries (make (n + 1)) around checked acc (e :: rest)).run c = .ok (r, c')) :
    ∃ text c₁ v c₂, c.graph.keyContent e = .scalar text ∧
      (make (n + 1) e.key true).run c = .ok (.scalar (.text text), c₁) ∧
      (make (n + 1) e.value false).run c₁ = .ok (v, c₂) ∧
      Calls c c₁ [e.key] ∧ Calls c c₂ [e.key, e.value] := by
  obtain ⟨text, hcontent⟩ := Content.exists_text plain.1
  obtain ⟨c₁, hkey, hcalls⟩ : ∃ c₁, (make (n + 1) e.key true).run c =
      .ok (.scalar (.text text), c₁) ∧ Calls c c₁ [e.key] := make_text quiet plain.2 hcontent
  rw [run_modernEntries_text hkey] at run
  obtain ⟨v, c₂, hvalue, -⟩ := run_bind_ok run
  exact ⟨text, c₁, v, c₂, hcontent, hkey, hvalue, hcalls,
    hcalls.trans (calls_part hcalls.quiet hvalue)⟩

/-- What is left of the entries of a mapping once the first one is dealt with. -/
theorem modernEntries_rest {around : Mark} {checked : Bool} {e : Entry} {rest : List Entry}
    {acc r : List (Value × Value)} {text : Letters} {c₁ c₂ : Construction} {v : Value}
    (key : (make (n + 1) e.key true).run c = .ok (.scalar (.text text), c₁))
    (value : (make (n + 1) e.value false).run c₁ = .ok (v, c₂))
    (run : (modernEntries (make (n + 1)) around checked acc (e :: rest)).run c = .ok (r, c')) :
    ∃ acc', (modernEntries (make (n + 1)) around checked acc' rest).run c₂ = .ok (r, c') := by
  by_cases hnew : checked = true → Value.get? acc (.scalar (.text text)) = none
  · rw [run_modernEntries_put key value hnew] at run
    exact ⟨_, run⟩
  · obtain ⟨rfl, hold⟩ := Classical.not_imp.mp hnew
    obtain ⟨old, hknown⟩ := Option.ne_none_iff_exists'.mp hold
    rw [run_modernEntries_repeated key value hknown] at run
    split at run
    · cases run
    · exact ⟨acc, run⟩

theorem calls_modernEntries {around : Mark} {checked : Bool} {es : List Entry}
    {acc r : List (Value × Value)} (quiet : c.Quiet) (texts : c.graph.Texts es)
    (run : (modernEntries (make (n + 1)) around checked acc es).run c = .ok (r, c')) :
    Calls c c' (entryParts es) := by
  induction es generalizing acc c with
  | nil =>
    cases run
    exact .nothing quiet
  | cons e rest ih =>
    obtain ⟨text, c₁, v, c₂, -, hkey, hvalue, -, hcalls⟩ :=
      modernEntries_ok quiet (texts e (by simp)) run
    obtain ⟨acc', hrest⟩ := modernEntries_rest hkey hvalue run
    have htexts : c₂.graph.Texts rest := by
      rw [hcalls.graph]
      exact fun e he => texts e (by simp [he])
    exact hcalls.trans (ih hcalls.quiet htexts hrest)

theorem run_modernMapping_ok {make : Builder} {es : List (Value × Value)}
    (run : (modernMapping make i).run c = .ok (es, c')) :
    ∃ g, (Merging.replace c.rules i).run c.graph = .ok ((), g) ∧
      (modernEntries make (g.node i).mark (g.node i).merged.isNone []
        ((g.node i).merged.getD [] ++ g.entries i)).run (c.withGraph g) = .ok (es, c') := by
  unfold modernMapping at run
  obtain ⟨⟨⟩, c₁, hreplace, run⟩ := run_bind_ok run
  obtain ⟨g, hg, rfl⟩ := run_replaceMerges_ok hreplace
  rw [run_bind_of_ok (run_node i _), run_bind_of_ok (run_get _)] at run
  exact ⟨g, hg, run⟩

theorem run_mapping_classic {make : Builder} (dialect : c.rules.dialect = .classic)
    (allowed : c.rules.duplicates = .allowed) (kind : (c.graph.node i).content.kind = .mapping) :
    (mapping make i).run c = (classicMapping make i).run c := by
  unfold mapping
  rw [run_bind_of_ok (run_get c), run_bind_of_ok (run_node i c)]
  simp only [kind, dialect, allowed]
  rfl

theorem run_mapping_modern {make : Builder} (dialect : c.rules.dialect = .modern)
    (kind : (c.graph.node i).content.kind = .mapping) :
    (mapping make i).run c = (modernMapping make i).run c := by
  unfold mapping
  rw [run_bind_of_ok (run_get c), run_bind_of_ok (run_node i c)]
  simp only [kind, dialect]
  rfl

/-- What comes of a state when a collection is filled: the graph that is left once its merge keys
are replaced, and its parts that are called on. -/
structure Filled (c c' : Construction) (g : Graph) (parts : List NodeId) : Prop where
  quiet : c'.Quiet
  rules : c'.rules = c.rules
  graph : c'.graph = g
  roster : c'.roster = c.roster.enlistAll g.collects parts

theorem Filled.withCell {g : Graph} {parts : List NodeId} (h : Filled c c' g parts) (cell : Cell) :
    Filled c (c'.withCell i cell) g parts :=
  ⟨h.quiet.withCell i cell, h.rules, h.graph, h.roster⟩

theorem Filled.of_calls {g : Graph} {parts : List NodeId} (h : Calls (c.withGraph g) c' parts) :
    Filled c c' g parts :=
  ⟨h.quiet, h.rules, h.graph, h.roster⟩

/-- The parts of a mapping of the modern dialect, those that were merged twice. -/
theorem parts_of_modern {g : Graph} (orderly : g.Orderly) (r : Roster) (i : NodeId) :
    r.enlistAll g.collects (entryParts ((g.node i).merged.getD [] ++ g.entries i)) =
      r.enlistAll g.collects (entryParts (g.entries i)) := by
  cases hmerged : (g.node i).merged with
  | none => rfl
  | some merged =>
    obtain ⟨own, hown⟩ := (orderly.fronted i merged hmerged).1
    rw [Option.getD_some, ← hown, entryParts_append, entryParts_append]
    exact Roster.enlistAll_twice r _ _

theorem texts_of_modern {g : Graph} (orderly : g.Orderly) (texts : g.Texts (g.entries i)) :
    g.Texts ((g.node i).merged.getD [] ++ g.entries i) := by
  cases hmerged : (g.node i).merged with
  | none => exact texts
  | some merged => exact (orderly.fronted i merged hmerged).2.append texts

/-- Filling a mapping replaces its merge keys and calls on the parts of its entries, in either
dialect. -/
theorem filled_mapping {es : List (Value × Value)} (quiet : c.Quiet) (orderly : c.graph.Orderly)
    (allowed : c.rules.duplicates = .allowed)
    (run : (mapping (make (n + 1)) i).run c = .ok (es, c')) :
    ∃ g, (Merging.replace c.rules i).run c.graph = .ok ((), g) ∧
      Filled c c' g (entryParts (g.entries i)) := by
  have hkind := kind_of_mapping_ok run
  cases hdialect : c.rules.dialect with
  | classic =>
    rw [run_mapping_classic hdialect allowed hkind] at run
    obtain ⟨g, hreplace, run⟩ := run_classicMapping_ok run
    have hquiet := quiet.withGraph (Merging.replace_passed orderly hkind hreplace).absorbs
    exact ⟨g, hreplace, .of_calls (calls_classicEntries hquiet run)⟩
  | modern =>
    rw [run_mapping_modern hdialect hkind] at run
    obtain ⟨g, hreplace, run⟩ := run_modernMapping_ok run
    have hpassed := Merging.replace_passed orderly hkind hreplace
    have hquiet := quiet.withGraph hpassed.absorbs
    have hcalls : Calls (c.withGraph g) c'
        (entryParts ((g.node i).merged.getD [] ++ g.entries i)) :=
      calls_modernEntries hquiet (texts_of_modern hpassed.orderly hpassed.texts) run
    refine ⟨g, hreplace, { Filled.of_calls hcalls with roster := ?_ }⟩
    rw [(Filled.of_calls hcalls).roster, parts_of_modern hpassed.orderly]

/-- Filling any other collection calls on its items, or on the parts of their entries. -/
theorem filled_ways (quiet : c.Quiet) (orderly : c.graph.Orderly)
    (allowed : c.rules.duplicates = .allowed) (run : (fill (make (n + 1)) i).run c = .ok ((), c')) :
    ((c.graph.node i).content.kind = .mapping ∧
      ∃ g, (Merging.replace c.rules i).run c.graph = .ok ((), g) ∧
        Filled c c' g (entryParts (g.entries i))) ∨
    ∃ items, (c.graph.node i).content = .sequence items ∧
      Filled c c' c.graph (c.graph.itemParts i items) := by
  rcases fill_ways run with
    ⟨htag, vs, c₁, hsequence, rfl⟩ | ⟨es, c₁, cell, hmapping, rfl⟩ | ⟨htag, hpairs⟩
  · refine .inr ?_
    have hkind := kind_of_sequence_ok hsequence
    unfold sequence at hsequence
    rw [run_bind_of_ok (run_node i c)] at hsequence
    cases hcontent : (c.graph.node i).content with
    | scalar text =>
      rw [hcontent] at hkind
      cases hkind
    | mapping es =>
      rw [hcontent] at hkind
      cases hkind
    | sequence items =>
      rw [hcontent] at hsequence
      have hcalls := calls_items quiet hsequence
      refine ⟨items, rfl, Filled.withCell ⟨hcalls.quiet, hcalls.rules, hcalls.graph, ?_⟩ _⟩
      unfold Graph.itemParts
      simp only [htag, beq_self_eq_true, if_true]
      exact hcalls.roster
  · obtain ⟨g, hreplace, hfilled⟩ := filled_mapping quiet orderly allowed hmapping
    exact .inl ⟨kind_of_mapping_ok hmapping, g, hreplace, hfilled.withCell cell⟩
  · refine .inr ?_
    have paired : ∀ items, (c.graph.node i).content = .sequence items →
        Calls c c' (items.flatMap fun j => entryParts (c.graph.entries j)) →
        ∃ items, (c.graph.node i).content = .sequence items ∧
          Filled c c' c.graph (c.graph.itemParts i items) := by
      intro items hcontent hcalls
      refine ⟨items, hcontent, hcalls.quiet, hcalls.rules, hcalls.graph, ?_⟩
      unfold Graph.itemParts
      rw [if_neg (by simpa using htag)]
      exact hcalls.roster
    rcases hpairs with ⟨context, hpairs⟩ | ⟨-, hpairs⟩
    · unfold fillPairs at hpairs
      obtain ⟨⟨around, items⟩, c₀, hitems, hpairs⟩ := run_bind_ok hpairs
      obtain ⟨-, hcontent, hsame⟩ := pairItems_ok hitems
      rw [hsame] at hpairs
      exact paired items hcontent (calls_pairs quiet hpairs)
    · unfold fillOrderedMap at hpairs
      obtain ⟨⟨around, items⟩, c₀, hitems, hpairs⟩ := run_bind_ok hpairs
      obtain ⟨-, hcontent, hsame⟩ := pairItems_ok hitems
      rw [hsame] at hpairs
      exact paired items hcontent (calls_orderedPairs quiet hpairs)

end Build

end YamlCheck.Yaml
