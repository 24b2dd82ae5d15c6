import YamlCheck.Proofs.Yaml.Documents
import YamlCheck.Proofs.Yaml.Mirrored
import Mathlib.Data.List.Forall2

/-!
# Documents as events

A document is composed from its events alone; the dialect only comes in where the tag of a plain
scalar is found from its text.  So if two documents are composed from events of the same kinds, and
their keys are texts and merge keys, then they are two readings of one document.
-/

namespace YamlCheck.Yaml

open YamlCheck.Text

/-- Whether a graph is what the events of a document are composed to. -/
def Graph.ComposedOf (limits : Limits) (g : Graph) (es : List (Schema × Event)) : Prop :=
  ∃ c, Composition.steps limits {} es = .ok c ∧ c.complete = true ∧ c.graph = g

theorem Graph.composedOf_iff {limits : Limits} {g : Graph} {es : List (Schema × Event)} :
    g.ComposedOf limits es ↔ (Composition.steps limits {} es).toOption.map
      (fun c => (c.complete, c.graph)) = some (true, g) := by
  unfold Graph.ComposedOf
  cases Composition.steps limits {} es with
  | error e => simp [Except.toOption]
  | ok c => simp [Except.toOption]

instance (limits : Limits) (g : Graph) (es : List (Schema × Event)) :
    Decidable (g.ComposedOf limits es) :=
  decidable_of_iff _ Graph.composedOf_iff.symm

/-- What events are, apart from their places and from the patterns that apply to them. -/
def eventKinds (es : List (Schema × Event)) : List EventKind := es.map fun e => e.2.kind

/-! ## Side by side -/

/-- Two nodes that differ in their places, and in their tags only if both tags were found from one
text. -/
structure Node.Counterparts (n n' : Node) : Prop where
  content : n'.content = n.content
  merged : n.merged = none
  merged' : n'.merged = none
  tag : n'.tag = n.tag ∨ ∃ (schema schema' : Schema) (text : Letters),
    n.tag = schema.resolve text ∧ n'.tag = schema'.resolve text

namespace Composition

/-- Two compositions that have come equally far. -/
structure Matches (c c' : Composition) : Prop where
  size : c'.graph.nodes.size = c.graph.nodes.size
  root : c'.graph.root = c.graph.root
  nodes : ∀ i, (c.graph.node i).Counterparts (c'.graph.node i)
  anchors : c'.anchors = c.anchors
  stack : c'.stack = c.stack
  complete : c'.complete = c.complete

variable {limits limits' : Limits} {c c' c₁ c₁' : Composition} {i : NodeId} {n n' : Node}
  {schema schema' : Schema} {e e' : Event}

theorem counterparts_absent : Node.absent.Counterparts Node.absent := ⟨rfl, rfl, rfl, .inl rfl⟩

theorem matches_start : Matches {} {} :=
  ⟨rfl, rfl, fun _ => counterparts_absent, rfl, rfl, rfl⟩

theorem node_add (g : Graph) (n : Node) (j : NodeId) :
    (g.add n).1.node j = if j = g.nodes.size then n else g.node j := by
  unfold Graph.add Graph.node
  simp only [Array.getD_eq_getD_getElem?, Array.getElem?_push]
  split
  · rfl
  · rfl

theorem Matches.attach (h : Matches c c') (i : NodeId) : Matches (c.attach i) (c'.attach i) := by
  unfold Composition.attach
  cases hstack : c.stack with
  | nil =>
    have hstack' : c'.stack = [] := h.stack.trans hstack
    simp only [hstack']
    exact ⟨h.size, rfl, h.nodes, h.anchors, rfl, rfl⟩
  | cons top rest =>
    have hstack' : c'.stack = top :: rest := h.stack.trans hstack
    simp only [hstack']
    exact ⟨h.size, h.root, h.nodes, h.anchors, rfl, h.complete⟩

theorem Matches.add (h : Matches c c') (anchor : Option String) (nodes : n.Counterparts n') :
    Matches (c.add anchor n).1 (c'.add anchor n').1 ∧
      (c'.add anchor n').2 = (c.add anchor n).2 := by
  have hsize : c'.graph.nodes.size = c.graph.nodes.size := h.size
  refine ⟨⟨?_, h.root, fun j => ?_, ?_, h.stack, h.complete⟩, hsize⟩
  · show (c'.graph.nodes.push n').size = (c.graph.nodes.push n).size
    rw [Array.size_push, Array.size_push, hsize]
  · show ((c.graph.add n).1.node j).Counterparts ((c'.graph.add n').1.node j)
    rw [node_add, node_add, hsize]
    split
    · exact nodes
    · exact h.nodes j
  · cases anchor with
    | none => exact h.anchors
    | some a =>
      show (a, c'.graph.nodes.size) :: c'.anchors = (a, c.graph.nodes.size) :: c.anchors
      rw [hsize, h.anchors]

theorem Matches.openNode (h : Matches c c') (p : Properties) (kind : NodeKind) (tag : String)
    (m m' : Mark) : Matches (c.openNode p kind tag m) (c'.openNode p kind tag m') := by
  have opened : ∀ content, Matches
      { (c.add p.anchor ⟨p.tag.getD tag, content, m, none⟩).1 with
        stack := ⟨(c.add p.anchor ⟨p.tag.getD tag, content, m, none⟩).2, kind, [], [], none⟩ ::
          (c.add p.anchor ⟨p.tag.getD tag, content, m, none⟩).1.stack }
      { (c'.add p.anchor ⟨p.tag.getD tag, content, m', none⟩).1 with
        stack := ⟨(c'.add p.anchor ⟨p.tag.getD tag, content, m', none⟩).2, kind, [], [], none⟩ ::
          (c'.add p.anchor ⟨p.tag.getD tag, content, m', none⟩).1.stack } := by
    intro content
    have hnodes : Node.Counterparts ⟨p.tag.getD tag, content, m, none⟩
        ⟨p.tag.getD tag, content, m', none⟩ := ⟨rfl, rfl, rfl, .inl rfl⟩
    obtain ⟨hadd, hid⟩ := h.add p.anchor hnodes
    refine ⟨hadd.size, hadd.root, hadd.nodes, hadd.anchors, ?_, hadd.complete⟩
    rw [hid]
    exact congrArg (_ :: ·) hadd.stack
  cases kind with
  | mapping => exact opened (.mapping [])
  | sequence => exact opened (.sequence [])
  | scalar => exact opened (.sequence [])

theorem node_setIfInBounds (g : Graph) (i j : NodeId) (n : Node) :
    (Graph.mk (g.nodes.setIfInBounds i n) g.root).node j =
      if i = j ∧ i < g.nodes.size then n else g.node j := by
  unfold Graph.node
  simp only [Array.getD_eq_getD_getElem?, Array.getElem?_setIfInBounds]
  by_cases hij : i = j
  · subst hij
    by_cases hi : i < g.nodes.size <;> simp [hi]
  · simp [hij]

theorem Matches.closeNode (h : Matches c c') : Matches c.closeNode c'.closeNode := by
  unfold Composition.closeNode
  rw [h.stack]
  cases hstack : c.stack with
  | nil => exact h
  | cons top rest =>
    apply Matches.attach
    refine ⟨?_, h.root, fun j => ?_, h.anchors, rfl, h.complete⟩
    · simp [h.size]
    · have hclosed : Node.Counterparts { c.graph.node top.id with content := top.content }
          { c'.graph.node top.id with content := top.content } :=
        { h.nodes top.id with content := rfl }
      rw [node_setIfInBounds, node_setIfInBounds, h.size]
      split
      · exact hclosed
      · exact h.nodes j

/-- The nodes of a scalar in both compositions. -/
theorem counterparts_scalar (schema schema' : Schema) (p : Properties) (plain : Bool)
    (text : Letters) (m m' : Mark) :
    Node.Counterparts
      ⟨p.tag.getD (if plain then schema.resolve text else Tag.str), .scalar text, m, none⟩
      ⟨p.tag.getD (if plain then schema'.resolve text else Tag.str), .scalar text, m', none⟩ := by
  refine ⟨rfl, rfl, rfl, ?_⟩
  cases p.tag with
  | some tag => exact .inl rfl
  | none =>
    cases plain with
    | false => exact .inl rfl
    | true => exact .inr ⟨schema, schema', text, rfl, rfl⟩

theorem eq_openNode_of_enter {p : Properties} {kind : NodeKind} {tag : String} {m : Mark}
    (run : c.enter limits schema p kind tag m = .ok c₁) : c₁ = c.openNode p kind tag m := by
  unfold enter at run
  split at run
  · cases run
  · split at run
    · cases run
    · exact (Except.ok.inj run).symm

/-- Events of the same kind take compositions equally far. -/
theorem Matches.step (h : Matches c c') (kind : e'.kind = e.kind)
    (run : c.step limits schema e = .ok c₁) (run' : c'.step limits' schema' e' = .ok c₁') :
    Matches c₁ c₁' := by
  unfold Composition.step at run run'
  rw [kind] at run'
  cases hkind : e.kind with
  | aliasTo name =>
    simp only [hkind] at run run'
    rw [h.anchors] at run'
    cases hfound : c.anchors.lookup name with
    | none =>
      rw [hfound] at run
      cases run
    | some i =>
      rw [hfound] at run run'
      cases run
      cases run'
      exact h.attach i
  | scalar p plain text =>
    simp only [hkind] at run run'
    split at run
    · cases run
    split at run'
    · cases run'
    cases run
    cases run'
    obtain ⟨hadd, hid⟩ := h.add p.anchor
      (counterparts_scalar schema schema' p plain text e.mark e'.mark)
    show Matches (Composition.attach _ _) (Composition.attach _ _)
    rw [hid]
    exact hadd.attach _
  | sequenceStart p =>
    simp only [hkind] at run run'
    rw [eq_openNode_of_enter run, eq_openNode_of_enter run']
    exact h.openNode p .sequence Tag.seq e.mark e'.mark
  | mappingStart p =>
    simp only [hkind] at run run'
    rw [eq_openNode_of_enter run, eq_openNode_of_enter run']
    exact h.openNode p .mapping Tag.map e.mark e'.mark
  | sequenceEnd =>
    simp only [hkind] at run run'
    cases run
    cases run'
    exact h.closeNode
  | mappingEnd =>
    simp only [hkind] at run run'
    cases run
    cases run'
    exact h.closeNode
  | _ =>
    rw [hkind] at run
    cases run

theorem steps_cons_ok {e : Schema × Event} {es : List (Schema × Event)}
    (run : c.steps limits (e :: es) = .ok c₁) :
    ∃ c₂, c.step limits e.1 e.2 = .ok c₂ ∧ c₂.steps limits es = .ok c₁ := by
  unfold steps at run
  rw [List.foldlM_cons] at run
  cases hstep : c.step limits e.1 e.2 with
  | error err =>
    rw [hstep] at run
    cases run
  | ok c₂ =>
    rw [hstep] at run
    exact ⟨c₂, rfl, run⟩

theorem Matches.steps (h : Matches c c') {es es' : List (Schema × Event)}
    (kinds : eventKinds es' = eventKinds es) (run : c.steps limits es = .ok c₁)
    (run' : c'.steps limits' es' = .ok c₁') : Matches c₁ c₁' := by
  induction es generalizing c c' es' with
  | nil =>
    cases es' with
    | nil =>
      cases run
      cases run'
      exact h
    | cons e' es' => cases kinds
  | cons e es ih =>
    cases es' with
    | nil => cases kinds
    | cons e' es' =>
      obtain ⟨hkind, hkinds⟩ := List.cons.inj kinds
      obtain ⟨c₂, hstep, hrest⟩ := steps_cons_ok run
      obtain ⟨c₂', hstep', hrest'⟩ := steps_cons_ok run'
      exact ih (h.step hkind hstep hstep') hkinds hrest hrest'

end Composition

/-! ## Two readings -/

/-- A plain scalar is a merge key by its text alone, and it is a collection in no case. -/
theorem resolve_cases (schema : Schema) (text : Letters) :
    (schema.resolve text = Tag.merge ∧ String.ofList (dropLastBreak text.faces) = "<<") ∨
      schema.resolve text ∈ [Tag.null, Tag.bool, Tag.float, Tag.int, Tag.timestamp, Tag.value,
        Tag.yaml, Tag.str] := by
  unfold Schema.resolve
  by_cases hmerge : String.ofList (dropLastBreak text.faces) = "<<"
  · simp only [hmerge, beq_self_eq_true, if_true]
    repeat' split
    all_goals simp
  · have hno : (String.ofList (dropLastBreak text.faces) == "<<") = false := by simpa using hmerge
    simp only [hno]
    repeat' split
    all_goals simp_all

theorem resolve_of_merge (schema : Schema) {text : Letters}
    (merge : String.ofList (dropLastBreak text.faces) = "<<") :
    schema.resolve text = Tag.merge := by
  have hlist : dropLastBreak text.faces = ['<', '<'] := by
    have htwo : String.ofList (dropLastBreak text.faces) = String.ofList ['<', '<'] := merge
    exact String.ofList_injective htwo
  have hsome : text.isEmpty = false := by
    by_contra hempty
    have htext : text.list = [] := by simpa [Letters.isEmpty] using hempty
    rw [Letters.faces, htext] at hlist
    cases hlist
  unfold Schema.resolve
  simp only [hsome, hlist]
  cases schema <;> decide +kernel

theorem emptyCell?_resolve (schema : Schema) (text : Letters) :
    Build.emptyCell? .classic (schema.resolve text) = none := by
  rcases resolve_cases schema text with ⟨hmerge, -⟩ | hmem
  · rw [hmerge]
    rfl
  · revert hmem
    generalize schema.resolve text = tag
    revert tag
    decide

/-- The tag of a key that is found from its text is the same under all patterns, if it is that of a
text or a merge key. -/
theorem resolve_eq_of_key {schema schema' : Schema} {text : Letters}
    (key : schema.resolve text = Tag.str ∨ schema.resolve text = Tag.merge)
    (key' : schema'.resolve text = Tag.str ∨ schema'.resolve text = Tag.merge) :
    schema'.resolve text = schema.resolve text := by
  by_cases hmerge : String.ofList (dropLastBreak text.faces) = "<<"
  · rw [resolve_of_merge schema hmerge, resolve_of_merge schema' hmerge]
  · have plain : ∀ k : Schema, k.resolve text = Tag.str ∨ k.resolve text = Tag.merge →
        k.resolve text = Tag.str := by
      intro k hkey
      rcases resolve_cases k text with ⟨-, htext⟩ | hmem
      · exact (hmerge htext).elim
      · refine hkey.resolve_right fun htag => ?_
        rw [htag] at hmem
        revert hmem
        decide
    rw [plain schema key, plain schema' key']

namespace Graph

variable {limits limits' : Limits} {g g' : Graph} {es es' : List (Schema × Event)}

/-- Nothing is merged yet in a document that is composed. -/
theorem ComposedOf.unmerged (composed : g.ComposedOf limits es) : g.Unmerged := by
  obtain ⟨c, hsteps, -, rfl⟩ := composed
  have hmatches := Composition.matches_start.steps rfl hsteps hsteps
  exact fun i _ => (hmatches.nodes i).merged

/-- Documents whose events are of the same kinds are readings of one document. -/
theorem ComposedOf.alike (composed : g.ComposedOf limits es) (composed' : g'.ComposedOf limits' es')
    (kinds : eventKinds es' = eventKinds es) (keys : g.TextKeys) (keys' : g'.TextKeys) :
    g.Alike g' := by
  obtain ⟨c, hsteps, -, rfl⟩ := composed
  obtain ⟨c', hsteps', -, rfl⟩ := composed'
  have hmatches := Composition.matches_start.steps kinds hsteps hsteps'
  refine ⟨hmatches.size, hmatches.root, fun i => (hmatches.nodes i).content, fun i => ?_,
    fun i => ?_, fun i e he => ?_⟩
  · rw [(hmatches.nodes i).merged, (hmatches.nodes i).merged']
  · rcases (hmatches.nodes i).tag with hsame | ⟨schema, schema', text, htag, htag'⟩
    · exact .inl hsame
    · refine .inr ⟨?_, ?_⟩
      · unfold collects
        rw [htag, emptyCell?_resolve]
        rfl
      · unfold collects
        rw [htag', emptyCell?_resolve]
        rfl
  · rcases (hmatches.nodes e.key).tag with hsame | ⟨schema, schema', text, htag, htag'⟩
    · exact hsame
    · have he' : e ∈ c'.graph.entries i := by
        unfold entries
        rw [(hmatches.nodes i).content]
        exact he
      have hkey := (keys.key he).2
      have hkey' := (keys'.key he').2
      rw [htag] at hkey ⊢
      rw [htag'] at hkey' ⊢
      exact resolve_eq_of_key hkey hkey'

end Graph

/-! ## What is read -/

namespace Parse

/-- Composes a document and keeps its events, each with the patterns that apply to it. -/
def composeEvents (limits : Limits) :
    Nat → Composition → Parse (Graph × List (Schema × Event))
  | 0, _ => throw .stalled
  | fuel + 1, c => do
    let e ← event
    let s ← schema
    match c.step limits s e with
    | .error err => throw err
    | .ok c =>
      if c.complete then return (c.graph, [(s, e)])
      else
        let (g, es) ← composeEvents limits fuel c
        return (g, (s, e) :: es)

/-- The graph of the next document with its events, unless the stream ends. -/
def documentEvents? (limits : Limits) : Parse (Option (Graph × List (Schema × Event))) := do
  match ← documentStart? with
  | none => return none
  | some _ =>
    let composed ← composeEvents limits (← eventFuel) {}
    let _ ← event
    return some composed

end Parse

/-- The events of the documents that a parser reads; `fuel` bounds their number. -/
def eventsFrom (limits : Limits) : Nat → Parser → List (List (Schema × Event))
  | 0, _ => []
  | fuel + 1, p =>
    match (Parse.documentEvents? limits).run p with
    | .ok (some (_, es), p) => es :: eventsFrom limits fuel p
    | _ => []

/-- The events of the documents of a stream. -/
def readEvents (limits : Limits) (d : Dialect) (bytes : List UInt8) :
    List (List (Schema × Event)) :=
  let s := Source.ofBytes bytes
  eventsFrom limits (s.chars.length + 2) (Parser.start d s)

section Read

open Parse

variable {limits : Limits}

theorem compose_eq (limits : Limits) (fuel : Nat) (c : Composition) :
    compose limits fuel c = Prod.fst <$> composeEvents limits fuel c := by
  induction fuel generalizing c with
  | zero => rfl
  | succ fuel ih =>
    unfold compose composeEvents
    rw [map_bind]
    refine bind_congr fun e => ?_
    rw [map_bind]
    refine bind_congr fun s => ?_
    cases c.step limits s e with
    | error err => rfl
    | ok c₁ =>
      dsimp only
      split
      · rfl
      · rw [map_bind, ih, ← bind_pure_comp]
        rfl

theorem document?_eq (limits : Limits) :
    document? limits = Option.map Prod.fst <$> documentEvents? limits := by
  unfold document? documentEvents? documentRest
  rw [map_bind]
  refine bind_congr fun start => ?_
  cases start with
  | none => rfl
  | some e => simp only [compose_eq, map_bind, bind_assoc, bind_map_left, map_pure, pure_bind,
      Option.map_some]

/-- A document that is composed while it is parsed is composed of its events. -/
theorem composed_of_compose {fuel : Nat} {c : Composition} {p p' : Parser} {g : Graph}
    {es : List (Schema × Event)} (run : (composeEvents limits fuel c).run p = .ok ((g, es), p')) :
    ∃ c', c.steps limits es = .ok c' ∧ c'.complete = true ∧ c'.graph = g := by
  induction fuel generalizing c p es with
  | zero => cases run
  | succ fuel ih =>
    unfold composeEvents at run
    obtain ⟨e, p₁, -, run⟩ := run_bind_ok run
    obtain ⟨schema, p₂, -, run⟩ := run_bind_ok run
    cases hstep : c.step limits schema e with
    | error err =>
      rw [hstep] at run
      cases run
    | ok c₁ =>
      simp only [hstep] at run
      have later : ∀ es c', c₁.steps limits es = .ok c' →
          c.steps limits ((schema, e) :: es) = .ok c' := by
        intro es c' h
        unfold Composition.steps
        rw [List.foldlM_cons]
        simp only [hstep]
        exact h
      cases hcomplete : c₁.complete with
      | true =>
        simp only [hcomplete, if_true] at run
        cases run
        exact ⟨c₁, later [] c₁ rfl, hcomplete, rfl⟩
      | false =>
        simp only [hcomplete] at run
        rw [if_neg (by simp)] at run
        obtain ⟨⟨g', es'⟩, p₃, hrest, run⟩ := run_bind_ok run
        cases run
        obtain ⟨c', hsteps, hdone, hgraph⟩ := ih hrest
        exact ⟨c', later es' c' hsteps, hdone, hgraph⟩

theorem composed_of_documentEvents? {p p' : Parser} {g : Graph} {es : List (Schema × Event)}
    (run : (documentEvents? limits).run p = .ok (some (g, es), p')) : g.ComposedOf limits es := by
  unfold documentEvents? at run
  obtain ⟨start, p₁, -, run⟩ := run_bind_ok run
  cases start with
  | none => cases run
  | some e =>
    obtain ⟨fuel, p₂, -, run⟩ := run_bind_ok run
    obtain ⟨composed, p₃, hcompose, run⟩ := run_bind_ok run
    obtain ⟨e', p₄, -, run⟩ := run_bind_ok run
    cases run
    exact composed_of_compose hcompose

/-- The documents of a stream are composed of its events, one by one. -/
theorem composed_of_read (limits : Limits) (d : Dialect) (bytes : List UInt8) :
    List.Forall₂ (fun t es => t.graph.ComposedOf limits es) (read limits d bytes).drafts
      (readEvents limits d bytes) := by
  have each : ∀ fuel p, List.Forall₂ (fun t es => t.graph.ComposedOf limits es)
      (readFrom limits fuel p).drafts (eventsFrom limits fuel p) := by
    intro fuel
    induction fuel with
    | zero => exact fun _ => .nil
    | succ fuel ih =>
      intro p
      have hsame : (document? limits).run p =
          ((documentEvents? limits).run p).map fun v => (v.1.map Prod.fst, v.2) := by
        rw [document?_eq]
        rfl
      unfold readFrom eventsFrom
      rw [hsame]
      cases hrun : (documentEvents? limits).run p with
      | error e => exact .nil
      | ok next =>
        obtain ⟨composed, p'⟩ := next
        cases composed with
        | none => exact .nil
        | some composed => exact .cons (composed_of_documentEvents? hrun) (ih p')
  exact each _ _

end Read

end YamlCheck.Yaml
