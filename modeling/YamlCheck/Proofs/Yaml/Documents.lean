import YamlCheck.Proofs.Yaml.Nested
import YamlCheck.Proofs.Yaml.Stream

/-!
# Documents come to their end

The composition of a document has as many open collections as its parser, so that it is complete
just when the parser has come back to the end of the document.  The events before that are paid
for, and each document costs a marker or the one document that needs none: a stream is read to its
end, to an error of its readers or to a collection that lies in too many others, and never runs out
of steps.
-/

namespace YamlCheck.Yaml

open Phase

/-! ## Composition -/

namespace Composition

variable {c c' : Composition} {e : Event} {n : Nat}

/-- What an event that fits leaves of a composition whose root is not complete. -/
structure Follows (n : Nat) (c : Composition) : Prop where
  length : c.stack.length = n
  complete : c.complete = true ↔ n = 0

theorem follows_attach (incomplete : c.complete = false) (i : NodeId) :
    (c.attach i).Follows c.stack.length := by
  unfold attach
  cases hstack : c.stack with
  | nil => exact ⟨rfl, by simp⟩
  | cons top rest => exact ⟨rfl, by simp [incomplete]⟩

theorem follows_closeNode (incomplete : c.complete = false) (h : c.stack.length = n + 1) :
    c.closeNode.Follows n := by
  unfold closeNode
  cases hstack : c.stack with
  | nil => simp [hstack] at h
  | cons top rest =>
    rw [hstack] at h
    cases h
    exact follows_attach (c := { c with stack := rest, graph := _ }) incomplete top.id

theorem follows_openNode (incomplete : c.complete = false) (p : Properties) (kind : NodeKind)
    (tag : String) (m : Mark) : (c.openNode p kind tag m).Follows (c.stack.length + 1) :=
  ⟨rfl, by simp [openNode, add, incomplete]⟩

theorem repeatedAnchor?_eq_complaint {schema : Schema} {anchor : Option String} {m : Mark}
    {err : LoadError} (h : c.repeatedAnchor? schema anchor m = some err) :
    ∃ x, err = .complaint .composing x := by
  unfold repeatedAnchor? at h
  split at h
  · obtain ⟨i, -, rfl⟩ := Option.map_eq_some_iff.mp h
    exact ⟨_, rfl⟩
  · cases h

/-- What becomes of an event that shifts the number of open collections to `n`. -/
inductive Shifted (limits : Limits) (c : Composition) (n : Nat) :
    Except LoadError Composition → Prop
  | complaint (x : Complaint) : Shifted limits c n (.error (.complaint .composing x))
  | tooDeep (opens : n = c.stack.length + 1) (full : limits.nesting ≤ c.stack.length) :
      Shifted limits c n (.error (.breakdown (.tooDeep .composing)))
  | composed {c' : Composition} (follows : c'.Follows n) : Shifted limits c n (.ok c')

theorem shifted_enter (limits : Limits) (schema : Schema) (incomplete : c.complete = false)
    (p : Properties) (kind : NodeKind) (tag : String) (m : Mark) :
    Shifted limits c (c.stack.length + 1) (c.enter limits schema p kind tag m) := by
  unfold enter
  split
  · rename_i hfull
    exact .tooDeep rfl hfull
  · cases hrepeated : c.repeatedAnchor? schema p.anchor m with
    | some err =>
      obtain ⟨x, rfl⟩ := repeatedAnchor?_eq_complaint hrepeated
      exact .complaint x
    | none => exact .composed (follows_openNode incomplete p kind tag m)

/-- An event that shifts the number of open collections is composed alike, unless it is an alias of
no node, repeats an anchor or opens too many collections. -/
theorem step_shifts (limits : Limits) (schema : Schema) (incomplete : c.complete = false)
    (shifts : e.kind.Shifts c.stack.length n) : Shifted limits c n (c.step limits schema e) := by
  unfold step
  cases hkind : e.kind with
  | aliasTo name =>
    rw [hkind] at shifts
    cases shifts
    dsimp only
    cases hfound : c.anchors.lookup name with
    | none => exact .complaint _
    | some i => exact .composed (follows_attach incomplete i)
  | scalar p plain text =>
    rw [hkind] at shifts
    cases shifts
    dsimp only
    cases hrepeated : c.repeatedAnchor? schema p.anchor e.mark with
    | some err =>
      obtain ⟨x, rfl⟩ := repeatedAnchor?_eq_complaint hrepeated
      exact .complaint x
    | none => exact .composed (follows_attach (c := (c.add _ _).1) incomplete _)
  | sequenceStart p =>
    rw [hkind] at shifts
    cases shifts
    exact shifted_enter limits schema incomplete p .sequence Tag.seq e.mark
  | mappingStart p =>
    rw [hkind] at shifts
    cases shifts
    exact shifted_enter limits schema incomplete p .mapping Tag.map e.mark
  | sequenceEnd =>
    rw [hkind] at shifts
    exact .composed (follows_closeNode incomplete shifts)
  | mappingEnd =>
    rw [hkind] at shifts
    exact .composed (follows_closeNode incomplete shifts)
  | _ =>
    rw [hkind] at shifts
    cases shifts

/-- The composition that events lead to, each event with the patterns that apply to it. -/
def steps (limits : Limits) (c : Composition) (es : List (Schema × Event)) :
    Except LoadError Composition :=
  es.foldlM (fun c e => c.step limits e.1 e.2) c

theorem steps_concat {limits : Limits} {es : List (Schema × Event)} {schema : Schema}
    {c₀ c c' : Composition} (before : c₀.steps limits es = .ok c)
    (last : c.step limits schema e = .ok c') :
    c₀.steps limits (es ++ [(schema, e)]) = .ok c' := by
  have hbefore : es.foldlM (fun c e => c.step limits e.1 e.2) c₀ = .ok c := before
  unfold steps
  rw [List.foldlM_append, hbefore]
  simp only [List.foldlM_cons, List.foldlM_nil, bind_pure]
  exact last

end Composition

/-- A parser at the end of a document. -/
structure Parser.Ends (d : Dialect) (src : Source) (p : Parser) : Prop where
  ready : p.reader.Ready d src
  phase : p.phase = .documentEnd
  outer : p.outer = []

theorem Parser.Stands.ends {d : Dialect} {src : Source} {p : Parser} (stands : p.Stands)
    (ready : p.reader.Ready d src) (h : p.depth = 0) : p.Ends d src := by
  unfold depth at h
  cases stands with
  | opened enters nested shows more =>
    have hpos := depth_pos_of_enters enters
    rw [depths_cons] at h
    omega
  | back nested =>
    generalize hphases : p.phase :: p.outer = phases at nested h
    cases nested with
    | document =>
      obtain ⟨hphase, houter⟩ := List.cons.inj hphases
      exact ⟨ready, hphase, houter⟩
    | collection goesOn nested =>
      have hpos := depth_pos_of_goesOn goesOn
      rw [depths_cons] at h
      omega

/-! ## Where a composition overflows -/

/-- Events that a parser gives one after the other, each with the patterns that apply to it, and the
parser that is left behind them. -/
inductive Parser.Gives (p : Parser) : List (Schema × Event) → Parser → Prop
  | nil : Gives p [] p
  | concat {es : List (Schema × Event)} {e : Event} {q q' : Parser} (before : Gives p es q)
      (run : Parse.event.run q = .ok (e, q')) : Gives p (es ++ [(q'.reader.schema, e)]) q'

/-- Whether the next document of a parser has as many open collections as there may be at some place
where another one begins. -/
def Parser.Overfull (limits : Limits) (front : Parser) : Prop :=
  ∃ start p es c q e q', Parse.documentStart?.run front = .ok (some start, p) ∧ p.Gives es q ∧
    Composition.steps limits {} es = .ok c ∧ Parse.event.run q = .ok (e, q') ∧
    e.kind.Shifts c.stack.length (c.stack.length + 1) ∧ limits.nesting ≤ c.stack.length

/-- What a reader of the next document of a parser raises that is no complaint. -/
def ReadFailure (limits : Limits) (d : Dialect) (src : Source) (front : Parser) (e : LoadError) :
    Prop :=
  ParseFailure d src e ∨ (e = .breakdown (.tooDeep .composing) ∧ front.Overfull limits)

/-- A parser's computation that fails as its reader does, at a version, or at a collection of the
next document of `front`. -/
abbrev Composes (limits : Limits) (d : Dialect) (src : Source) (front : Parser) {α : Type}
    (m : Parse α) (p : Parser) (Q : α → Parser → Prop) : Prop :=
  Leads (LoadError.Among (ReadFailure limits d src front)) m p Q

theorem Parses.composes {limits : Limits} {d : Dialect} {src : Source} {front p : Parser}
    {α : Type} {m : Parse α} {Q : α → Parser → Prop} (h : Parses d src m p Q) :
    Composes limits d src front m p Q :=
  ⟨h.ends, fun hrun => (h.raises hrun).mono fun _ => .inl⟩

/-- How far the composition of the next document of a parser has come. -/
structure Parser.Reached (limits : Limits) (front : Parser) (c : Composition) (p : Parser) :
    Prop where
  gives : ∃ start first es, Parse.documentStart?.run front = .ok (some start, first) ∧
    first.Gives es p ∧ Composition.steps limits {} es = .ok c
  incomplete : c.complete = false

theorem Parser.Due.supply_lt {n : Nat} {p : Parser} (due : p.Due n) : 4 * p.reader.supply < n := by
  unfold Due at due
  rcases due with due | ⟨-, -, due⟩ <;> omega

/-- A parser in front of a document of its source, or in front of all of them. -/
def Parser.Waits (d : Dialect) (src : Source) (p : Parser) : Prop :=
  p = Parser.start d src ∨ p.Between d src

namespace Parse

variable {limits : Limits} {d : Dialect} {src : Source} {front p : Parser} {n : Nat}

/-! ## One document -/

/-- An event is composed; it completes the root just at the end of the document. -/
theorem composes_event {c : Composition} {fuel : Nat} {Q : Graph → Parser → Prop}
    (reached : front.Reached limits c p)
    (gives : Parses d src event p fun e p' => p'.Moved d src n c.stack.length e.kind)
    (ends : ∀ g p', p'.Ends d src → 4 * p'.reader.supply < n → Q g p')
    (next : ∀ c' p', front.Reached limits c' p' → p'.reader.Ready d src → p'.Stands → p'.Due n →
      p'.depth = c'.stack.length → p'.depth ≠ 0 →
      Composes limits d src front (compose limits fuel c') p' Q) :
    Composes limits d src front (compose limits (fuel + 1) c) p Q := by
  obtain ⟨start, first, es, hfront, hgives, hsteps⟩ := reached.gives
  have hevent : Parses d src event p fun e p' =>
      p'.Moved d src n c.stack.length e.kind ∧ event.run p = .ok (e, p') :=
    ⟨fun hrun => ⟨gives.ends hrun, hrun⟩, gives.raises⟩
  have hschema : ∀ {p' : Parser} {f : Schema → Parse Graph},
      Composes limits d src front (f p'.reader.schema) p' Q →
      Composes limits d src front (schema >>= f) p' Q := fun h => ⟨h.ends, h.raises⟩
  unfold compose
  refine hevent.composes.bind fun e p' ⟨moved, hrun⟩ => hschema ?_
  have hshifted := Composition.step_shifts limits p'.reader.schema reached.incomplete moved.shifts
  cases hstep : c.step limits p'.reader.schema e with
  | error err =>
    rw [hstep] at hshifted
    refine .throw ?_
    cases hshifted with
    | complaint x => trivial
    | tooDeep opens full =>
      refine .inr ⟨rfl, start, first, es, c, p, e, p', hfront, hgives, hsteps, hrun, ?_, full⟩
      rw [← opens]
      exact moved.shifts
  | ok c' =>
    rw [hstep] at hshifted
    cases hshifted with
    | composed follows =>
    dsimp only
    refine .ite (fun hcomplete => .pure (ends _ _ ?_ moved.due.supply_lt)) fun hcomplete => ?_
    · exact moved.stands.ends moved.ready (follows.complete.mp hcomplete)
    · have hdepth : p'.depth ≠ 0 := fun h₀ => hcomplete (follows.complete.mpr h₀)
      have hlater : front.Reached limits c' p' :=
        ⟨⟨start, first, _, hfront, hgives.concat hrun, Composition.steps_concat hsteps hstep⟩,
          by simpa using hcomplete⟩
      exact next c' p' hlater moved.ready moved.stands moved.due follows.length.symm hdepth

/-- A document that has begun comes to its end before its steps run out. -/
theorem composes_compose {c : Composition} {fuel : Nat} (reached : front.Reached limits c p)
    (ready : p.reader.Ready d src) (stands : p.Stands) (depth : p.depth = c.stack.length)
    (unfinished : p.depth ≠ 0) (due : p.Due n) (enough : n ≤ fuel) :
    Composes limits d src front (compose limits fuel c) p fun _ p' =>
      p'.Ends d src ∧ 4 * p'.reader.supply < n := by
  induction fuel generalizing p c n with
  | zero =>
    have hlt := due.supply_lt
    omega
  | succ fuel ih =>
    obtain ⟨n, rfl⟩ : ∃ m, n = m + 1 := ⟨n - 1, by have := due.supply_lt; omega⟩
    -- The event uses up one of the steps that are due, whether or not it takes a token.
    refine composes_event (n := n) reached ?_ (fun g p' ends hlt => ⟨ends, by omega⟩)
      fun c' p' reached' ready' stands' due' depth' unfinished' => ?_
    · rw [← depth]
      exact parses_event ready stands unfinished due
    · refine (ih reached' ready' stands' depth' unfinished' due' (by omega)).mono
        fun g p'' h => ⟨h.1, by omega⟩

/-- The rest of a document, from its root to its end. -/
theorem composes_documentRest {start : Event}
    (begun : documentStart?.run front = .ok (some start, p)) (begins : p.Begins d src) :
    Composes limits d src front (documentRest limits) p fun _ p' =>
      p'.Between d src ∧ p'.stock ≤ p.reader.supply := by
  have hroom := begins.ready.supply_lt
  obtain ⟨fuel, hfuel⟩ : ∃ fuel, 32 * p.reader.bound = fuel + 1 :=
    ⟨32 * p.reader.bound - 1, by omega⟩
  have hcompose : Composes limits d src front (compose limits (32 * p.reader.bound) {}) p
      fun _ p' => p'.Ends d src ∧ p'.reader.supply ≤ p.reader.supply := by
    rw [hfuel]
    refine composes_event ⟨⟨start, p, [], begun, .nil, rfl⟩, rfl⟩
      (parses_event_of_begins (n := 4 * p.reader.supply + 2) begins (by omega))
      (fun g p' ends hlt => ⟨ends, by omega⟩)
      fun c' p' reached' ready' stands' due' depth' unfinished' => ?_
    have hlt := due'.supply_lt
    refine (composes_compose reached' ready' stands' depth' unfinished' due' (by omega)).mono
      fun g p'' h => ⟨h.1, by omega⟩
  have hbound : ∀ {f : Nat → Parse Graph} {Q : Graph → Parser → Prop},
      Composes limits d src front (f (32 * p.reader.bound)) p Q →
      Composes limits d src front (eventFuel >>= f) p Q := fun h => ⟨h.ends, h.raises⟩
  unfold documentRest
  refine hbound (hcompose.bind fun g p' h => ?_)
  obtain ⟨⟨ready, hphase, houter⟩, hle⟩ := h
  have hend : Parses d src event p' fun _ p'' =>
      p''.Between d src ∧ p''.stock ≤ p'.reader.supply := by
    unfold event
    refine Leads.get_bind ?_
    rw [hphase]
    exact parses_endDocument ready houter
  exact hend.composes.bind fun e p'' h => .pure ⟨h.1, Nat.le_trans h.2 hle⟩

/-! ## The documents of a stream -/

theorem parses_event_of_between (between : p.Between d src) :
    Parses d src event p fun e p' => (e.kind = .streamEnd ∧ p'.reader.Within d src) ∨
      e.kind = .documentStart ∧ p'.Begins d src ∧ p'.reader.supply + 4 ≤ p.stock := by
  unfold event
  refine Leads.get_bind ?_
  rcases between.phase with hphase | hphase
  · rw [Parser.stock_of_document hphase, hphase]
    exact parses_startDocument between.ready between.outer
  · rw [Parser.stock_of_not_document (by rw [hphase]; decide), hphase]
    refine (parses_startImplicitDocument between.ready between.outer).mono fun e p' h => ?_
    exact h.imp_right fun ⟨hkind, begins, hle⟩ => ⟨hkind, begins, by omega⟩

theorem parses_event_start (d : Dialect) (src : Source) :
    Parses d src event (Parser.start d src) fun e p' =>
      e.kind = .streamStart ∧ p'.Between d src ∧ p'.stock ≤ (Parser.start d src).stock := by
  have shows := Reader.shows_start d src
  have h := (Reader.ready_start d src).certain shows
  have hlt := h.supply_pass_lt
  unfold event
  refine Leads.get_bind (takeToken_bind h.toWithin shows (.modify_bind (.pure ⟨rfl, ?_, ?_⟩)))
  · exact ⟨h.pass (by simp), rfl, .inr rfl⟩
  · refine Nat.le_trans (Parser.stock_le _) ?_
    show (Reader.start d src).pass.supply + 4 ≤ (Reader.start d src).supply + 4
    omega

/-- The start of the next document, unless the stream ends. -/
theorem parses_documentStart? (waits : p.Waits d src) :
    Parses d src documentStart? p fun e p' => p'.reader.Within d src ∧
      (e.isSome → p'.Begins d src ∧ p'.reader.supply + 4 ≤ p.stock) := by
  have hlast : ∀ {e : Event} {p' : Parser}, ((e.kind = .streamEnd ∧ p'.reader.Within d src) ∨
      e.kind = .documentStart ∧ p'.Begins d src ∧ p'.reader.supply + 4 ≤ p.stock) →
      p'.reader.Within d src ∧ ((if e.kind == .streamEnd then none else some e).isSome →
        p'.Begins d src ∧ p'.reader.supply + 4 ≤ p.stock) := by
    rintro e p' (⟨hend, within⟩ | ⟨-, h⟩)
    · exact ⟨within, fun hsome => by simp [hend] at hsome⟩
    · exact ⟨h.1.ready.toWithin, fun _ => h⟩
  unfold documentStart?
  rcases waits with rfl | between
  · refine (parses_event_start d src).bind fun e p' h => ?_
    obtain ⟨hkind, between, hle⟩ := h
    refine .ite (fun _ => ?_) fun hne => absurd (by simp [hkind]) hne
    refine (parses_event_of_between between).bind fun e' p'' h' => .pure (hlast ?_)
    exact h'.imp_right fun ⟨hkind, begins, hcost⟩ => ⟨hkind, begins, by omega⟩
  · refine (parses_event_of_between between).bind fun e p' h => ?_
    refine .ite (fun hstart => ?_) fun _ => .pure (hlast h)
    rcases h with ⟨hend, -⟩ | ⟨hkind, -⟩
    · simp [hend] at hstart
    · simp [hkind] at hstart

/-- The next document costs a marker, or the one document that needs none. -/
theorem composes_document? (waits : p.Waits d src) :
    Composes limits d src p (document? limits) p fun g p' =>
      g.isSome → p'.Between d src ∧ p'.stock + 4 ≤ p.stock := by
  have hstart : Parses d src documentStart? p fun e p' =>
      (e.isSome → p'.Begins d src ∧ p'.reader.supply + 4 ≤ p.stock) ∧
        documentStart?.run p = .ok (e, p') :=
    ⟨fun hrun => ⟨((parses_documentStart? waits).ends hrun).2, hrun⟩,
      (parses_documentStart? waits).raises⟩
  unfold document?
  refine hstart.composes.bind fun e p' h => ?_
  cases e with
  | none => exact .pure (by simp)
  | some e =>
    obtain ⟨begins, hcost⟩ := h.1 rfl
    refine (composes_documentRest h.2 begins).bind fun g p'' h' => .pure fun _ => ⟨h'.1, ?_⟩
    have hle := h'.2
    omega

theorem composes_single? (waits : p.Waits d src) :
    Composes limits d src p (single? limits) p fun _ p' => p'.reader.Within d src := by
  have hstart : Parses d src documentStart? p fun e p' =>
      (p'.reader.Within d src ∧ (e.isSome → p'.Begins d src)) ∧
        documentStart?.run p = .ok (e, p') :=
    ⟨fun hrun => ⟨((parses_documentStart? waits).ends hrun).imp_right
      fun h hsome => (h hsome).1, hrun⟩, (parses_documentStart? waits).raises⟩
  unfold single?
  refine hstart.composes.bind fun e p' h => ?_
  cases e with
  | none => exact .pure h.1.1
  | some e =>
    refine (composes_documentRest h.2 (h.1.2 rfl)).bind fun g p₁ h₁ => ?_
    refine (parses_documentStart? (.inr h₁.1)).composes.bind fun next p₂ h₂ => ?_
    cases next with
    | none => exact .pure h₂.1
    | some e' => exact .throw trivial

end Parse

/-- A parser in front of a stream has as many documents left as its steps allow. -/
theorem stock_start_lt (d : Dialect) (src : Source) :
    (Parser.start d src).stock < 4 * (src.chars.length + 2) := by
  have hle := (Parser.start d src).stock_le
  have hsupply : (Parser.start d src).reader.supply = 4 * src.chars.length + 2 :=
    Reader.supply_start d src
  omega

/-- The parsers in front of the documents of a stream, and the one behind the last. -/
inductive Parser.Along (limits : Limits) (d : Dialect) (src : Source) : Parser → Prop
  | start : Along limits d src (Parser.start d src)
  | next {p q : Parser} {g : Graph} (before : Along limits d src p)
      (run : (Parse.document? limits).run p = .ok (some g, q)) : Along limits d src q

/-- What ends the reading of a stream is a complaint, what its readers fail with, or one of its
documents that has too many collections inside one another. -/
theorem raises_readFrom {limits : Limits} {d : Dialect} {src : Source} {fuel : Nat} {p : Parser}
    {e : LoadError} (along : p.Along limits d src) (waits : p.Waits d src)
    (enough : p.stock < 4 * fuel) (h : (readFrom limits fuel p).error = some e) :
    ∃ q, q.Along limits d src ∧ e.Among (ReadFailure limits d src q) := by
  induction fuel generalizing p with
  | zero => omega
  | succ fuel ih =>
    unfold readFrom at h
    cases hrun : (Parse.document? limits).run p with
    | error e' =>
      rw [hrun] at h
      cases h
      exact ⟨p, along, (Parse.composes_document? waits).raises hrun⟩
    | ok next =>
      obtain ⟨g, p'⟩ := next
      rw [hrun] at h
      cases g with
      | none => cases h
      | some g =>
        obtain ⟨between, hcost⟩ := (Parse.composes_document? waits).ends hrun rfl
        exact ih (along.next hrun) (.inr between) (by omega) h

theorem raises_read {limits : Limits} {d : Dialect} {bytes : List UInt8} {e : LoadError}
    (h : (read limits d bytes).error = some e) :
    ∃ p, p.Along limits d (Source.ofBytes bytes) ∧
      e.Among (ReadFailure limits d (Source.ofBytes bytes) p) :=
  raises_readFrom .start (.inl rfl) (stock_start_lt d _) h

end YamlCheck.Yaml
