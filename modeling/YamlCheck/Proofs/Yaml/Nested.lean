import YamlCheck.Proofs.Yaml.Parsed

/-!
# Phases within a document

Within a document a parser keeps the phases that it comes back to, those of the open collections and
at last the end of the document.  Each event opens a collection, closes the innermost one or leaves
them as they are, just as its kind says.  And each event takes a token or uses up the allowance of
a phase, so that a document has only as many events as its tokens pay for.
-/

namespace YamlCheck.Yaml

namespace Phase

/-- How many open collections a phase belongs to. -/
def depth : Phase → Nat
  | .blockSequenceFirst | .blockSequenceEntry | .indentlessEntry | .blockMappingFirst
  | .blockMappingKey | .blockMappingValue | .flowSequenceFirst | .flowSequenceEntry
  | .flowMappingFirst | .flowMappingKey | .flowMappingValue | .flowMappingNoValue => 1
  | .flowPairKey | .flowPairValue | .flowPairEnd => 2
  | _ => 0

/-- How many events a phase may give without a token before the parser comes back to a phase that
needs one. -/
def allowance : Phase → Nat
  | .documentContent | .blockNode | .blockMappingValue | .flowPairValue => 2
  | .indentlessEntry | .blockMappingKey | .flowPairEnd | .flowMappingValue
  | .flowMappingNoValue => 1
  | _ => 0

/-- Whether a phase stands at the token that opens its collection, or its pair. -/
def enters : Phase → Bool
  | .blockSequenceFirst | .blockMappingFirst | .flowSequenceFirst | .flowPairKey
  | .flowMappingFirst => true
  | _ => false

/-- Whether a phase goes on with a collection after one of its nodes. -/
def goesOn : Phase → Bool
  | .blockSequenceEntry | .indentlessEntry | .blockMappingKey | .blockMappingValue
  | .flowSequenceEntry | .flowPairValue | .flowPairEnd | .flowMappingKey | .flowMappingValue
  | .flowMappingNoValue => true
  | _ => false

/-- How many collections are open in a list of phases. -/
def depths (phases : List Phase) : Nat := (phases.map depth).sum

def allowances (phases : List Phase) : Nat := (phases.map allowance).sum

@[simp] theorem depths_cons (phase : Phase) (outer : List Phase) :
    depths (phase :: outer) = phase.depth + depths outer := by simp [depths]

@[simp] theorem allowances_cons (phase : Phase) (outer : List Phase) :
    allowances (phase :: outer) = phase.allowance + allowances outer := by simp [allowances]

theorem depth_pos_of_goesOn {phase : Phase} (h : phase.goesOn = true) : 0 < phase.depth := by
  cases phase <;> first | decide | cases h

theorem allowance_of_enters {phase : Phase} (h : phase.enters = true) : phase.allowance = 0 := by
  cases phase <;> first | rfl | cases h

theorem depth_pos_of_enters {phase : Phase} (h : phase.enters = true) : 0 < phase.depth := by
  cases phase <;> first | decide | cases h

/-- The phases to come back to: those that go on with the open collections, innermost first, and at
last the end of the document. -/
inductive Nested : List Phase → Prop
  | document : Nested [.documentEnd]
  | collection {phase : Phase} {outer : List Phase} (goesOn : phase.goesOn = true)
      (nested : Nested outer) : Nested (phase :: outer)

end Phase

open Phase

/-- What an event does to the number of open collections. -/
def EventKind.Shifts (before after : Nat) : EventKind → Prop
  | .aliasTo _ | .scalar .. => after = before
  | .sequenceStart _ | .mappingStart _ => after = before + 1
  | .sequenceEnd | .mappingEnd => before = after + 1
  | _ => False

namespace Parser

def depth (p : Parser) : Nat := depths (p.phase :: p.outer)

/-- A parser in a document after one of its events: it has come back to a phase, or it has opened a
collection and stands at the token that does so. -/
inductive Stands (p : Parser) : Prop
  | back (nested : Nested (p.phase :: p.outer))
  | opened (enters : p.phase.enters = true) (nested : Nested p.outer) {t : Token}
      (shows : p.reader.Shows t) (more : t.kind ≠ .streamEnd)

/-- A bound on the events that a parser still gives in its document.  Where a key is left out in
front of a value, the value is certain to take its token. -/
def Due (n : Nat) (p : Parser) : Prop :=
  4 * p.reader.supply + allowances (p.phase :: p.outer) < n ∨
    p.phase = .blockMappingValue ∧ (∃ t, p.reader.Shows t ∧ t.kind = .value) ∧
      4 * p.reader.supply + allowances p.outer < n

/-- What an event leaves of a parser in a document where `depth` collections were open. -/
structure Moved (d : Dialect) (src : Source) (n depth : Nat) (k : EventKind) (p : Parser) :
    Prop where
  ready : p.reader.Ready d src
  stands : p.Stands
  shifts : k.Shifts depth p.depth
  due : p.Due n

end Parser

namespace Parse

variable {d : Dialect} {src : Source} {p : Parser} {r : Reader} {α β : Type}
variable {Q : α → Parser → Prop} {t : Token} {n : Nat}

theorem goBack_bind {f : PUnit → Parse α} (nested : Nested p.outer)
    (next : ∀ phase outer, p.outer = phase :: outer →
      Parses d src (f ()) { p with phase := phase, outer := outer } Q) :
    Parses d src (goBack >>= f) p Q := by
  cases houter : p.outer with
  | nil =>
    rw [houter] at nested
    cases nested
  | cons phase outer =>
    have h := next phase outer houter
    refine Leads.modify_bind ?_
    rw [houter]
    exact h

/-- A node that is complete gives its parser back to the phase that asked for it. -/
theorem parses_leaf {e : Event} (ready : p.reader.Ready d src) (nested : Nested p.outer)
    (leaf : ∀ m, e.kind.Shifts m m) (due : 4 * p.reader.supply + allowances p.outer < n) :
    Parses d src (do goBack; return e) p fun e p' => p'.Moved d src n (depths p.outer) e.kind := by
  refine goBack_bind nested fun phase outer h => .pure ?_
  rw [h] at nested due ⊢
  exact ⟨ready, .back nested, leaf _, .inl due⟩

theorem parses_readProperties (ready : p.reader.Ready d src) :
    Parses d src readProperties p fun _ p' =>
      ∃ r, p' = p.withReader r ∧ r.Ready d src ∧ r.supply ≤ p.reader.supply := by
  unfold readProperties
  refine peekToken_bind ready fun first r h => ?_
  have hle : r.supply ≤ p.reader.supply := h.supply_mono
  split
  · rename_i name hfirst
    have ready₁ := h.pass (by simp [hfirst])
    have hle₁ := h.shows.supply_pass
    refine takeToken_bind h.toWithin h.shows ?_
    refine peekToken_bind ready₁ fun second r₂ h₂ => ?_
    have hle₂ : r₂.supply ≤ r.pass.supply := h₂.supply_mono
    split
    · rename_i tag hsecond
      have hle₃ := h₂.shows.supply_pass
      have ready₃ := h₂.pass (by simp [hsecond])
      exact takeToken_bind h₂.toWithin h₂.shows (.pure ⟨r₂.pass, rfl, ready₃, by omega⟩)
    · exact .pure ⟨r₂, rfl, h₂.toReady, by omega⟩
  · rename_i tag hfirst
    have ready₁ := h.pass (by simp [hfirst])
    have hle₁ := h.shows.supply_pass
    refine takeToken_bind h.toWithin h.shows ?_
    refine peekToken_bind ready₁ fun second r₂ h₂ => ?_
    have hle₂ : r₂.supply ≤ r.pass.supply := h₂.supply_mono
    split
    · rename_i name hsecond
      have hle₃ := h₂.shows.supply_pass
      have ready₃ := h₂.pass (by simp [hsecond])
      refine takeToken_bind h₂.toWithin h₂.shows (dialect_bind ready₃.toWithin ?_)
      exact .pure ⟨r₂.pass, rfl, ready₃, by omega⟩
    · exact .pure ⟨r₂, rfl, h₂.toReady, by omega⟩
  · exact .pure ⟨r, rfl, h.toReady, hle⟩

/-- A collection that starts leaves its parser at the token that opens it. -/
theorem parses_opening {e : Event} {first : Phase} (enters : first.enters = true)
    (one : first.depth = 1) (ready : p.reader.Ready d src) (nested : Nested p.outer)
    (shows : p.reader.Shows t) (more : t.kind ≠ .streamEnd) (start : ∀ m, e.kind.Shifts m (m + 1))
    (due : 4 * p.reader.supply + allowances p.outer < n) :
    Parses d src (do goTo first; return e) p fun e p' =>
      p'.Moved d src n (depths p.outer) e.kind := by
  refine Leads.modify_bind (.pure ⟨ready, .opened enters nested shows more, ?_, .inl ?_⟩)
  · show e.kind.Shifts _ (depths (first :: p.outer))
    rw [depths_cons, one, Nat.add_comm]
    exact start _
  · show 4 * p.reader.supply + allowances (first :: p.outer) < n
    rw [allowances_cons, allowance_of_enters enters, Nat.zero_add]
    exact due

theorem parses_absent (layout : Layout) (read : ReadProperties) (props : Properties) (start : Mark)
    (t : Token) (ready : p.reader.Ready d src) (nested : Nested p.outer)
    (due : 4 * p.reader.supply + allowances p.outer < n) :
    Parses d src (node.absent layout read props start t) p fun e p' =>
      p'.Moved d src n (depths p.outer) e.kind := by
  unfold node.absent
  refine .ite (fun _ => ?_) fun _ => parses_complain
  exact parses_leaf (e := ⟨.scalar .., start⟩) ready nested (fun _ => rfl) due

/-- The tag of a node is known, unless its handle is not. -/
theorem tag_cases {written : Option WrittenTag} {full? : WrittenTag → Option String}
    {known : Option String → Parse α} {unknown : WrittenTag → Parse α}
    (hknown : ∀ tag, Parses d src (known tag) p Q)
    (hunknown : ∀ w, Parses d src (unknown w) p Q) :
    Parses d src
      (match written with
      | none => pure none >>= known
      | some w =>
        match full? w with
        | some tag => pure (some tag) >>= known
        | none => unknown w) p Q := by
  cases written with
  | none => exact hknown none
  | some w =>
    cases hfull : full? w with
    | none => simpa only [hfull] using hunknown w
    | some tag =>
      simp only [hfull]
      exact hknown (some tag)

theorem parses_node (layout : Layout) (indentless : Bool) (ready : p.reader.Ready d src)
    (nested : Nested p.outer) (due : 4 * p.reader.supply + allowances p.outer + 1 < n) :
    Parses d src (node layout indentless) p fun e p' =>
      p'.Moved d src n (depths p.outer) e.kind := by
  unfold node
  refine peekToken_bind ready fun t r h => ?_
  have hle : r.supply ≤ p.reader.supply := h.supply_mono
  split
  · rename_i name hkind
    have hlt : r.pass.supply < p.reader.supply := h.supply_pass_lt
    refine takeToken_bind h.toWithin h.shows ?_
    apply parses_leaf (p := (p.withReader r).withReader r.pass) (h.pass (by simp [hkind])) nested
      (e := ⟨.aliasTo name, t.start⟩) (fun _ => rfl)
    show 4 * r.pass.supply + allowances p.outer < n
    omega
  · refine (parses_readProperties h.toReady).bind fun read p₁ h₁ => ?_
    obtain ⟨r₁, rfl, ready₁, hle₁⟩ := h₁
    refine dialect_bind ready₁.toWithin ?_
    refine Leads.get_bind (tag_cases (fun tag => ?_) fun w => parses_complain)
    refine peekToken_bind ready₁ fun t r₂ h₂ => ?_
    have hle₁ : r₁.supply ≤ r.supply := hle₁
    have hle₂ : r₂.supply ≤ r₁.supply := h₂.supply_mono
    have due₂ : 4 * r₂.supply + allowances p.outer + 1 < n := by omega
    have spare₂ : 4 * r₂.supply + allowances p.outer < n := by omega
    have hopening : ∀ {first : Phase} {e : Event}, t.kind ≠ .streamEnd → first.enters = true →
        first.depth = 1 → (∀ m, e.kind.Shifts m (m + 1)) →
        Parses d src (do goTo first; return e) (p.withReader r₂) fun e p' =>
          p'.Moved d src n (depths p.outer) e.kind :=
      fun more enters one start =>
        parses_opening enters one h₂.toReady nested h₂.shows more start spare₂
    dsimp only
    split
    · rename_i hkind
      -- An indentless sequence opens without a token: the event that is to spare pays for it.
      refine .ite (fun _ => Leads.modify_bind (.pure ?_)) fun _ => ?_
      · refine ⟨h₂.toReady, .back (.collection rfl nested), ?_, .inl ?_⟩
        · exact Nat.add_comm _ _
        · show 4 * r₂.supply + (1 + allowances p.outer) < n
          omega
      · exact parses_absent _ _ _ _ _ h₂.toReady nested spare₂
    · rename_i hkind
      have hlt : r₂.pass.supply < r₁.supply := h₂.supply_pass_lt
      refine takeToken_bind h₂.toWithin h₂.shows ?_
      refine parses_leaf (e := ⟨.scalar .., _⟩) (h₂.pass (by simp [hkind])) nested (fun _ => rfl) ?_
      show 4 * r₂.pass.supply + allowances p.outer < n
      omega
    · rename_i hkind
      exact hopening (by simp [hkind]) rfl rfl fun _ => rfl
    · rename_i hkind
      exact hopening (by simp [hkind]) rfl rfl fun _ => rfl
    · rename_i hkind
      exact hopening (by simp [hkind]) rfl rfl fun _ => rfl
    · rename_i hkind
      exact hopening (by simp [hkind]) rfl rfl fun _ => rfl
    · exact parses_absent _ _ _ _ _ h₂.toReady nested spare₂

/-- A node that may be left out: the parser comes back to `next` either way. -/
theorem parses_nodeUnless (stops : TokenKind → Bool) (layout : Layout) (indentless : Bool)
    (next : Phase) (m : Mark) (ready : p.reader.Ready d src) (nested : Nested (next :: p.outer))
    (due : 4 * p.reader.supply + allowances (next :: p.outer) + 1 < n) :
    Parses d src (nodeUnless stops layout indentless next m) p fun e p' =>
      p'.Moved d src n (depths (next :: p.outer)) e.kind := by
  unfold nodeUnless
  refine peekToken_bind ready fun t r h => ?_
  have hle : r.supply ≤ p.reader.supply := h.supply_mono
  have due : 4 * r.supply + allowances (next :: p.outer) + 1 < n := by omega
  refine .ite (fun _ => ?_) fun _ => ?_
  · refine Leads.modify_bind (.pure ⟨h.toReady, .back nested, rfl, .inl ?_⟩)
    show 4 * r.supply + allowances (next :: p.outer) < n
    omega
  · exact Leads.modify_bind (parses_node layout indentless h.toReady nested due)

/-- A token in front of a node pays for what comes after the node. -/
theorem parses_entry {stops : TokenKind → Bool} {layout : Layout} {indentless : Bool}
    {next : Phase} {m : Token → Mark} (ready : p.reader.Ready d src) (shows : p.reader.Shows t)
    (more : t.kind ≠ .streamEnd) (nested : Nested (next :: p.outer))
    (due : 4 * p.reader.supply + allowances (next :: p.outer) < n + 3) :
    Parses d src (do nodeUnless stops layout indentless next (m (← takeToken))) p fun e p' =>
      p'.Moved d src n (depths (next :: p.outer)) e.kind := by
  have h := ready.certain shows
  have hlt := h.supply_pass_lt
  refine takeToken_bind ready.toWithin shows ?_
  refine parses_nodeUnless (p := p.withReader p.reader.pass) _ _ _ _ _ (h.pass more) nested ?_
  show 4 * p.reader.pass.supply + allowances (next :: p.outer) + 1 < n
  omega

theorem parses_endCollection {k : EventKind} {depth : Nat} (stop : k.Shifts depth (depths p.outer))
    (ready : p.reader.Ready d src) (nested : Nested p.outer) (shows : p.reader.Shows t)
    (more : t.kind ≠ .streamEnd) (due : 4 * p.reader.supply + allowances p.outer < n + 4) :
    Parses d src (endCollection k) p fun e p' => p'.Moved d src n depth e.kind := by
  have h := ready.certain shows
  have hlt := h.supply_pass_lt
  unfold endCollection
  refine takeToken_bind ready.toWithin shows (goBack_bind nested fun phase outer houter => ?_)
  refine Leads.modify_bind (.pure ?_)
  have houter : p.outer = phase :: outer := houter
  rw [houter] at nested due stop
  refine ⟨h.pass more, .back nested, stop, .inl ?_⟩
  show 4 * p.reader.pass.supply + allowances (phase :: outer) < n
  omega

theorem parses_expectBlockEnd {context : Context} {k : EventKind} {depth : Nat}
    (stop : k.Shifts depth (depths p.outer)) (ready : p.reader.Ready d src)
    (nested : Nested p.outer) (due : 4 * p.reader.supply + allowances p.outer < n + 4) :
    Parses d src (expectBlockEnd context k) p fun e p' => p'.Moved d src n depth e.kind := by
  unfold expectBlockEnd
  refine peekToken_bind ready fun t r h => ?_
  have hle : r.supply ≤ p.reader.supply := h.supply_mono
  refine .ite (fun _ => Leads.get_bind complain_bind) fun hkind => ?_
  have hkind : t.kind = .blockEnd := by simpa using hkind
  refine parses_endCollection stop h.toReady nested h.shows (by simp [hkind]) ?_
  show 4 * r.supply + allowances p.outer < n + 4
  omega

/-- The phase at which a collection starts takes the token that opens it. -/
theorem parses_enterCollection (within : p.reader.Within d src) (shows : p.reader.Shows t) :
    Parses d src enterCollection p fun _ p' =>
      ∃ starts, p' = { p.withReader p.reader.pass with starts := starts } :=
  takeToken_bind within shows (.modify ⟨_, rfl⟩)

/-! ## Block collections -/

theorem parses_blockSequenceEntry (ready : p.reader.Ready d src) (nested : Nested p.outer)
    (due : 4 * p.reader.supply + allowances p.outer ≤ n) :
    Parses d src blockSequenceEntry p fun e p' =>
      p'.Moved d src n (depths (.blockSequenceEntry :: p.outer)) e.kind := by
  unfold blockSequenceEntry
  refine peekToken_bind ready fun t r h => ?_
  have hle : r.supply ≤ p.reader.supply := h.supply_mono
  refine .ite (fun hkind => ?_) fun _ => ?_
  · have hkind : t.kind = .blockEntry := by simpa using hkind
    refine parses_entry h.toReady h.shows (by simp [hkind]) (.collection rfl nested) ?_
    show 4 * r.supply + (0 + allowances p.outer) < n + 3
    omega
  · refine parses_expectBlockEnd (Nat.add_comm 1 _) h.toReady nested ?_
    show 4 * r.supply + allowances p.outer < n + 4
    omega

theorem parses_indentlessEntry (ready : p.reader.Ready d src) (nested : Nested p.outer)
    (due : 4 * p.reader.supply + allowances p.outer < n) :
    Parses d src indentlessEntry p fun e p' =>
      p'.Moved d src n (depths (.indentlessEntry :: p.outer)) e.kind := by
  unfold indentlessEntry
  refine peekToken_bind ready fun t r h => ?_
  have hle : r.supply ≤ p.reader.supply := h.supply_mono
  refine .ite (fun hkind => ?_) fun _ => ?_
  · have hkind : t.kind = .blockEntry := by simpa using hkind
    refine parses_entry h.toReady h.shows (by simp [hkind]) (.collection rfl nested) ?_
    show 4 * r.supply + (1 + allowances p.outer) < n + 3
    omega
  · refine goBack_bind nested fun phase outer houter => .pure ?_
    have houter : p.outer = phase :: outer := houter
    rw [houter] at nested due ⊢
    refine ⟨h.toReady, .back nested, Nat.add_comm 1 _, .inl ?_⟩
    show 4 * r.supply + allowances (phase :: outer) < n
    omega

theorem parses_blockMappingKey (ready : p.reader.Ready d src) (nested : Nested p.outer)
    (due : 4 * p.reader.supply + allowances p.outer < n) :
    Parses d src blockMappingKey p fun e p' =>
      p'.Moved d src n (depths (.blockMappingKey :: p.outer)) e.kind := by
  unfold blockMappingKey
  refine peekToken_bind ready fun t r h => ?_
  have hle : r.supply ≤ p.reader.supply := h.supply_mono
  refine .ite (fun hkind => ?_) fun _ => ?_
  · have hkind : t.kind = .key := by simpa using hkind
    refine parses_entry h.toReady h.shows (by simp [hkind]) (.collection rfl nested) ?_
    show 4 * r.supply + (2 + allowances p.outer) < n + 3
    omega
  refine newRules_bind fun new => .ite (fun hkind => ?_) fun _ => ?_
  -- The key that is left out costs no token, so that only the value in sight bounds what is due.
  · have hkind : t.kind = .value := by simp_all
    refine Leads.modify_bind (.pure ⟨h.toReady, .back (.collection rfl nested), rfl, .inr ?_⟩)
    refine ⟨rfl, ⟨t, h.shows, hkind⟩, ?_⟩
    show 4 * r.supply + allowances p.outer < n
    omega
  · refine parses_expectBlockEnd (Nat.add_comm 1 _) h.toReady nested ?_
    show 4 * r.supply + allowances p.outer < n + 4
    omega

/-- Only a value without its token uses up the allowance. -/
theorem parses_blockMappingValue (ready : p.reader.Ready d src) (nested : Nested p.outer)
    (due : 4 * p.reader.supply + allowances p.outer ≤ n)
    (spare : (∃ t, p.reader.Shows t ∧ t.kind = .value) ∨
      4 * p.reader.supply + allowances p.outer + 1 < n) :
    Parses d src blockMappingValue p fun e p' =>
      p'.Moved d src n (depths (.blockMappingValue :: p.outer)) e.kind := by
  have hentry : ∀ {t r} {m : Mark}, p.reader.Certain d src t r → t.kind = .value →
      Parses d src
        (do
          let _ ← takeToken
          nodeUnless endsEntry .block true .blockMappingKey m) (p.withReader r) fun e p' =>
            p'.Moved d src n (depths (.blockMappingValue :: p.outer)) e.kind := by
    intro t r m h hkind
    have hle : r.supply ≤ p.reader.supply := h.supply_mono
    refine parses_entry h.toReady h.shows (by simp [hkind]) (.collection rfl nested) ?_
    show 4 * r.supply + (1 + allowances p.outer) < n + 3
    omega
  unfold blockMappingValue
  rcases spare with ⟨t, shows, hkind⟩ | spare
  · refine peekShown_bind ready.toWithin shows (.ite (fun _ => ?_) fun hno => ?_)
    · exact hentry (ready.certain shows) hkind
    · simp [hkind] at hno
  · refine peekToken_bind ready fun t r h => ?_
    have hle : r.supply ≤ p.reader.supply := h.supply_mono
    refine .ite (fun hkind => hentry h (by simpa using hkind)) fun _ => ?_
    refine Leads.modify_bind (.pure ⟨h.toReady, .back (.collection rfl nested), rfl, .inl ?_⟩)
    show 4 * r.supply + (1 + allowances p.outer) < n
    omega

/-! ## Flow collections -/

/-- Whether its collection has just been opened or a comma stands before it, the token in front of
an entry of a flow collection has been paid for. -/
theorem separator_bind {first : Bool} {unlike rest : Parse α} (ready : p.reader.Ready d src)
    (shows : p.reader.Shows t) {m : Nat}
    (due : 4 * p.reader.supply + m + (if first then 4 else 0) ≤ n)
    (hunlike : Parses d src unlike p Q)
    (hrest : ∀ r, r.Ready d src → 4 * r.supply + m + 4 ≤ n →
      Parses d src rest (p.withReader r) Q) :
    Parses d src
      (if (!first) = true then
        if (t.kind != .flowEntry) = true then unlike
        else do
          let _ ← takeToken
          rest
      else rest) p Q := by
  cases first with
  | true => exact hrest p.reader ready due
  | false =>
    refine .ite (fun _ => .ite (fun _ => hunlike) fun hkind => ?_) fun h => absurd rfl h
    have hkind : t.kind = .flowEntry := by simpa using hkind
    have hlt := (ready.certain shows).supply_pass_lt
    refine takeToken_bind ready.toWithin shows (hrest _ ?_ ?_)
    · exact (ready.certain shows).pass (by simp [hkind])
    · simp only [Bool.false_eq_true, if_false] at due
      omega

theorem parses_flowSequenceEntry (first : Bool) (ready : p.reader.Ready d src)
    (nested : Nested p.outer)
    (due : 4 * p.reader.supply + allowances p.outer + (if first then 4 else 0) ≤ n) :
    Parses d src (flowSequenceEntry first) p fun e p' =>
      p'.Moved d src n (depths (.flowSequenceEntry :: p.outer)) e.kind := by
  have hend : ∀ {r t}, r.Ready d src → r.Shows t → t.kind = .flowSequenceEnd →
      4 * r.supply + allowances p.outer ≤ n →
      Parses d src (endCollection .sequenceEnd) (p.withReader r) fun e p' =>
        p'.Moved d src n (depths (.flowSequenceEntry :: p.outer)) e.kind := by
    intro r t ready shows hkind due
    refine parses_endCollection (Nat.add_comm 1 _) ready nested shows (by simp [hkind]) ?_
    show 4 * r.supply + allowances p.outer < n + 4
    omega
  unfold flowSequenceEntry
  refine peekToken_bind ready fun t r h => ?_
  have hle : r.supply ≤ p.reader.supply := h.supply_mono
  refine .ite (fun hkind => hend h.toReady h.shows (by simpa using hkind) (by omega)) fun _ => ?_
  refine separator_bind (n := n) (m := allowances p.outer) h.toReady h.shows ?_
    (.get_bind complain_bind) fun r₁ ready₁ due₁ => ?_
  · show 4 * r.supply + allowances p.outer + _ ≤ n
    omega
  refine peekToken_bind ready₁ fun t r₂ h₂ => ?_
  have hle₂ : r₂.supply ≤ r₁.supply := h₂.supply_mono
  refine .ite (fun hkind => ?_) fun _ => ?_
  · have hkind : t.kind = .key := by simpa using hkind
    refine Leads.modify_bind (.pure ⟨h₂.toReady, ?_, ?_, .inl ?_⟩)
    · exact .opened rfl nested h₂.shows (by simp [hkind])
    · show 2 + depths p.outer = 1 + depths p.outer + 1
      omega
    · show 4 * r₂.supply + (0 + allowances p.outer) < n
      omega
  refine .ite (fun hkind => hend h₂.toReady h₂.shows (by simpa using hkind) (by omega)) fun _ => ?_
  refine Leads.modify_bind (parses_node _ _ h₂.toReady (.collection rfl nested) ?_)
  show 4 * r₂.supply + (0 + allowances p.outer) + 1 < n
  omega

theorem parses_flowPairKey (ready : p.reader.Ready d src) (nested : Nested p.outer)
    (shows : p.reader.Shows t) (more : t.kind ≠ .streamEnd)
    (due : 4 * p.reader.supply + allowances p.outer ≤ n) :
    Parses d src flowPairKey p fun e p' =>
      p'.Moved d src n (depths (.flowPairKey :: p.outer)) e.kind := by
  refine parses_entry ready shows more (.collection rfl nested) ?_
  show 4 * p.reader.supply + (2 + allowances p.outer) < n + 3
  omega

theorem parses_flowPairValue (ready : p.reader.Ready d src) (nested : Nested p.outer)
    (due : 4 * p.reader.supply + allowances p.outer + 1 < n) :
    Parses d src flowPairValue p fun e p' =>
      p'.Moved d src n (depths (.flowPairValue :: p.outer)) e.kind := by
  unfold flowPairValue
  refine peekToken_bind ready fun t r h => ?_
  have hle : r.supply ≤ p.reader.supply := h.supply_mono
  refine .ite (fun hkind => ?_) fun _ => ?_
  · have hkind : t.kind = .value := by simpa using hkind
    refine parses_entry h.toReady h.shows (by simp [hkind]) (.collection rfl nested) ?_
    show 4 * r.supply + (1 + allowances p.outer) < n + 3
    omega
  · refine Leads.modify_bind (.pure ⟨h.toReady, .back (.collection rfl nested), rfl, .inl ?_⟩)
    show 4 * r.supply + (1 + allowances p.outer) < n
    omega

theorem parses_flowPairEnd (ready : p.reader.Ready d src) (nested : Nested p.outer)
    (due : 4 * p.reader.supply + allowances p.outer < n) :
    Parses d src flowPairEnd p fun e p' =>
      p'.Moved d src n (depths (.flowPairEnd :: p.outer)) e.kind := by
  unfold flowPairEnd
  refine Leads.modify_bind (peekToken_bind ready fun t r h => .pure ?_)
  have hle : r.supply ≤ p.reader.supply := h.supply_mono
  refine ⟨h.toReady, .back (.collection rfl nested), ?_, .inl ?_⟩
  · show 2 + depths p.outer = 1 + depths p.outer + 1
    omega
  · show 4 * r.supply + (0 + allowances p.outer) < n
    omega

theorem parses_flowMappingKey (first : Bool) (ready : p.reader.Ready d src)
    (nested : Nested p.outer)
    (due : 4 * p.reader.supply + allowances p.outer + (if first then 4 else 0) ≤ n) :
    Parses d src (flowMappingKey first) p fun e p' =>
      p'.Moved d src n (depths (.flowMappingKey :: p.outer)) e.kind := by
  have hend : ∀ {r t}, r.Ready d src → r.Shows t → t.kind = .flowMappingEnd →
      4 * r.supply + allowances p.outer ≤ n →
      Parses d src (endCollection .mappingEnd) (p.withReader r) fun e p' =>
        p'.Moved d src n (depths (.flowMappingKey :: p.outer)) e.kind := by
    intro r t ready shows hkind due
    refine parses_endCollection (Nat.add_comm 1 _) ready nested shows (by simp [hkind]) ?_
    show 4 * r.supply + allowances p.outer < n + 4
    omega
  unfold flowMappingKey
  refine peekToken_bind ready fun t r h => ?_
  have hle : r.supply ≤ p.reader.supply := h.supply_mono
  refine .ite (fun hkind => hend h.toReady h.shows (by simpa using hkind) (by omega)) fun _ => ?_
  refine separator_bind (n := n) (m := allowances p.outer) h.toReady h.shows ?_
    (.get_bind complain_bind) fun r₁ ready₁ due₁ => ?_
  · show 4 * r.supply + allowances p.outer + _ ≤ n
    omega
  refine peekToken_bind ready₁ fun t r₂ h₂ => ?_
  have hle₂ : r₂.supply ≤ r₁.supply := h₂.supply_mono
  refine .ite (fun hkind => ?_) fun _ => ?_
  · have hkind : t.kind = .key := by simpa using hkind
    refine parses_entry h₂.toReady h₂.shows (by simp [hkind]) (.collection rfl nested) ?_
    show 4 * r₂.supply + (1 + allowances p.outer) < n + 3
    omega
  refine newRules_bind fun new => .ite (fun _ => ?_) fun _ => ?_
  · refine Leads.modify_bind (.pure ⟨h₂.toReady, .back (.collection rfl nested), rfl, .inl ?_⟩)
    show 4 * r₂.supply + (1 + allowances p.outer) < n
    omega
  refine .ite (fun hkind => hend h₂.toReady h₂.shows (by simpa using hkind) (by omega)) fun _ => ?_
  refine Leads.modify_bind (parses_node _ _ h₂.toReady (.collection rfl nested) ?_)
  show 4 * r₂.supply + (1 + allowances p.outer) + 1 < n
  omega

theorem parses_flowMappingValue (ready : p.reader.Ready d src) (nested : Nested p.outer)
    (due : 4 * p.reader.supply + allowances p.outer < n) :
    Parses d src flowMappingValue p fun e p' =>
      p'.Moved d src n (depths (.flowMappingValue :: p.outer)) e.kind := by
  unfold flowMappingValue
  refine peekToken_bind ready fun t r h => ?_
  have hle : r.supply ≤ p.reader.supply := h.supply_mono
  refine .ite (fun hkind => ?_) fun _ => ?_
  · have hkind : t.kind = .value := by simpa using hkind
    refine parses_entry h.toReady h.shows (by simp [hkind]) (.collection rfl nested) ?_
    show 4 * r.supply + (0 + allowances p.outer) < n + 3
    omega
  · refine Leads.modify_bind (.pure ⟨h.toReady, .back (.collection rfl nested), rfl, .inl ?_⟩)
    show 4 * r.supply + (0 + allowances p.outer) < n
    omega

theorem parses_flowMappingNoValue (ready : p.reader.Ready d src) (nested : Nested p.outer)
    (due : 4 * p.reader.supply + allowances p.outer < n) :
    Parses d src flowMappingNoValue p fun e p' =>
      p'.Moved d src n (depths (.flowMappingNoValue :: p.outer)) e.kind := by
  unfold flowMappingNoValue
  refine Leads.modify_bind (peekToken_bind ready fun t r h => .pure ?_)
  have hle : r.supply ≤ p.reader.supply := h.supply_mono
  refine ⟨h.toReady, .back (.collection rfl nested), rfl, .inl ?_⟩
  show 4 * r.supply + (0 + allowances p.outer) < n
  omega

/-! ## Events -/

theorem parses_documentContent (ready : p.reader.Ready d src) (nested : Nested p.outer)
    (due : 4 * p.reader.supply + allowances p.outer + 1 < n) :
    Parses d src documentContent p fun e p' => p'.Moved d src n (depths p.outer) e.kind := by
  unfold documentContent
  refine peekToken_bind ready fun t r h => ?_
  have hle : r.supply ≤ p.reader.supply := h.supply_mono
  have due : 4 * r.supply + allowances p.outer + 1 < n := by omega
  refine .ite (fun _ => ?_) fun _ => parses_node _ _ h.toReady nested due
  exact parses_leaf (e := emptyScalar t.start) h.toReady nested (fun _ => rfl) (by
    show 4 * r.supply + allowances p.outer < n
    omega)

/-- The first event of a document is its root, or the start of it. -/
theorem parses_event_of_begins (begins : p.Begins d src) (due : 4 * p.reader.supply + 1 < n) :
    Parses d src event p fun e p' => p'.Moved d src n 0 e.kind := by
  have nested : Nested p.outer := begins.outer ▸ .document
  have hdepths : depths p.outer = 0 := by rw [begins.outer]; rfl
  have due : 4 * p.reader.supply + allowances p.outer + 1 < n := by rw [begins.outer]; exact due
  unfold event
  refine Leads.get_bind ?_
  rw [← hdepths]
  rcases begins.phase with hphase | hphase <;> rw [hphase]
  · exact parses_documentContent begins.ready nested due
  · exact parses_node _ _ begins.ready nested due

/-- A parser that stands at the token that opens its collection goes on with it. -/
theorem parses_event_of_opened (ready : p.reader.Ready d src) (enters : p.phase.enters = true)
    (nested : Nested p.outer) (shows : p.reader.Shows t) (more : t.kind ≠ .streamEnd)
    (due : 4 * p.reader.supply + allowances p.outer ≤ n) :
    Parses d src event p fun e p' => p'.Moved d src n p.depth e.kind := by
  have h := ready.certain shows
  have hlt := h.supply_pass_lt
  have ready₁ := h.pass more
  have due₁ : 4 * p.reader.pass.supply + allowances p.outer + 4 ≤ n := by omega
  have entered : ∀ {f : PUnit → Parse Event} {depth : Nat},
      (∀ starts, Parses d src (f ()) { p.withReader p.reader.pass with starts := starts }
        fun e p' => p'.Moved d src n depth e.kind) →
      Parses d src (enterCollection >>= f) p fun e p' => p'.Moved d src n depth e.kind := by
    intro f depth next
    refine (parses_enterCollection ready.toWithin shows).bind fun _ p' h' => ?_
    obtain ⟨starts, rfl⟩ := h'
    exact next starts
  unfold event Parser.depth
  refine Leads.get_bind ?_
  cases hphase : p.phase with
  | blockSequenceFirst =>
    refine entered fun starts => ?_
    refine parses_blockSequenceEntry ready₁ nested ?_
    exact Nat.le_trans (Nat.le_add_right _ 4) due₁
  | blockMappingFirst =>
    refine entered fun starts => ?_
    refine parses_blockMappingKey ready₁ nested ?_
    exact Nat.lt_of_lt_of_le (Nat.lt_add_of_pos_right (by decide)) due₁
  | flowSequenceFirst =>
    exact entered fun starts => parses_flowSequenceEntry true ready₁ nested due₁
  | flowPairKey => exact parses_flowPairKey ready nested shows more due
  | flowMappingFirst =>
    exact entered fun starts => parses_flowMappingKey true ready₁ nested due₁
  | _ =>
    rw [hphase] at enters
    cases enters

/-- A parser that has come back to a collection goes on with it. -/
theorem parses_event_of_back (ready : p.reader.Ready d src) (goesOn : p.phase.goesOn = true)
    (nested : Nested p.outer) (due : p.Due (n + 1)) :
    Parses d src event p fun e p' => p'.Moved d src n p.depth e.kind := by
  have free : ∀ {phase}, p.phase = phase → phase ≠ .blockMappingValue →
      4 * p.reader.supply + allowances p.outer + phase.allowance ≤ n := by
    rintro phase rfl hne
    rcases due with due | ⟨hphase, -⟩
    · rw [allowances_cons] at due
      omega
    · exact absurd hphase hne
  unfold event Parser.depth
  refine Leads.get_bind ?_
  cases hphase : p.phase with
  | blockSequenceEntry => exact parses_blockSequenceEntry ready nested (free hphase (by decide))
  | indentlessEntry => exact parses_indentlessEntry ready nested (free hphase (by decide))
  | blockMappingKey => exact parses_blockMappingKey ready nested (free hphase (by decide))
  | blockMappingValue =>
    refine parses_blockMappingValue ready nested ?_ ?_
    · rcases due with due | ⟨-, -, due⟩
      · rw [allowances_cons] at due
        omega
      · omega
    · rcases due with due | ⟨-, hvalue, -⟩
      · rw [hphase, allowances_cons, allowance] at due
        exact .inr (by omega)
      · exact .inl hvalue
  | flowSequenceEntry => exact parses_flowSequenceEntry false ready nested (free hphase (by decide))
  | flowPairValue => exact parses_flowPairValue ready nested (free hphase (by decide))
  | flowPairEnd => exact parses_flowPairEnd ready nested (free hphase (by decide))
  | flowMappingKey => exact parses_flowMappingKey false ready nested (free hphase (by decide))
  | flowMappingValue => exact parses_flowMappingValue ready nested (free hphase (by decide))
  | flowMappingNoValue => exact parses_flowMappingNoValue ready nested (free hphase (by decide))
  | _ =>
    rw [hphase] at goesOn
    cases goesOn

/-- Within a document an event shifts the number of open collections as its kind says, and it is
paid for. -/
theorem parses_event (ready : p.reader.Ready d src) (stands : p.Stands) (more : p.depth ≠ 0)
    (due : p.Due (n + 1)) :
    Parses d src event p fun e p' => p'.Moved d src n p.depth e.kind := by
  cases stands with
  | opened enters nested shows hkind =>
    refine parses_event_of_opened ready enters nested shows hkind ?_
    rcases due with due | ⟨hphase, -⟩
    · rw [allowances_cons, allowance_of_enters enters] at due
      omega
    · rw [hphase] at enters
      cases enters
  | back nested =>
    generalize hphases : p.phase :: p.outer = phases at nested
    cases nested with
    | document =>
      rw [Parser.depth, hphases] at more
      exact absurd rfl more
    | collection goesOn nested =>
      cases hphases
      exact parses_event_of_back ready goesOn nested due

end Parse

end YamlCheck.Yaml
