import YamlCheck.Proofs.Yaml.Queued
import YamlCheck.Yaml.Event

/-!
# What the grammar raises

The grammar hands on what the readers of tokens raise and complains about the order of the tokens.
It adds one breakdown of its own: the modern dialect does not foresee a directive that names a
version 1.x other than 1.1 and 1.2.
-/

namespace YamlCheck.Yaml

/-- The breakdowns of a parser of `cs`. -/
def ParseFault (d : Dialect) (cs : List Char) (b : Breakdown) : Prop :=
  ScanFault cs b ∨
    (d = .modern ∧ ∃ minor, b = .unsupportedVersion 1 minor ∧ minor ≠ 1 ∧ minor ≠ 2)

/-- What a parser of a source raises that is no complaint. -/
def ParseFailure (d : Dialect) (src : Source) (e : LoadError) : Prop :=
  ScanFailure src e ∨
    (d = .modern ∧ ∃ minor, e = .breakdown (.unsupportedVersion 1 minor) ∧ minor ≠ 1 ∧ minor ≠ 2)

theorem ParseFailure.parseFault {d : Dialect} {src : Source} {b : Breakdown}
    (h : ParseFailure d src (.breakdown b)) : ParseFault d src.chars b := by
  rcases h with h | ⟨hmodern, minor, heq, hminor⟩
  · exact .inl h.scanFault
  · cases heq
    exact .inr ⟨hmodern, minor, rfl, hminor⟩

/-- A parser's computation that fails from a parser only as its reader does, or at a version. -/
abbrev Parses (d : Dialect) (src : Source) {α : Type} (m : Parse α) (p : Parser)
    (Q : α → Parser → Prop) : Prop :=
  Leads (LoadError.Among (ParseFailure d src)) m p Q

/-- The parser with another reader. -/
def Parser.withReader (p : Parser) (r : Reader) : Parser := { p with reader := r }

/-- What is left to a parser between two documents: the tokens to come, and one document that needs
no marker unless the next one has to be marked. -/
def Parser.stock (p : Parser) : Nat := p.reader.supply + if p.phase = .document then 0 else 4

theorem Parser.stock_le (p : Parser) : p.stock ≤ p.reader.supply + 4 := by
  unfold stock
  split <;> omega

theorem Parser.stock_of_document {p : Parser} (h : p.phase = .document) :
    p.stock = p.reader.supply := by
  rw [stock, if_pos h, Nat.add_zero]

theorem Parser.stock_of_not_document {p : Parser} (h : p.phase ≠ .document) :
    p.stock = p.reader.supply + 4 := by
  rw [stock, if_neg h]

/-- A parser between two documents of its source. -/
structure Parser.Between (d : Dialect) (src : Source) (p : Parser) : Prop where
  ready : p.reader.Ready d src
  outer : p.outer = []
  phase : p.phase = .document ∨ p.phase = .implicitDocument

/-- A parser at the root of a document. -/
structure Parser.Begins (d : Dialect) (src : Source) (p : Parser) : Prop where
  ready : p.reader.Ready d src
  phase : p.phase = .documentContent ∨ p.phase = .blockNode
  outer : p.outer = [.documentEnd]

namespace Parse

variable {d : Dialect} {src : Source} {p : Parser} {r : Reader} {α β : Type}
variable {Q : α → Parser → Prop} {t : Token}

/-! ## Tokens and phases -/

theorem run_scan (s : Scan α) (p : Parser) :
    (scan s).run p = (s.run p.reader).map fun r => (r.1, p.withReader r.2) := by
  unfold scan
  rw [run_bind_of_ok (run_get p)]
  cases s.run p.reader with
  | error e => rfl
  | ok r => rfl

theorem parses_scan {s : Scan α} {R : α → Reader → Prop} (h : Runs src s p.reader R) :
    Parses d src (scan s) p fun v p' => ∃ r, p' = p.withReader r ∧ R v r := by
  constructor
  · intro v p' hrun
    rw [run_scan] at hrun
    cases hs : s.run p.reader with
    | error e =>
      rw [hs] at hrun
      cases hrun
    | ok r =>
      rw [hs] at hrun
      cases hrun
      exact ⟨r.2, rfl, h.ends hs⟩
  · intro e hrun
    rw [run_scan] at hrun
    cases hs : s.run p.reader with
    | error e' =>
      rw [hs] at hrun
      cases hrun
      exact (h.raises hs).mono fun b hb => .inl hb
    | ok r =>
      rw [hs] at hrun
      cases hrun

theorem peekToken_bind {f : Token → Parse α} (ready : p.reader.Ready d src)
    (next : ∀ t r, p.reader.Certain d src t r → Parses d src (f t) (p.withReader r) Q) :
    Parses d src (peekToken >>= f) p Q := by
  refine (parses_scan (Scan.runs_peekToken ready)).bind fun t p' h => ?_
  obtain ⟨r, rfl, h⟩ := h
  exact next t r h

/-- A token that has been made sure of is looked at again. -/
theorem peekShown_bind {f : Token → Parse α} (within : p.reader.Within d src)
    (shows : p.reader.Shows t) (next : Parses d src (f t) p Q) :
    Parses d src (peekToken >>= f) p Q := by
  have hrun : peekToken.run p = .ok (t, p) := by
    unfold peekToken
    rw [run_scan, Scan.run_peekToken_of_shows within shows]
    rfl
  exact ⟨fun h => next.ends (by rwa [run_bind_of_ok hrun] at h),
    fun h => next.raises (by rwa [run_bind_of_ok hrun] at h)⟩

/-- A token that has been made sure of is taken. -/
theorem takeToken_bind {f : Token → Parse α} (within : p.reader.Within d src)
    (shows : p.reader.Shows t) (next : Parses d src (f t) (p.withReader p.reader.pass) Q) :
    Parses d src (takeToken >>= f) p Q := by
  have hrun : takeToken.run p = .ok (t, p.withReader p.reader.pass) := by
    unfold takeToken
    rw [run_scan, Scan.run_takeToken_of_shows within shows]
    rfl
  exact ⟨fun h => next.ends (by rwa [run_bind_of_ok hrun] at h),
    fun h => next.raises (by rwa [run_bind_of_ok hrun] at h)⟩

theorem dialect_bind {f : Dialect → Parse α} (within : p.reader.Within d src)
    (next : Parses d src (f d) p Q) : Parses d src (dialect >>= f) p Q := by
  have hnext : Parses d src (f p.reader.dialect) p Q := by
    rw [within.dialect]
    exact next
  exact ⟨hnext.ends, hnext.raises⟩

theorem newRules_bind {f : Bool → Parse α} (next : ∀ b, Parses d src (f b) p Q) :
    Parses d src (newRules >>= f) p Q :=
  have h := next (p.reader.dialect == .modern && p.reader.rules.after .v11)
  ⟨h.ends, h.raises⟩

theorem parses_complain {context : Option (Context × Option Mark)} {problem : Problem} {m : Mark} :
    Parses d src (complain context problem m : Parse α) p Q := .throw trivial

theorem complain_bind {context : Option (Context × Option Mark)} {problem : Problem} {m : Mark}
    {f : β → Parse α} : Parses d src (complain context problem m >>= f) p Q := .throw_bind trivial

/-! ## Documents -/

/-- Each directive takes a token, so that there are no more of them than tokens to come.  A version
that has been named is 1.x. -/
theorem parses_directives {fuel : Nat} (ready : p.reader.Ready d src)
    (enough : p.reader.supply < fuel) {version : Option Version} (handles : List (String × String))
    (first : ∀ v, version = some v → v.major = 1) :
    Parses d src (directives fuel version handles) p fun _ p' =>
      ∃ r, p' = p.withReader r ∧ r.Ready d src ∧ r.supply ≤ p.reader.supply := by
  induction fuel generalizing p version handles with
  | zero => omega
  | succ fuel ih =>
    unfold directives
    refine peekToken_bind ready fun t r h => ?_
    have hsupply := h.supply_mono
    split
    · rename_i declared hdeclared
      have hpass := h.pass (by simp [hdeclared])
      have hcost := h.shows.supply_pass
      have hworth := t.kind.worth_pos
      have hroom : r.pass.supply < fuel := by
        unfold Token.worth at hcost
        omega
      have hnext : ∀ version handles, (∀ v, version = some v → v.major = 1) →
          Parses d src (directives fuel version handles) (p.withReader r.pass) fun _ p' =>
            ∃ r, p' = p.withReader r ∧ r.Ready d src ∧ r.supply ≤ p.reader.supply := by
        intro version handles first
        refine (ih hpass hroom handles first).mono fun _ p' h' => ?_
        obtain ⟨r', rfl, hready, hle⟩ := h'
        refine ⟨r', rfl, hready, ?_⟩
        have hle : r'.supply ≤ r.pass.supply := hle
        omega
      refine takeToken_bind h.toWithin h.shows ?_
      cases declared with
      | version major minor =>
        refine .ite (fun _ => complain_bind) fun _ => ?_
        refine .ite (fun _ => complain_bind) fun hmajor => ?_
        apply hnext
        intro v hv
        cases hv
        simpa using hmajor
      | handle name meaning =>
        exact .ite (fun _ => complain_bind) fun _ => hnext _ _ first
      | other name => exact hnext _ _ first
    · have hdone : Parses d src (pure (handles ++ standardHandles)) (p.withReader r) fun _ p' =>
          ∃ r, p' = p.withReader r ∧ r.Ready d src ∧ r.supply ≤ p.reader.supply :=
        .pure ⟨r, rfl, h.toReady, hsupply⟩
      cases version with
      | none => exact hdone
      | some v =>
        refine dialect_bind h.toWithin (.ite (fun hbad => .throw_bind ?_) fun _ => hdone)
        have hmodern : d = .modern ∧ v.minor ≠ 1 ∧ v.minor ≠ 2 := by
          simpa [and_assoc] using hbad
        have hmajor : v.major = 1 := first v rfl
        rw [hmajor]
        exact .inr ⟨hmodern.1, v.minor, rfl, hmodern.2⟩

theorem parses_skipDocumentEnds {fuel : Nat} (ready : p.reader.Ready d src)
    (enough : p.reader.supply < fuel) :
    Parses d src (skipDocumentEnds fuel) p fun _ p' =>
      ∃ r, p' = p.withReader r ∧ r.Ready d src ∧ r.supply ≤ p.reader.supply := by
  induction fuel generalizing p with
  | zero => omega
  | succ fuel ih =>
    unfold skipDocumentEnds
    refine peekToken_bind ready fun t r h => ?_
    have hsupply := h.supply_mono
    refine .ite (fun hend => ?_) fun _ => .pure ⟨r, rfl, h.toReady, hsupply⟩
    have hpass := h.pass (by simp [beq_iff_eq.mp hend])
    have hcost := h.shows.supply_pass
    have hworth := t.kind.worth_pos
    have hroom : r.pass.supply < fuel := by
      unfold Token.worth at hcost
      omega
    refine takeToken_bind h.toWithin h.shows ?_
    refine (ih hpass hroom).mono fun _ p' h' => ?_
    obtain ⟨r', rfl, hready, hle⟩ := h'
    refine ⟨r', rfl, hready, ?_⟩
    have hle : r'.supply ≤ r.pass.supply := hle
    omega

theorem fuelLeft_bind {f : Nat → Parse α} (next : Parses d src (f (4 * p.reader.bound)) p Q) :
    Parses d src (fuelLeft >>= f) p Q := ⟨next.ends, next.raises⟩

/-- The end of the stream or a document follows; a document that is marked costs its marker. -/
theorem parses_startDocument (ready : p.reader.Ready d src) (outer : p.outer = []) :
    Parses d src startDocument p fun e p' => (e.kind = .streamEnd ∧ p'.reader.Within d src) ∨
      e.kind = .documentStart ∧ p'.Begins d src ∧ p'.reader.supply + 4 ≤ p.reader.supply := by
  unfold startDocument
  refine fuelLeft_bind ((parses_skipDocumentEnds ready ready.supply_lt).bind fun _ p₁ h₁ => ?_)
  obtain ⟨r₁, rfl, ready₁, hle₁⟩ := h₁
  refine peekToken_bind ready₁ fun first r₂ h₂ => ?_
  have hle₂ : r₂.supply ≤ r₁.supply := h₂.supply_mono
  refine .ite (fun _ => ?_) fun _ => ?_
  · refine takeToken_bind h₂.toWithin h₂.shows (.modify_bind (.pure (.inl ⟨rfl, ?_⟩)))
    exact h₂.toWithin.pass
  refine fuelLeft_bind ((parses_directives h₂.toReady h₂.supply_lt [] (by simp)).bind
    fun handles p₃ h₃ => ?_)
  obtain ⟨r₃, rfl, ready₃, hle₃⟩ := h₃
  have hle₃ : r₃.supply ≤ r₂.supply := hle₃
  refine Leads.modify_bind (peekToken_bind ready₃ fun t r₄ h₄ => ?_)
  have hle₄ : r₄.supply ≤ r₃.supply := h₄.supply_mono
  refine .ite (fun _ => complain_bind) fun hkind => ?_
  have hkind : t.kind = .documentStart := by simpa using hkind
  have hcost : r₄.pass.supply + 4 = r₄.supply := by
    simpa [Token.worth, TokenKind.worth, hkind] using h₄.shows.supply_pass
  refine takeToken_bind h₄.toWithin h₄.shows ?_
  refine Leads.modify_bind (.modify_bind (.pure (.inr ⟨rfl, ?_, ?_⟩)))
  · exact ⟨h₄.pass (by simp [hkind]), .inl rfl, by simpa [Parser.withReader] using outer⟩
  · show r₄.pass.supply + 4 ≤ p.reader.supply
    omega

theorem parses_startImplicitDocument (ready : p.reader.Ready d src) (outer : p.outer = []) :
    Parses d src startImplicitDocument p fun e p' =>
      (e.kind = .streamEnd ∧ p'.reader.Within d src) ∨
      e.kind = .documentStart ∧ p'.Begins d src ∧ p'.reader.supply ≤ p.reader.supply := by
  unfold startImplicitDocument
  refine peekToken_bind ready fun t r h => ?_
  have hle : r.supply ≤ p.reader.supply := h.supply_mono
  refine .ite (fun _ => ?_) fun _ => ?_
  · refine (parses_startDocument (p := p.withReader r) h.toReady outer).mono fun e p' h' => ?_
    refine h'.imp_right fun ⟨hkind, begins, hcost⟩ => ⟨hkind, begins, ?_⟩
    have hcost : p'.reader.supply + 4 ≤ r.supply := hcost
    omega
  · refine Leads.modify_bind (.modify_bind (.modify_bind (.pure (.inr ⟨rfl, ?_, hle⟩))))
    exact ⟨h.toReady, .inr rfl, by simpa [Parser.withReader] using outer⟩

theorem parses_checkAfterEnd (marker : Token) (ready : p.reader.Ready d src) :
    Parses d src (checkAfterEnd marker) p fun _ p' =>
      ∃ r, p' = p.withReader r ∧ r.Ready d src ∧ r.supply ≤ p.reader.supply := by
  unfold checkAfterEnd
  refine dialect_bind ready.toWithin (.ite (fun _ => ?_) fun _ => ?_)
  · refine peekToken_bind ready fun t r h => .ite (fun _ => parses_complain) fun _ => ?_
    exact .pure ⟨r, rfl, h.toReady, h.supply_mono⟩
  · exact .pure ⟨p.reader, rfl, ready, Nat.le_refl _⟩

/-- A marker at the end of a document pays for a document without one. -/
theorem parses_endDocument (ready : p.reader.Ready d src) (outer : p.outer = []) :
    Parses d src endDocument p fun _ p' => p'.Between d src ∧ p'.stock ≤ p.reader.supply := by
  unfold endDocument
  refine peekToken_bind ready fun t r h => ?_
  have hle : r.supply ≤ p.reader.supply := h.supply_mono
  refine .ite (fun hend => ?_) fun hend => ?_
  · have hkind : t.kind = .documentEnd := by simpa using hend
    have hcost : r.pass.supply + 4 = r.supply := by
      simpa [Token.worth, TokenKind.worth, hkind] using h.shows.supply_pass
    refine takeToken_bind h.toWithin h.shows ?_
    refine (parses_checkAfterEnd t (h.pass (by simp [hkind]))).bind fun _ p' h' => ?_
    obtain ⟨r', rfl, ready', hle'⟩ := h'
    have hle' : r'.supply ≤ r.pass.supply := hle'
    refine newRules_bind fun b => Leads.modify_bind (.pure ⟨⟨ready', outer, ?_⟩, ?_⟩)
    · cases b <;> simp [hend]
    · refine Nat.le_trans (Parser.stock_le _) ?_
      show r'.supply + 4 ≤ p.reader.supply
      omega
  · refine newRules_bind fun b => Leads.modify_bind (.pure ⟨⟨h.toReady, outer, ?_⟩, ?_⟩)
    · simp [hend]
    · rw [Parser.stock_of_document (by simp [hend])]
      exact hle

end Parse

end YamlCheck.Yaml
