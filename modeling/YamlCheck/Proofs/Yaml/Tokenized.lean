import YamlCheck.Proofs.Yaml.Scanned

/-!
# What the readers of scalars and of the queue of tokens raise

Escapes for no character are met in double-quoted scalars.  The queue of tokens only hands on what
the readers of its tokens raise.
-/

namespace YamlCheck.Yaml.Scan

open YamlCheck.Number

variable {d : Dialect} {src : Source} {o r : Reader} {α : Type}

/-! ## Block scalars -/

theorem scans_increment? (start : Mark) : Scans d src o (increment? start) := by
  unfold increment?
  refine (scans_peek 0).step fun c => ?_
  refine .ite (fun _ => .pure trivial) fun _ => ?_
  refine .when (fun _ => scans_complain _ _) ?_
  exact (scans_skip 1).step fun _ => .pure trivial

theorem scans_blockIndicators (start : Mark) : Scans d src o (blockIndicators start) := by
  unfold blockIndicators
  extract_lets finish
  have hfinish : ∀ indicators, Scans d src o (finish indicators) := by
    intro indicators
    refine (scans_peek 0).step fun c => ?_
    exact .when (fun _ => scans_complain _ _) (.pure trivial)
  refine (scans_peek 0).step fun c => ?_
  cases chomping? c with
  | some k =>
    refine (scans_skip 1).step fun _ => ?_
    refine (scans_increment? start).step fun n => ?_
    exact .pure_bind (hfinish (k, n))
  | none =>
    refine (scans_increment? start).step fun n => ?_
    cases n with
    | none => exact .pure_bind (hfinish (.clip, none))
    | some n =>
      refine (scans_peek 0).step fun c => ?_
      cases chomping? c with
      | some k =>
        refine (scans_skip 1).step fun _ => ?_
        exact .pure_bind (hfinish (k, some n))
      | none => exact .pure_bind (hfinish (.clip, some n))

theorem runs_blockLead {fuel : Nat} (hr : r.Within d src) (enough : r.rest.length < fuel)
    (lead : Lead) : Runs src (blockLead fuel lead) r fun _ r' => r.ReadsOn d src r' := by
  induction fuel generalizing r lead with
  | zero => omega
  | succ fuel ih =>
    unfold blockLead
    apply peek_bind hr
    refine .ite (fun hspace => ?_) fun _ => .ite (fun hbreak => ?_) fun _ => .pure (.refl hr)
    · have more : r.rest ≠ [] := by
        apply Reader.rest_ne_nil (c := ' ') (by simpa using hspace)
        decide
      refine (takes_skip hr (by omega) more).bind fun _ r₁ h => ?_
      apply here_bind
      have hshorter := h.shorter
      exact (ih h.toWithin (by omega) _).mono fun _ _ h' => h.toReadsOn.trans h'
    · apply here_bind
      refine (runs_lineBreak hr).bind fun b r₁ h => ?_
      have h := h.2.2 hbreak
      have hshorter := h.shorter
      exact (ih h.toWithin (by omega) _).mono fun _ _ h' => h.toReadsOn.trans h'

theorem scans_skipIndentation (indent fuel : Nat) :
    Scans d src o (skipIndentation indent fuel) := by
  induction fuel with
  | zero => exact .pure trivial
  | succ fuel ih =>
    unfold skipIndentation
    refine scans_here.step fun m => ?_
    refine .ite (fun _ => ?_) fun _ => .pure trivial
    refine (scans_peek 0).step fun c => ?_
    refine .ite (fun _ => ?_) fun _ => .pure trivial
    exact (scans_skip 1).step fun _ => ih

theorem runs_blockBreaks (indent : Nat) {fuel : Nat} (hr : r.Within d src)
    (enough : r.rest.length < fuel) :
    Runs src (blockBreaks indent fuel) r fun _ r' => r.ReadsOn d src r' := by
  induction fuel generalizing r with
  | zero => omega
  | succ fuel ih =>
    unfold blockBreaks
    refine ((scans_skipIndentation indent indent).runs hr).bind fun _ r₁ h₁ => ?_
    apply peek_bind h₁.toWithin
    refine .ite (fun hbreak => ?_) fun _ => .pure h₁
    refine (runs_lineBreak h₁.toWithin).bind fun b r₂ h₂ => ?_
    have h := h₁.takes (h₂.2.2 hbreak)
    have hshorter := h.shorter
    refine (ih h.toWithin (by omega)).bind fun breaks r' h' => ?_
    exact .pure (h.toReadsOn.trans h')

theorem runs_atContent (hr : r.Within d src) (indent : Nat) :
    Runs src (atContent indent) r fun more r' =>
      r' = r ∧ (more = true → r.rest.getD 0 endChar ≠ endChar) := by
  unfold atContent
  apply here_bind
  refine .ite (fun _ => ?_) fun _ => .pure ⟨rfl, by simp⟩
  apply peek_bind hr
  exact .pure ⟨rfl, by simp⟩

theorem scans_atContent (indent : Nat) : Scans d src o (atContent indent) :=
  scans_of_runs fun r hr => (runs_atContent hr indent).mono fun _ r' h => by
    rw [show r' = r from h.1]
    exact .refl hr

theorem scans_endsAtMargin (l : BlockLayout) : Scans d src o (endsAtMargin l) := by
  unfold endsAtMargin
  refine .ite (fun _ => ?_) fun _ => .pure trivial
  refine scans_here.step fun m => ?_
  exact .ite (fun _ => scans_atSeparator) fun _ => .pure trivial

theorem isBreak_of_endsLine {c : Char} (h : d.endsLine c = true) (hc : c ≠ endChar) :
    isBreak c = true := by
  unfold Dialect.endsLine at h
  unfold isBreak
  grind

/-- A round takes the line or the break after it, for otherwise the reader would still stand at the
end of the text, where there is no further line. -/
theorem runs_blockLines (l : BlockLayout) {fuel : Nat} (hr : r.Within d src)
    (enough : r.rest.length < fuel) (before : List Char) :
    Runs src (blockLines l fuel before) r fun _ r' => r.ReadsOn d src r' := by
  induction fuel generalizing r before with
  | zero => omega
  | succ fuel ih =>
    unfold blockLines
    refine .get_bind (peek_bind hr ?_)
    refine (runs_takeRun hr _).bind fun line r₁ h₁ => ?_
    obtain ⟨h₁, -, hline⟩ := h₁
    refine (runs_lineBreak h₁.toWithin).bind fun b r₂ h₂ => ?_
    refine fuelLeft_bind h₂.1.toWithin fun left hleft => ?_
    have hroom : r₂.rest.length < left := Nat.lt_of_le_of_lt h₂.1.rest.length_le hleft
    refine (runs_blockBreaks l.indent h₂.1.toWithin hroom).bind fun breaks r₃ h₃ => ?_
    refine ((scans_endsAtMargin l).runs h₃.toWithin).bind fun ends r₄ h₄ => ?_
    have h := (h₁.trans h₂.1).trans (h₃.trans h₄)
    refine .ite (fun _ => .pure h) fun _ => ?_
    refine (runs_atContent h₄.toWithin l.indent).bind fun more r₅ h₅ => ?_
    obtain ⟨rfl, hcontent⟩ := h₅
    refine .ite (fun hmore => ?_) fun _ => .pure h
    have hshorter : r₅.rest.length < r.rest.length := by
      apply Nat.lt_of_not_le
      intro hle
      have hsame : r₅.rest = r.rest := h.ahead.eq_of_length (Nat.le_antisymm h.length_le hle)
      have hsame₁ : r₁.rest = r.rest := by
        apply h₁.ahead.eq_of_length
        have h₂₅ := (h₂.1.trans (h₃.trans h₄)).length_le
        have h₀₁ := h₁.length_le
        omega
      have hends : r.dialect.endsLine (r.rest.getD 0 endChar) = true := by
        cases hends : r.dialect.endsLine (r.rest.getD 0 endChar) with
        | true => rfl
        | false =>
          have htakes := h₁.takes_of_dropWhile hline rfl (by rw [hends]; rfl)
          have hlength := htakes.shorter
          rw [hsame₁] at hlength
          omega
      have hbreak : isBreak (r₁.rest.getD 0 endChar) = true := by
        rw [hsame₁]
        apply isBreak_of_endsLine hends
        rw [← hsame]
        exact hcontent hmore
      have hlength := (h₂.2.2 hbreak).shorter
      have h₂₅ := (h₃.trans h₄).length_le
      rw [hsame₁, ← hsame] at hlength
      omega
    apply peek_bind h₄.toWithin
    refine (ih h.toWithin (by omega) breaks).bind fun lines r' h' => ?_
    exact .pure (h.trans h')

theorem scans_blockIndent (least : Nat) (increment : Option Nat) :
    Scans d src o (blockIndent least increment) := by
  unfold blockIndent
  cases increment with
  | some n =>
    refine keeps_fuelLeft.bind fun left enough => ?_
    refine (scans_of_loop enough fun r hr => ?_).step fun _ => .pure trivial
    exact runs_blockBreaks _ hr
  | none =>
    refine keeps_fuelLeft.bind fun left enough => ?_
    refine (scans_of_loop enough fun r hr hroom => runs_blockLead hr hroom _).step fun lead => ?_
    refine Keeps.get.step fun r => ?_
    refine .ite (fun _ => ?_) fun _ => .pure trivial
    refine .ite (fun _ => ?_) fun _ => .pure trivial
    refine scans_here.step fun m => ?_
    exact .throw_bind trivial

theorem runs_toNextToken {fuel : Nat} (hr : r.Within d src) (enough : r.rest.length < fuel) :
    Runs src (toNextToken fuel) r fun _ r' => r.ReadsOn d src r' := by
  induction fuel generalizing r with
  | zero => omega
  | succ fuel ih =>
    unfold toNextToken
    apply Leads.get_bind
    refine ((scans_skipRun _).runs hr).bind fun _ r₁ h₁ => ?_
    refine (scans_skipComment.runs h₁.toWithin).bind fun _ r₂ h₂ => ?_
    refine (runs_lineBreak h₂.toWithin).bind fun b r₃ h₃ => ?_
    have h := (h₁.trans h₂).trans h₃.1
    refine .ite (fun hsome => ?_) fun _ => .pure h
    have hshorter := ((h₁.trans h₂).takes (h₃.2.1 hsome)).shorter
    have hroom : r₃.rest.length < fuel := by omega
    have hallowed := h.withKeyAllowed true
    refine .ite (fun _ => .modify_bind ?_) fun _ => ?_
    · exact (ih hallowed.toWithin hroom).mono fun _ _ h' => hallowed.trans h'
    · exact (ih h.toWithin hroom).mono fun _ _ h' => h.trans h'

theorem scans_skipToNextToken : Scans d src o skipToNextToken := by
  unfold skipToNextToken
  refine scans_here.step fun m => ?_
  extract_lets finish
  have hfinish : Scans d src o (finish ()) :=
    keeps_fuelLeft.bind fun left enough => scans_of_loop enough fun _ => runs_toNextToken
  refine .ite (fun _ => ?_) fun _ => hfinish
  refine (scans_peek 0).step fun c => ?_
  exact .when (fun _ => scans_skip 1) hfinish

theorem takes_blockScalar (style : BlockStyle) (hr : r.Within d src) (more : r.rest ≠ []) :
    Runs src (blockScalar style) r fun _ r' => r.Takes d src r' := by
  unfold blockScalar
  apply here_bind
  refine takes_after_skip hr (by omega) more fun o => ?_
  refine (scans_blockIndicators _).step fun indicators => ?_
  obtain ⟨chomping, increment⟩ := indicators
  refine (scans_finishLine _ _).step fun _ => ?_
  refine Keeps.get.step fun r => ?_
  refine (scans_blockIndent _ increment).step fun lead => ?_
  obtain ⟨indent, before⟩ := lead
  extract_lets finish
  have hfinish : ∀ lines, Scans d src o (finish lines) := by
    intro lines
    refine scans_here.step fun stop => ?_
    exact .when (fun _ => scans_skipToNextToken) (.pure trivial)
  refine (scans_atContent indent).step fun more => ?_
  refine .ite (fun _ => ?_) fun _ => ?_
  · refine keeps_fuelLeft.bind fun left enough => ?_
    refine (scans_of_loop enough fun r hr hroom => ?_).step hfinish
    exact runs_blockLines _ hr hroom before
  · exact .pure_bind (hfinish ([], [], before))

/-! ## Quoted scalars -/

theorem scans_letterOfCode {ds : List Char} (mem : ds <:+: src.chars) (length : ds.length ≤ 8) :
    Scans d src o (letterOfCode (digitsValue 16 ds)) := by
  unfold letterOfCode
  refine .check (fun hlarge => .hugeCodePoint ⟨ds, mem, length, hlarge⟩) ?_
  exact .check (fun hlarge => .codePoint ⟨ds, mem, length, hlarge⟩) (.pure trivial)

theorem runs_quotedBreaks (start : Mark) {fuel : Nat} (hr : r.Within d src)
    (enough : r.rest.length < fuel) :
    Runs src (quotedBreaks start fuel) r fun _ r' => r.ReadsOn d src r' := by
  induction fuel generalizing r with
  | zero => omega
  | succ fuel ih =>
    unfold quotedBreaks
    refine (scans_atSeparator.runs hr).bind fun separated r₁ h₁ => ?_
    refine .ite (fun _ => complain_bind) fun _ => ?_
    refine ((scans_skipRun _).runs h₁.toWithin).bind fun _ r₂ h₂ => ?_
    refine (runs_lineBreak h₂.toWithin).bind fun b r₃ h₃ => ?_
    cases b with
    | none => exact .pure ((h₁.trans h₂).trans h₃.1)
    | some b =>
      have h := (h₁.trans h₂).takes (h₃.2.1 rfl)
      have hshorter := h.shorter
      refine (ih h.toWithin (by omega)).bind fun more r' h' => ?_
      exact .pure (h.toReadsOn.trans h')

/-- Where a word between quotes ends: at a blank, a break, the end or its own quote. -/
def EndsQuotedWord (q : Quotes) (c : Char) : Prop :=
  c = q.char ∨ isBlankChar c = true ∨ isBreakOrEnd c = true

/-- What stands at the end of a word, other than the quote, is taken. -/
theorem takes_quotedSpaces (start : Mark) (hr : r.Within d src)
    (stands : isBlankChar (r.rest.getD 0 endChar) = true ∨
      isBreakOrEnd (r.rest.getD 0 endChar) = true) :
    Runs src (quotedSpaces start) r fun _ r' => r.Takes d src r' := by
  unfold quotedSpaces
  refine (runs_takeRun hr _).bind fun blanks r₁ h₁ => ?_
  obtain ⟨h₁, -, hrest⟩ := h₁
  apply peek_bind h₁.toWithin
  refine .ite (fun _ => complain_bind) fun hmore => ?_
  refine (runs_lineBreak h₁.toWithin).bind fun b r₂ h₂ => ?_
  have htakes : r.Takes d src r₂ := by
    cases hblank : isBlankChar (r.rest.getD 0 endChar) with
    | true => exact (h₁.takes_of_dropWhile hrest rfl hblank).readsOn h₂.1
    | false =>
      have hsame := Reader.rest_eq_of_dropWhile hrest hblank
      rw [hsame] at hmore h₂
      rw [hblank, isBreakOrEnd, Bool.or_eq_true] at stands
      have hstands := stands.resolve_left Bool.false_ne_true
      exact h₁.takes (h₂.2.2 (hstands.resolve_left hmore))
  cases b with
  | none => exact .pure htakes
  | some b =>
    refine fuelLeft_bind h₂.1.toWithin fun fuel hfuel => ?_
    have enough : r₂.rest.length < fuel := Nat.lt_of_le_of_lt h₂.1.rest.length_le hfuel
    refine (runs_quotedBreaks start h₂.1.toWithin enough).bind fun breaks r' h' => ?_
    exact .pure (htakes.readsOn h')

theorem escapeDigits?_le {c : Char} {n : Nat} (h : escapeDigits? c = some n) : n ≤ 8 := by
  unfold escapeDigits? at h
  grind

theorem takes_escape (start : Mark) (hr : r.Within d src) (more : r.rest ≠ []) :
    Runs src (escape start) r fun _ r' => r.Takes d src r' := by
  unfold escape
  refine takes_after_skip hr (by omega) more fun o => ?_
  refine (scans_peek 0).step fun c => ?_
  cases escaped? c with
  | some e => exact (scans_skip 1).step fun _ => .pure trivial
  | none =>
    cases hdigits : escapeDigits? c with
    | some n =>
      refine (scans_skip 1).step fun _ => ?_
      refine (scans_forIn fun k => ?_).step fun _ => ?_
      · refine (scans_peek k).step fun c => ?_
        exact .when (fun _ => scans_complain _ _) (.pure trivial)
      refine (keeps_look n).bind fun ds hds => ?_
      have hlength : ds.length ≤ 8 := Nat.le_trans hds.2 (escapeDigits?_le hdigits)
      refine (scans_letterOfCode hds.1 hlength).step fun e => ?_
      exact (scans_skip n).step fun _ => .pure trivial
    | none =>
      refine .ite (fun _ => ?_) fun _ => scans_complain _ _
      refine scans_lineBreak.step fun b => ?_
      refine keeps_fuelLeft.bind fun left enough => ?_
      refine (scans_of_loop enough fun r hr => runs_quotedBreaks start hr).step fun breaks => ?_
      exact .pure trivial

theorem runs_atDoubledApostrophe (hr : r.Within d src) (c : Char) :
    Runs src (atDoubledApostrophe c) r fun doubled r' => r' = r ∧ (doubled = true → c = '\'') := by
  unfold atDoubledApostrophe
  refine .ite (fun hc => ?_) fun _ => .pure ⟨rfl, by simp⟩
  apply peek_bind hr
  exact .pure ⟨rfl, fun _ => by simpa using hc⟩

theorem getD_dropWhile {p : Char → Bool} (hend : p endChar = false) (cs : List Char) :
    p ((cs.dropWhile p).getD 0 endChar) = false := by
  induction cs with
  | nil => exact hend
  | cons c cs ih =>
    cases hc : p c with
    | true => rwa [List.dropWhile_cons_of_pos hc]
    | false =>
      rw [List.dropWhile_cons_of_neg (by simp [hc])]
      exact hc

theorem runs_quotedWord (q : Quotes) (start : Mark) {fuel : Nat} (hr : r.Within d src)
    (enough : r.rest.length < fuel) :
    Runs src (quotedWord q start fuel) r fun _ r' =>
      r.ReadsOn d src r' ∧ EndsQuotedWord q (r'.rest.getD 0 endChar) := by
  induction fuel generalizing r with
  | zero => omega
  | succ fuel ih =>
    unfold quotedWord
    refine (runs_takeRun hr _).bind fun run r₁ h₁ => ?_
    obtain ⟨h₁, -, hrest⟩ := h₁
    have hspecial : isQuotedSpecial (r₁.rest.getD 0 endChar) = true := by
      rw [hrest]
      simpa using getD_dropWhile (p := fun c => !isQuotedSpecial c) (by decide) r.rest
    apply peek_bind h₁.toWithin
    generalize hc : r₁.rest.getD 0 endChar = c at hspecial
    -- What the word goes on with takes a character, so that a round is left for the rest.
    have hgoesOn : ∀ {n : Nat} {f : List Text.Letter → List Text.Letter}, 0 < n → c ≠ endChar →
        Runs src (do skip n; return f (← quotedWord q start fuel)) r₁ fun _ r' =>
          r.ReadsOn d src r' ∧ EndsQuotedWord q (r'.rest.getD 0 endChar) := by
      intro n f positive hmore
      refine (takes_skip h₁.toWithin positive (Reader.rest_ne_nil hc hmore)).bind fun _ r₂ h₂ => ?_
      have h := h₁.takes h₂
      have hshorter := h.shorter
      refine (ih h.toWithin (by omega)).bind fun more r' h' => ?_
      exact .pure ⟨h.toReadsOn.trans h'.1, h'.2⟩
    cases q with
    | single =>
      refine (runs_atDoubledApostrophe h₁.toWithin c).bind fun doubled r₂ h₂ => ?_
      obtain ⟨rfl, hdoubled⟩ := h₂
      refine .ite (fun hd => ?_) fun _ => .ite (fun hq => ?_) fun hq => ?_
      · apply hgoesOn (by omega)
        rw [hdoubled hd]
        decide
      · apply hgoesOn (by omega)
        rintro rfl
        cases hq
      · refine .pure ⟨h₁, ?_⟩
        rw [hc]
        unfold isQuotedSpecial isSpaceBreakOrEnd at hspecial
        unfold EndsQuotedWord Quotes.char isBlankChar
        grind
    | double =>
      refine .ite (fun hq => ?_) fun hq => .ite (fun hb => ?_) fun hb => ?_
      · apply hgoesOn (by omega)
        rintro rfl
        cases hq
      · have hmore : c ≠ endChar := by
          rintro rfl
          cases hb
        have hnil := Reader.rest_ne_nil hc hmore
        refine (takes_escape start h₁.toWithin hnil).bind fun e r₂ h₂ => ?_
        have h := h₁.takes h₂
        have hshorter := h.shorter
        refine (ih h.toWithin (by omega)).bind fun more r' h' => ?_
        exact .pure ⟨h.toReadsOn.trans h'.1, h'.2⟩
      · refine .pure ⟨h₁, ?_⟩
        rw [hc]
        unfold isQuotedSpecial isSpaceBreakOrEnd at hspecial
        unfold EndsQuotedWord Quotes.char isBlankChar
        grind

theorem runs_quotedText (q : Quotes) (start : Mark) {fuel : Nat} (hr : r.Within d src)
    (enough : r.rest.length < fuel) :
    Runs src (quotedText q start fuel) r fun _ r' => r.ReadsOn d src r' := by
  induction fuel generalizing r with
  | zero => omega
  | succ fuel ih =>
    unfold quotedText
    refine fuelLeft_bind hr fun left hleft => ?_
    have hroom : r.rest.length < left := Nat.lt_of_le_of_lt hr.rest.length_le hleft
    refine (runs_quotedWord q start hr hroom).bind fun word r₁ h₁ => ?_
    apply peek_bind h₁.1.toWithin
    refine .ite (fun _ => .pure h₁.1) fun hquote => ?_
    have hstands := h₁.2.resolve_left (by simpa using hquote)
    refine (takes_quotedSpaces start h₁.1.toWithin hstands).bind fun spaces r₂ h₂ => ?_
    have h := h₁.1.takes h₂
    have hshorter := h.shorter
    refine (ih h.toWithin (by omega)).bind fun more r' h' => ?_
    exact .pure (h.toReadsOn.trans h')

theorem takes_quotedScalar (q : Quotes) (hr : r.Within d src) (more : r.rest ≠ []) :
    Runs src (quotedScalar q) r fun _ r' => r.Takes d src r' := by
  unfold quotedScalar
  apply here_bind
  refine takes_after_skip hr (by omega) more fun o => ?_
  refine keeps_fuelLeft.bind fun left enough => ?_
  refine (scans_of_loop enough fun r hr => runs_quotedText q _ hr).step fun text => ?_
  refine (scans_skip 1).step fun _ => ?_
  exact scans_here.step fun _ => .pure trivial

/-! ## Plain scalars -/

theorem runs_takePlain (hr : r.Within d src) :
    Runs src takePlain r fun word r' => r.ReadsOn d src r' ∧ word = plainRun r r.rest ∧
      (word ≠ [] → r.Takes d src r') := by
  unfold takePlain
  apply Leads.get_bind
  extract_lets run
  have htaken : Runs src (do skip run.length; return run) r fun word r' =>
      r.ReadsOn d src r' ∧ word = run ∧ (word ≠ [] → r.Takes d src r') := by
    refine (runs_skip hr _).bind fun _ r' h => ?_
    refine .pure ⟨h.1, rfl, fun hrun => ⟨h.1, ?_⟩⟩
    have hpositive := List.length_pos_iff.mpr hrun
    have hrest : r.rest ≠ [] := by
      intro hnil
      apply hrun
      show plainRun r r.rest = []
      rw [hnil]
      rfl
    have hlength := List.length_pos_iff.mpr hrest
    rw [h.2, List.length_drop]
    omega
  apply peek_bind hr
  refine .ite (fun _ => ?_) fun _ => htaken
  refine (runs_need hr _).bind fun _ r' h => ?_
  rw [show r' = r from h]
  exact htaken

theorem runs_plainBreaks {fuel : Nat} (hr : r.Within d src) (enough : r.rest.length < fuel) :
    Runs src (plainBreaks fuel) r fun _ r' => r.ReadsOn d src r' := by
  induction fuel generalizing r with
  | zero => omega
  | succ fuel ih =>
    unfold plainBreaks
    refine ((scans_skipRun _).runs hr).bind fun _ r₁ h₁ => ?_
    refine (runs_lineBreak h₁.toWithin).bind fun b r₂ h₂ => ?_
    cases b with
    | none => exact .pure (h₁.trans h₂.1)
    | some b =>
      have h := h₁.takes (h₂.2.1 rfl)
      refine (scans_atSeparator.runs h.toWithin).bind fun ends r₃ h₃ => ?_
      refine .ite (fun _ => .pure (h.readsOn h₃).toReadsOn) fun _ => ?_
      have hshorter := (h.readsOn h₃).shorter
      refine (ih h₃.toWithin (by omega)).bind fun more r' h' => ?_
      exact .pure ((h.readsOn h₃).readsOn h').toReadsOn

theorem scans_plainSpaces : Scans d src o plainSpaces := by
  unfold plainSpaces
  refine (scans_takeRun _).step fun blanks => ?_
  refine scans_lineBreak.step fun b => ?_
  cases b with
  | none => exact .pure trivial
  | some b =>
    refine Keeps.step (.modify fun r hr => hr.withKeyAllowed true) fun _ => ?_
    refine scans_atSeparator.step fun ends => ?_
    refine .ite (fun _ => .pure trivial) fun _ => ?_
    refine keeps_fuelLeft.bind fun left enough => ?_
    refine (scans_of_loop enough fun r hr => runs_plainBreaks hr).step fun breaks => ?_
    cases breaks with
    | none => exact .pure trivial
    | some breaks => exact .pure trivial

/-- The first word is taken unless a comment stands there. -/
theorem runs_plainWords {fuel : Nat} (hr : r.Within d src) (enough : r.rest.length < fuel)
    (spaces : List Char) (stop : Mark) :
    Runs src (plainWords fuel spaces stop) r fun _ r' => r.ReadsOn d src r' ∧
      (r.rest.getD 0 endChar ≠ '#' → plainRun r r.rest ≠ [] → r.Takes d src r') := by
  induction fuel generalizing r spaces stop with
  | zero => omega
  | succ fuel ih =>
    unfold plainWords
    apply peek_bind hr
    refine .ite (fun hhash => ?_) fun _ => ?_
    · exact .pure ⟨.refl hr, fun hother => absurd (by simpa using hhash) hother⟩
    refine (runs_takePlain hr).bind fun word r₁ h₁ => ?_
    obtain ⟨h₁, rfl, htakes⟩ := h₁
    refine .ite (fun hnone => .pure ⟨h₁, fun _ hsome => ?_⟩) fun hsome => ?_
    · exact absurd (List.isEmpty_iff.mp hnone) hsome
    have h₁ := htakes (by simpa using hsome)
    apply Leads.modify_bind
    apply here_bind
    have h₂ := h₁.toReadsOn.withKeyAllowed false
    refine (scans_plainSpaces.runs h₂.toWithin).bind fun more r₃ h₃ => ?_
    have h : r.Takes d src r₃ := by
      refine ⟨h₂.trans h₃, ?_⟩
      have hshorter := h₁.shorter
      have hle : r₃.rest.length ≤ r₁.rest.length := h₃.length_le
      omega
    apply peek_bind h₃.toWithin
    apply Leads.get_bind
    refine .ite (fun _ => .pure ⟨h.toReadsOn, fun _ _ => h⟩) fun _ => ?_
    have hshorter := h.shorter
    refine (ih h.toWithin (by omega) _ _).bind fun words r' h' => ?_
    exact .pure ⟨(h.readsOn h'.1).toReadsOn, fun _ _ => h.readsOn h'.1⟩

theorem takes_plainScalar (hr : r.Within d src) (content : r.rest.getD 0 endChar ≠ '#')
    (word : plainRun r r.rest ≠ []) :
    Runs src plainScalar r fun _ r' => r.Takes d src r' := by
  unfold plainScalar
  apply here_bind
  refine fuelLeft_bind hr fun left hleft => ?_
  have enough : r.rest.length < left := Nat.lt_of_le_of_lt hr.rest.length_le hleft
  exact (runs_plainWords hr enough _ _).bind fun _ _ h => .pure (h.2 content word)

end YamlCheck.Yaml.Scan
