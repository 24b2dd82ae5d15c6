import Mathlib.Algebra.GroupWithZero.Nat
import YamlCheck.Proofs.Yaml.Tokenized

/-!
# What the queue of tokens gives and raises

The queue of tokens only hands on what the readers of its tokens raise.  It is never asked for a
token that it cannot give: each token is paid for by characters that are taken, so that the number
of tokens to come is bounded, and each round of reading ahead takes a character or meets the end.
-/

namespace YamlCheck.Yaml

/-! ## Tokens to come -/

/-- What a token counts for among those to come; the markers of a document count for more. -/
def TokenKind.worth : TokenKind → Nat
  | .documentStart => 4
  | .documentEnd => 4
  | _ => 1

theorem TokenKind.worth_le (k : TokenKind) : k.worth ≤ 4 := by
  unfold worth
  split <;> omega

theorem TokenKind.worth_pos (k : TokenKind) : 0 < k.worth := by
  unfold worth
  split <;> omega

def Token.worth (t : Token) : Nat := t.kind.worth

theorem Token.worth_le (t : Token) : t.worth ≤ 4 := t.kind.worth_le

namespace Reader

/-- The tokens that a reader has to give without taking a further character: those that wait, the
ends of the open block collections, and the end of the stream. -/
def queued (r : Reader) : Nat :=
  (r.pending.map Token.worth).sum + r.outerIndents.length + if r.ended then 0 else 1

/-- A bound on the tokens to come. -/
def supply (r : Reader) : Nat := r.queued + 4 * r.rest.length

/-- Once the stream has ended, its end is the last of the tokens that wait. -/
def Open (r : Reader) : Prop :=
  r.ended = true → ∃ t, r.pending.getLast? = some t ∧ t.kind = .streamEnd

/-- A reader that has queued up tokens for at most `n` since it was `o`. -/
structure Queues (d : Dialect) (src : Source) (o : Reader) (n : Nat) (r : Reader) : Prop
    extends Reader.Within d src r where
  bound : r.bound = o.bound
  ended : r.ended = o.ended
  still : r.rest = o.rest
  queued_le : r.queued ≤ o.queued + n

/-- A reader that has read ahead since it was `o`: it has paid for its tokens with characters, or
met the end. -/
structure Fetches (d : Dialect) (src : Source) (o r : Reader) : Prop
    extends Reader.Within d src r where
  bound : r.bound = o.bound
  supply_le : r.supply ≤ o.supply
  opened : r.Open
  goesOn : r.ended = true ∨ r.rest.length < o.rest.length

variable {d : Dialect} {src : Source} {o r r' : Reader} {n m : Nat}

theorem open_of_not_ended (h : r.ended = false) : r.Open := fun h' => by rw [h] at h'; cases h'

theorem ReadsOn.queued_eq (h : o.ReadsOn d src r) : r.queued = o.queued := by
  unfold queued
  rw [h.pending, h.outerIndents, h.ended]

theorem Queues.refl (h : r.Within d src) : Queues d src r 0 r := ⟨h, rfl, rfl, rfl, Nat.le_refl _⟩

theorem Queues.trans (h : Queues d src o n r) (h' : Queues d src r m r') :
    Queues d src o (n + m) r' where
  toWithin := h'.toWithin
  bound := h'.bound.trans h.bound
  ended := h'.ended.trans h.ended
  still := h'.still.trans h.still
  queued_le := by
    have hn := h.queued_le
    have hm := h'.queued_le
    omega

theorem Queues.mono (h : Queues d src o n r) (le : n ≤ m) : Queues d src o m r :=
  ⟨h.toWithin, h.bound, h.ended, h.still, by have hn := h.queued_le; omega⟩

theorem Queues.withCandidates (h : Queues d src o n r) (ks : List CandidateKey) :
    Queues d src o n { r with candidates := ks } :=
  ⟨⟨h.dialect, h.fault, h.rest, h.room⟩, h.bound, h.ended, h.still, h.queued_le⟩

theorem Queues.withKeyAllowed (h : Queues d src o n r) (b : Bool) :
    Queues d src o n { r with keyAllowed := b } :=
  ⟨⟨h.dialect, h.fault, h.rest, h.room⟩, h.bound, h.ended, h.still, h.queued_le⟩

theorem Queues.withBrackets (h : Queues d src o n r) (bs : List Bracket) :
    Queues d src o n { r with brackets := bs } :=
  ⟨⟨h.dialect, h.fault, h.rest, h.room⟩, h.bound, h.ended, h.still, h.queued_le⟩

theorem Queues.fetches (h : Queues d src o 0 r) (h' : Fetches d src r r') :
    Fetches d src o r' where
  toWithin := h'.toWithin
  bound := h'.bound.trans h.bound
  supply_le := by
    have hq := h.queued_le
    have hs := h'.supply_le
    unfold supply at hs ⊢
    rw [h.still] at hs
    omega
  opened := h'.opened
  goesOn := by
    rw [← h.still]
    exact h'.goesOn

theorem ReadsOn.fetches (h : o.ReadsOn d src r) (h' : Fetches d src r r') :
    Fetches d src o r' where
  toWithin := h'.toWithin
  bound := h'.bound.trans h.bound
  supply_le := by
    have hle := h.length_le
    have hs := h'.supply_le
    unfold supply at hs ⊢
    rw [h.queued_eq] at hs
    omega
  opened := h'.opened
  goesOn := h'.goesOn.imp id fun hlt => Nat.lt_of_lt_of_le hlt h.length_le

theorem Within.queues_push (h : r.Within d src) (t : Token) :
    Queues d src r t.worth { r with pending := r.pending ++ [t] } := by
  refine ⟨⟨h.dialect, h.fault, h.rest, h.room⟩, rfl, rfl, rfl, ?_⟩
  simp only [queued, List.map_append, List.sum_append, List.map_cons, List.map_nil,
    List.sum_cons, List.sum_nil]
  omega

/-- A token that takes characters pays for itself and for what was queued up before it. -/
theorem Queues.fetches_push (h : Queues d src o n r) (takes : r.Takes d src r')
    {t : Token} (notEnded : o.ended = false) (fits : n + t.worth ≤ 4) :
    Fetches d src o { r' with pending := r'.pending ++ [t] } := by
  have hpush := takes.toWithin.queues_push t
  have hended : r'.ended = false := by rw [takes.ended, h.ended, notEnded]
  refine ⟨hpush.toWithin, takes.bound.trans h.bound, ?_, open_of_not_ended hended, .inr ?_⟩
  · have hn := h.queued_le
    have ht := hpush.queued_le
    have hshorter := takes.shorter
    rw [takes.queued_eq] at ht
    rw [h.still] at hshorter
    show queued _ + 4 * r'.rest.length ≤ _
    unfold supply
    omega
  · rw [← h.still]
    exact takes.shorter

end Reader

namespace Scan

open Reader (Queues Fetches)

variable {d : Dialect} {src : Source} {o r : Reader} {α : Type} {n : Nat}

/-! ## Candidates -/

theorem runs_complain {context : Option (Context × Mark)} {p : Problem}
    {Q : α → Reader → Prop} : Runs src (complain context p) r Q := .get_bind (.throw trivial)

/-- Dropping candidates that are too far away leaves none that would be dropped again. -/
theorem runs_dropStale :
    Runs src dropStale r fun _ r' =>
      (∃ ks, r' = { r with candidates := ks }) ∧ dropStale.run r' = .ok ((), r') := by
  unfold dropStale
  apply Leads.get_bind
  extract_lets stale
  cases hfind : r.candidates.find? fun k => stale k && k.required with
  | some k => exact runs_complain
  | none =>
    refine .set ⟨⟨_, rfl⟩, ?_⟩
    have hfilter : (r.candidates.filter fun k => !stale k).filter (fun k => !stale k) =
        r.candidates.filter fun k => !stale k := by simp
    have hnone : (r.candidates.filter fun k => !stale k).find? (fun k => stale k && k.required) =
        none := by
      simp +contextual
    rw [run_bind_of_ok (run_get _)]
    dsimp only [stale] at hfilter hnone ⊢
    rw [hnone, hfilter]
    rfl

theorem runs_dropCandidate :
    Runs src dropCandidate r fun _ r' => ∃ ks, r' = { r with candidates := ks } := by
  unfold dropCandidate
  apply Leads.get_bind
  cases r.candidates.find? (·.depth == r.brackets.length) with
  | none => exact .pure ⟨r.candidates, rfl⟩
  | some k => exact .ite (fun _ => complain_bind) fun _ => .set ⟨_, rfl⟩

theorem runs_noteCandidate :
    Runs src noteCandidate r fun _ r' => ∃ ks, r' = { r with candidates := ks } := by
  unfold noteCandidate
  apply Leads.get_bind
  refine .ite (fun _ => ?_) fun _ => .pure ⟨r.candidates, rfl⟩
  refine runs_dropCandidate.bind fun _ r' h => ?_
  obtain ⟨ks, rfl⟩ := h
  exact .modify ⟨_, rfl⟩

/-! ## Tokens that are queued up -/

theorem runs_pushHere (k : TokenKind) :
    Runs src (pushHere k) r fun _ r' =>
      r' = { r with pending := r.pending ++ [⟨k, r.mark, r.mark⟩] } := by
  unfold pushHere
  apply here_bind
  exact .modify rfl

theorem fetches_pushSkipping {k : TokenKind} (h : Queues d src o n r) (notEnded : o.ended = false)
    (more : o.rest ≠ []) (fits : n + k.worth ≤ 4) {chars : Nat} (positive : 0 < chars) :
    Runs src (pushSkipping k chars) r fun _ r' => Fetches d src o r' := by
  unfold pushSkipping
  apply here_bind
  refine (takes_skip h.toWithin positive (by rw [h.still]; exact more)).bind fun _ r' takes => ?_
  apply here_bind
  exact .modify (h.fetches_push takes notEnded fits)

/-- Each collection that is closed has its end queued up in place of its indentation. -/
theorem queues_unwindLoop (column : Int) {outer : List Int} (hr : r.Within d src)
    (houter : r.outerIndents = outer) :
    Runs src (unwind.loop column outer) r fun _ r' => Queues d src r 0 r' := by
  induction outer generalizing r with
  | nil => exact .pure (.refl hr)
  | cons indent outer ih =>
    unfold unwind.loop
    apply Leads.get_bind
    refine .ite (fun _ => ?_) fun _ => .pure (.refl hr)
    refine (runs_pushHere .blockEnd).bind fun _ r₁ h₁ => ?_
    subst h₁
    apply Leads.modify_bind
    have hclosed : Queues d src r 0 { r with
        pending := r.pending ++ [⟨.blockEnd, r.mark, r.mark⟩]
        indent := indent, outerIndents := outer } := by
      have hpush := (hr.queues_push ⟨.blockEnd, r.mark, r.mark⟩).queued_le
      refine ⟨⟨hr.dialect, hr.fault, hr.rest, hr.room⟩, rfl, rfl, rfl, ?_⟩
      simp only [Reader.queued, houter, List.length_cons, Token.worth, TokenKind.worth] at hpush ⊢
      omega
    exact (ih hclosed.toWithin rfl).mono fun _ _ h => hclosed.trans h

theorem queues_unwind (column : Int) (hr : r.Within d src) :
    Runs src (unwind column) r fun _ r' => Queues d src r 0 r' := by
  unfold unwind
  apply Leads.get_bind
  exact .ite (fun _ => queues_unwindLoop column hr rfl) fun _ => .pure (.refl hr)

/-- A collection that is opened has its end still to come. -/
theorem queues_indentTo (column : Nat) (hr : r.Within d src) :
    Runs src (indentTo column) r fun _ r' => Queues d src r 1 r' := by
  unfold indentTo
  apply Leads.get_bind
  refine .ite (fun _ => ?_) fun _ => .pure ((Queues.refl hr).mono (by omega))
  apply Leads.set_bind
  refine .pure ⟨⟨hr.dialect, hr.fault, hr.rest, hr.room⟩, rfl, rfl, rfl, ?_⟩
  simp only [Reader.queued, List.length_cons]
  omega

theorem queues_openBlock (k : TokenKind) (hr : r.Within d src) :
    Runs src (openBlock k) r fun _ r' => Queues d src r (1 + k.worth) r' := by
  unfold openBlock
  apply here_bind
  refine (queues_indentTo _ hr).bind fun opened r₁ h₁ => ?_
  refine .ite (fun _ => ?_) fun _ => .pure (h₁.mono (by omega))
  refine (runs_pushHere k).mono fun _ r' h' => ?_
  subst h'
  exact h₁.trans (h₁.toWithin.queues_push ⟨k, r₁.mark, r₁.mark⟩)

theorem queues_leaveDocument (hr : r.Within d src) :
    Runs src leaveDocument r fun _ r' => Queues d src r 0 r' := by
  unfold leaveDocument
  refine (queues_unwind _ hr).bind fun _ r₁ h₁ => ?_
  refine runs_dropCandidate.bind fun _ r₂ h₂ => ?_
  obtain ⟨ks, rfl⟩ := h₂
  exact .modify ((h₁.withCandidates ks).withKeyAllowed false)

theorem sum_insertIdx_le (f : Token → Nat) (ts : List Token) (i : Nat) (t : Token) :
    ((ts.insertIdx i t).map f).sum ≤ (ts.map f).sum + f t := by
  induction ts generalizing i with
  | nil => cases i <;> simp
  | cons t' ts ih =>
    cases i with
    | zero =>
      simp only [List.insertIdx_zero, List.map_cons, List.sum_cons]
      omega
    | succ i =>
      have hrest := ih i
      simp only [List.insertIdx_succ_cons, List.map_cons, List.sum_cons]
      omega

theorem queues_insertBefore (key : CandidateKey) (k : TokenKind) (hr : r.Within d src) :
    Runs src (insertBefore key k) r fun _ r' => Queues d src r k.worth r' := by
  refine .modify ⟨⟨hr.dialect, hr.fault, hr.rest, hr.room⟩, rfl, rfl, rfl, ?_⟩
  have hsum := sum_insertIdx_le Token.worth r.pending (key.number - r.taken) ⟨k, key.mark, key.mark⟩
  simp only [Reader.queued, Token.worth] at hsum ⊢
  omega

/-! ## Reading ahead -/

section Fetching

variable (hr : r.Within d src) (notEnded : r.ended = false) (more : r.rest ≠ [])

include hr notEnded

theorem fetches_fetchStreamEnd : Runs src fetchStreamEnd r fun _ r' => Fetches d src r r' := by
  unfold fetchStreamEnd
  refine (queues_unwind _ hr).bind fun _ r₁ h₁ => ?_
  refine runs_dropCandidate.bind fun _ r₂ h₂ => ?_
  obtain ⟨ks, rfl⟩ := h₂
  apply Leads.modify_bind
  refine (runs_pushHere .streamEnd).bind fun _ r₃ h₃ => ?_
  subst h₃
  refine .modify ⟨⟨h₁.dialect, h₁.fault, h₁.rest, h₁.room⟩, h₁.bound, ?_, ?_, .inl rfl⟩
  · have hpush := (h₁.toWithin.queues_push ⟨.streamEnd, r₁.mark, r₁.mark⟩).queued_le
    have hqueued := h₁.queued_le
    have hended : r₁.ended = false := h₁.ended.trans notEnded
    simp only [Reader.supply, Reader.queued, Token.worth, TokenKind.worth, hended, notEnded,
      h₁.still] at hpush hqueued ⊢
    simp at hpush hqueued ⊢
    omega
  · intro _
    exact ⟨_, List.getLast?_concat, rfl⟩

include more

theorem fetches_fetchFlowStart (b : Bracket) :
    Runs src (fetchFlowStart b) r fun _ r' => Fetches d src r r' := by
  unfold fetchFlowStart
  refine runs_noteCandidate.bind fun _ r₁ h₁ => ?_
  obtain ⟨ks, rfl⟩ := h₁
  apply Leads.modify_bind
  apply Leads.modify_bind
  have h := ((Queues.refl hr).withCandidates ks).withBrackets (b :: r.brackets)
  have h := h.withKeyAllowed true
  cases b with
  | sequence => exact fetches_pushSkipping h notEnded more (by decide) (by omega)
  | mapping => exact fetches_pushSkipping h notEnded more (by decide) (by omega)

theorem fetches_fetchFlowEnd {k : TokenKind} (fits : k.worth ≤ 4) :
    Runs src (fetchFlowEnd k) r fun _ r' => Fetches d src r r' := by
  unfold fetchFlowEnd
  refine runs_dropCandidate.bind fun _ r₁ h₁ => ?_
  obtain ⟨ks, rfl⟩ := h₁
  apply Leads.modify_bind
  apply Leads.modify_bind
  have h := (((Queues.refl hr).withCandidates ks).withBrackets r.brackets.tail).withKeyAllowed false
  exact fetches_pushSkipping h notEnded more (by omega) (by omega)

theorem fetches_fetchFlowEntry : Runs src fetchFlowEntry r fun _ r' => Fetches d src r r' := by
  unfold fetchFlowEntry
  apply Leads.modify_bind
  refine runs_dropCandidate.bind fun _ r₁ h₁ => ?_
  obtain ⟨ks, rfl⟩ := h₁
  have h := ((Queues.refl hr).withKeyAllowed true).withCandidates ks
  exact fetches_pushSkipping h notEnded more (by decide) (by omega)

theorem fetches_fetchBlockEntry : Runs src fetchBlockEntry r fun _ r' => Fetches d src r r' := by
  unfold fetchBlockEntry
  apply Leads.get_bind
  extract_lets finish
  have hfinish : ∀ r₁, Queues d src r 2 r₁ → Runs src (finish ()) r₁ fun _ r' =>
      Fetches d src r r' := by
    intro r₁ h₁
    apply Leads.modify_bind
    refine runs_dropCandidate.bind fun _ r₂ h₂ => ?_
    obtain ⟨ks, rfl⟩ := h₂
    have h := (h₁.withKeyAllowed true).withCandidates ks
    exact fetches_pushSkipping h notEnded more (by decide) (by omega)
  refine .ite (fun _ => ?_) fun _ => hfinish r ((Queues.refl hr).mono (by omega))
  refine .ite (fun _ => complain_bind) fun _ => ?_
  exact (queues_openBlock _ hr).bind fun _ r₁ h₁ => hfinish r₁ h₁

theorem fetches_fetchKey : Runs src fetchKey r fun _ r' => Fetches d src r r' := by
  unfold fetchKey
  apply Leads.get_bind
  extract_lets finish
  have hfinish : ∀ r₁, Queues d src r 2 r₁ → Runs src (finish ()) r₁ fun _ r' =>
      Fetches d src r r' := by
    intro r₁ h₁
    apply Leads.modify_bind
    refine runs_dropCandidate.bind fun _ r₂ h₂ => ?_
    obtain ⟨ks, rfl⟩ := h₂
    have h := (h₁.withKeyAllowed (!r.inFlow)).withCandidates ks
    exact fetches_pushSkipping h notEnded more (by decide) (by omega)
  refine .ite (fun _ => ?_) fun _ => hfinish r ((Queues.refl hr).mono (by omega))
  refine .ite (fun _ => complain_bind) fun _ => ?_
  exact (queues_openBlock _ hr).bind fun _ r₁ h₁ => hfinish r₁ h₁

/-- The one character of a colon pays for four tokens: that of the value, that of the key before it,
and the start and the end of the mapping. -/
theorem fetches_fetchValue : Runs src fetchValue r fun _ r' => Fetches d src r r' := by
  unfold fetchValue
  apply Leads.get_bind
  extract_lets finish afterKey afterNone
  have hfinish : ∀ r₁, Queues d src r 3 r₁ → Runs src (finish ()) r₁ fun _ r' =>
      Fetches d src r r' :=
    fun r₁ h₁ => fetches_pushSkipping h₁ notEnded more (by decide) (by omega)
  have hkey : ∀ r₁, Queues d src r 3 r₁ → Runs src (afterKey ()) r₁ fun _ r' =>
      Fetches d src r r' := fun r₁ h₁ => .modify_bind (hfinish _ (h₁.withKeyAllowed false))
  have hnone : ∀ r₁, Queues d src r 3 r₁ → Runs src (afterNone ()) r₁ fun _ r' =>
      Fetches d src r r' := by
    intro r₁ h₁
    apply Leads.modify_bind
    refine runs_dropCandidate.bind fun _ r₂ h₂ => ?_
    obtain ⟨ks, rfl⟩ := h₂
    exact hfinish _ ((h₁.withKeyAllowed (!r.inFlow)).withCandidates ks)
  cases r.candidates.find? (·.depth == r.brackets.length) with
  | some key =>
    apply Leads.set_bind
    have h₁ := (Queues.refl hr).withCandidates
      (r.candidates.filter (·.depth != r.brackets.length))
    refine (queues_insertBefore key .key h₁.toWithin).bind fun _ r₂ h₂ => ?_
    have h₂ := h₁.trans h₂
    refine .ite (fun _ => ?_) fun _ => hkey r₂ (h₂.mono (by decide))
    refine (queues_indentTo _ h₂.toWithin).bind fun opened r₃ h₃ => ?_
    have h₃ := h₂.trans h₃
    refine .ite (fun _ => ?_) fun _ => hkey r₃ (h₃.mono (by decide))
    refine (queues_insertBefore key .blockMappingStart h₃.toWithin).bind fun _ r₄ h₄ => ?_
    exact hkey r₄ ((h₃.trans h₄).mono (by decide))
  | none =>
    refine .ite (fun _ => ?_) fun _ => hnone r ((Queues.refl hr).mono (by omega))
    refine .ite (fun _ => complain_bind) fun _ => ?_
    refine (queues_openBlock _ hr).bind fun _ r₁ h₁ => ?_
    exact hnone r₁ (h₁.mono (by decide))

omit more in
theorem fetches_fetchInline {scan : Scan Token}
    (takes : ∀ ks, Runs src scan { r with candidates := ks, keyAllowed := false } fun _ r' =>
      Reader.Takes d src { r with candidates := ks, keyAllowed := false } r') :
    Runs src (fetchInline scan) r fun _ r' => Fetches d src r r' := by
  unfold fetchInline
  refine runs_noteCandidate.bind fun _ r₁ h₁ => ?_
  obtain ⟨ks, rfl⟩ := h₁
  apply Leads.modify_bind
  have h := ((Queues.refl hr).withCandidates ks).withKeyAllowed false
  refine (takes ks).bind fun t r' htakes => ?_
  exact .modify (h.fetches_push htakes notEnded (by simpa using t.worth_le))

theorem fetches_fetchBlockScalar (style : BlockStyle) :
    Runs src (fetchBlockScalar style) r fun _ r' => Fetches d src r r' := by
  unfold fetchBlockScalar
  apply Leads.modify_bind
  refine runs_dropCandidate.bind fun _ r₁ h₁ => ?_
  obtain ⟨ks, rfl⟩ := h₁
  have h := ((Queues.refl hr).withKeyAllowed true).withCandidates ks
  refine (takes_blockScalar style h.toWithin more).bind fun t r' htakes => ?_
  exact .modify (h.fetches_push htakes notEnded (by simpa using t.worth_le))

end Fetching

/-! ## What stands next -/

theorem runs_nextEndsWord (hr : r.Within d src) :
    Runs src nextEndsWord r fun b r' =>
      r' = r ∧ b = r.dialect.endsWord (r.rest.getD 1 endChar) := by
  unfold nextEndsWord
  apply peek_bind hr
  exact .get_bind (.pure ⟨rfl, rfl⟩)

/-- A colon that stands for no value has more of a word after it. -/
theorem runs_atValue (hr : r.Within d src) :
    Runs src atValue r fun b r' =>
      r' = r ∧ (b = false → r.dialect.endsWord (r.rest.getD 1 endChar) = false) := by
  have hnext : Runs src nextEndsWord r fun b r' =>
      r' = r ∧ (b = false → r.dialect.endsWord (r.rest.getD 1 endChar) = false) :=
    (runs_nextEndsWord hr).mono fun b r' h => ⟨h.1, fun hb => h.2 ▸ hb⟩
  unfold atValue
  apply Leads.get_bind
  cases r.brackets with
  | nil => exact hnext
  | cons b outer =>
    refine .ite (fun _ => .pure ⟨rfl, by simp⟩) fun _ => ?_
    exact .ite (fun _ => hnext) fun _ => .pure ⟨rfl, by simp⟩

theorem runs_atKey (hr : r.Within d src) : Runs src atKey r fun _ r' => r' = r := by
  unfold atKey
  apply Leads.get_bind
  refine .ite (fun _ => .pure rfl) fun _ => ?_
  exact (runs_nextEndsWord hr).mono fun _ _ h => h.1

theorem runs_atLineStart (hr : r.Within d src) (marker : List Char) :
    Runs src (atLineStart marker) r fun _ r' => r' = r := by
  unfold atLineStart
  apply here_bind
  refine .ite (fun _ => ?_) fun _ => .pure rfl
  unfold atMarker
  apply look_bind hr
  refine .ite (fun _ => ?_) fun _ => .pure rfl
  apply Leads.get_bind
  apply peek_bind hr
  exact .pure rfl

/-- A character that starts nothing else does not end a plain scalar either. -/
theorem endsPlain_of_not_startsOther {r : Reader} {c next : Char} (h : startsOther c = false) :
    c ≠ '#' ∧ endsPlain r c next = false := by
  have hother : ∀ c', startsOther c' = true → c ≠ c' := by
    rintro c' hc' rfl
    rw [h] at hc'
    cases hc'
  have hword : ∀ d : Dialect, d.endsWord c = false := by
    intro d
    unfold startsOther isSpaceBreakOrEnd isBreakOrEnd isBreak at h
    unfold Dialect.endsWord Dialect.endsLine
    grind
  have hflow : isFlowIndicator c = false := by
    unfold startsOther at h
    grind
  have hcolon := hother ':' (by decide)
  have hmark := hother '?' (by decide)
  refine ⟨hother '#' (by decide), ?_⟩
  unfold endsPlain
  cases r.dialect <;> simp [hword, hflow, hcolon, hmark]

/-- Neither does one of the three indicators that may start one. -/
theorem endsPlain_of_indicator {r : Reader} {c next : Char}
    (word : c = ':' → r.dialect.endsWord next = false)
    (starts : c = '-' ∨ (c = ':' ∧ r.dialect = .modern) ∨
      (r.inFlow = false ∧ (c = '?' ∨ c = ':'))) : c ≠ '#' ∧ endsPlain r c next = false := by
  unfold endsPlain
  rcases starts with rfl | ⟨rfl, hmodern⟩ | ⟨hflow, rfl | rfl⟩
  · have hword : ∀ d : Dialect, d.endsWord '-' = false := by intro d; cases d <;> rfl
    have hflow : isFlowIndicator '-' = false := rfl
    cases r.dialect <;> simp [hword, hflow]
  · rw [hmodern] at word ⊢
    simp [word rfl]
  · have hword : ∀ d : Dialect, d.endsWord '?' = false := by intro d; cases d <;> rfl
    cases r.dialect <;> simp [hword, hflow]
  · have hword : ∀ d : Dialect, d.endsWord ':' = false := by intro d; cases d <;> rfl
    have hnext := word rfl
    cases hd : r.dialect <;> rw [hd] at hnext <;> simp [hword, hflow, hnext]

/-- Where a plain scalar may start, it does not end. -/
theorem runs_atPlain (hr : r.Within d src) {c : Char}
    (colon : c = ':' → r.dialect.endsWord (r.rest.getD 1 endChar) = false) :
    Runs src (atPlain c) r fun b r' =>
      r' = r ∧ (b = true → c ≠ '#' ∧ endsPlain r c (r.rest.getD 1 endChar) = false) := by
  unfold atPlain
  refine .ite (fun hother => ?_) fun hother => ?_
  · exact .pure ⟨rfl, fun _ => endsPlain_of_not_startsOther (by simpa using hother)⟩
  apply peek_bind hr
  refine .get_bind (.pure ⟨rfl, fun hplain => endsPlain_of_indicator colon ?_⟩)
  simp only [Bool.or_eq_true, Bool.and_eq_true, beq_iff_eq, Bool.not_eq_true'] at hplain
  rcases hplain with ⟨⟨⟨⟨hnew, hc⟩, -⟩, -⟩, -⟩ | ⟨-, hc | ⟨hflow, hc⟩⟩
  · refine .inr (.inl ⟨hc, ?_⟩)
    unfold Reader.oldRules at hnew
    cases hd : r.dialect with
    | modern => rfl
    | classic => simp [hd] at hnew
  · exact .inl hc
  · exact .inr (.inr ⟨hflow, hc⟩)

theorem plainRun_ne_nil {c : Char} {cs : List Char} (rest : r.rest = c :: cs)
    (h : endsPlain r c (r.rest.getD 1 endChar) = false) : plainRun r r.rest ≠ [] := by
  have hfirst : endsPlain r c (cs.headD endChar) = false := by
    rw [rest] at h
    cases cs with
    | nil => exact h
    | cons next cs => exact h
  rw [rest, plainRun, hfirst]
  simp

theorem fetches_plainOr (hr : r.Within d src) (notEnded : r.ended = false) {c : Char}
    (here : r.rest.getD 0 endChar = c) (more : c ≠ endChar)
    (colon : c = ':' → r.dialect.endsWord (r.rest.getD 1 endChar) = false) :
    Runs src (fetchBy.plainOr c) r fun _ r' => Fetches d src r r' := by
  unfold fetchBy.plainOr
  refine (runs_atPlain hr colon).bind fun plain r' h => ?_
  obtain ⟨rfl, hplain⟩ := h
  refine .ite (fun hp => ?_) fun _ => here_bind (.throw trivial)
  obtain ⟨hcontent, hends⟩ := hplain hp
  obtain ⟨cs, hrest⟩ := Reader.rest_eq_cons here more
  apply fetches_fetchInline hr notEnded
  intro ks
  have hwithin := (((Queues.refl hr).withCandidates ks).withKeyAllowed false).toWithin
  apply takes_plainScalar hwithin
  · rw [here]
    exact hcontent
  · exact plainRun_ne_nil hrest hends

/-- Reading one more token takes a character, unless it meets the end. -/
theorem fetches_fetchBy (hr : r.Within d src) (notEnded : r.ended = false) {c : Char}
    (here : r.rest.getD 0 endChar = c) :
    Runs src (fetchBy c) r fun _ r' => Fetches d src r r' := by
  unfold fetchBy
  apply Leads.get_bind
  refine .ite (fun _ => fetches_fetchStreamEnd hr notEnded) fun hmore => ?_
  have hmore : c ≠ endChar := by simpa using hmore
  have more : r.rest ≠ [] := Reader.rest_ne_nil here hmore
  have hplain : c ≠ ':' → Runs src (fetchBy.plainOr c) r fun _ r' => Fetches d src r r' :=
    fun hc => fetches_plainOr hr notEnded here hmore fun h => absurd h hc
  have hinline : ∀ {scan : Scan Token},
      (∀ {r : Reader}, r.Within d src → r.rest ≠ [] →
        Runs src scan r fun _ r' => r.Takes d src r') →
      Runs src (fetchInline scan) r fun _ r' => Fetches d src r r' := fun takes =>
    fetches_fetchInline hr notEnded fun ks =>
      takes (((Queues.refl hr).withCandidates ks).withKeyAllowed false).toWithin more
  refine .ite (fun _ => ?_) fun _ => ?_
  · refine (queues_leaveDocument hr).bind fun _ r₁ h₁ => ?_
    have more₁ : r₁.rest ≠ [] := by rwa [h₁.still]
    refine (takes_directive h₁.toWithin more₁).bind fun t r' htakes => ?_
    exact .modify (h₁.fetches_push htakes notEnded (by simpa using t.worth_le))
  refine .ite (fun hc => ?_) fun _ => ?_
  · refine (runs_atLineStart hr _).bind fun starts r₁ h₁ => ?_
    subst h₁
    refine .ite (fun _ => ?_) fun _ => ?_
    · refine (queues_leaveDocument hr).bind fun _ r₁ h₁ => ?_
      exact fetches_pushSkipping h₁ notEnded more (by decide) (by omega)
    refine (runs_nextEndsWord hr).bind fun ends r₂ h₂ => ?_
    rw [h₂.1]
    refine .ite (fun _ => fetches_fetchBlockEntry hr notEnded more) fun _ => ?_
    apply hplain
    rintro rfl
    cases hc
  refine .ite (fun hc => ?_) fun _ => ?_
  · refine (runs_atLineStart hr _).bind fun starts r₁ h₁ => ?_
    subst h₁
    refine .ite (fun _ => ?_) fun _ => ?_
    · refine (queues_leaveDocument hr).bind fun _ r₁ h₁ => ?_
      exact fetches_pushSkipping h₁ notEnded more (by decide) (by omega)
    apply hplain
    rintro rfl
    cases hc
  refine .ite (fun _ => fetches_fetchFlowStart hr notEnded more _) fun _ => ?_
  refine .ite (fun _ => fetches_fetchFlowStart hr notEnded more _) fun _ => ?_
  refine .ite (fun _ => fetches_fetchFlowEnd hr notEnded more (by decide)) fun _ => ?_
  refine .ite (fun _ => fetches_fetchFlowEnd hr notEnded more (by decide)) fun _ => ?_
  refine .ite (fun _ => fetches_fetchFlowEntry hr notEnded more) fun _ => ?_
  refine .ite (fun hc => ?_) fun _ => ?_
  · refine (runs_atKey hr).bind fun starts r₁ h₁ => ?_
    subst h₁
    refine .ite (fun _ => fetches_fetchKey hr notEnded more) fun _ => ?_
    apply hplain
    rintro rfl
    cases hc
  refine .ite (fun _ => ?_) fun hc => ?_
  · refine (runs_atValue hr).bind fun starts r₁ h₁ => ?_
    obtain ⟨rfl, hword⟩ := h₁
    refine .ite (fun _ => fetches_fetchValue hr notEnded more) fun hstarts => ?_
    exact fetches_plainOr hr notEnded here hmore fun _ => hword (by simpa using hstarts)
  refine .ite (fun _ => hinline takes_aliasTo) fun _ => ?_
  refine .ite (fun _ => hinline takes_anchor) fun _ => ?_
  refine .ite (fun _ => hinline takes_tag) fun _ => ?_
  refine .ite (fun _ => fetches_fetchBlockScalar hr notEnded more _) fun _ => ?_
  refine .ite (fun _ => fetches_fetchBlockScalar hr notEnded more _) fun _ => ?_
  refine .ite (fun _ => hinline (takes_quotedScalar _)) fun _ => ?_
  refine .ite (fun _ => hinline (takes_quotedScalar _)) fun _ => ?_
  exact hplain (by simpa using hc)

theorem fetches_fetchMore (hr : r.Within d src) (notEnded : r.ended = false) :
    Runs src fetchMore r fun _ r' => Fetches d src r r' := by
  unfold fetchMore
  refine (scans_skipToNextToken.runs hr).bind fun _ r₁ h₁ => ?_
  refine runs_dropStale.bind fun _ r₂ h₂ => ?_
  obtain ⟨⟨ks, rfl⟩, -⟩ := h₂
  have h₂ := (Queues.refl h₁.toWithin).withCandidates ks
  apply here_bind
  refine (queues_unwind _ h₂.toWithin).bind fun _ r₃ h₃ => ?_
  have h₃ := h₂.trans h₃
  apply peek_bind h₃.toWithin
  have notEnded₃ : r₃.ended = false := (h₃.ended.trans h₁.ended).trans notEnded
  refine (fetches_fetchBy h₃.toWithin notEnded₃ rfl).mono fun _ _ h => ?_
  exact h₁.fetches (h₃.fetches h)

end Scan

/-! ## Certain tokens -/

namespace Reader

/-- The first of the tokens that wait is certain. -/
def Settled (r : Reader) : Prop := Scan.needsMore.run r = .ok (false, r)

/-- The next token is certain and waits. -/
def Shows (r : Reader) (t : Token) : Prop := r.Settled ∧ r.pending.head? = some t

/-- The reader once it has given the first of the tokens that wait. -/
def pass (r : Reader) : Reader := { r with pending := r.pending.tail, taken := r.taken + 1 }

/-- A reader that has not given the end of the stream yet, and has no more tokens to give than a
parser has steps. -/
structure Ready (d : Dialect) (src : Source) (r : Reader) : Prop
    extends Reader.Within d src r where
  opened : r.Open
  supply_lt : r.supply < 4 * r.bound

/-- A reader that has made sure of the next token since it was `o`. -/
structure Certain (d : Dialect) (src : Source) (o : Reader) (t : Token) (r : Reader) : Prop
    extends Reader.Ready d src r where
  shows : r.Shows t
  bound : r.bound = o.bound
  supply_mono : r.supply ≤ o.supply

variable {d : Dialect} {src : Source} {r : Reader} {t : Token}

theorem supply_start (d : Dialect) (src : Source) :
    (Reader.start d src).supply = 4 * src.chars.length + 2 := by
  show 1 + 0 + 0 + 1 + 4 * src.chars.length = 4 * src.chars.length + 2
  omega

theorem ready_start (d : Dialect) (src : Source) : (Reader.start d src).Ready d src := by
  refine ⟨⟨rfl, rfl, List.suffix_rfl, Nat.le_refl _⟩, open_of_not_ended rfl, ?_⟩
  rw [supply_start]
  show 4 * src.chars.length + 2 < 4 * (src.chars.length + 4)
  omega

theorem shows_start (d : Dialect) (src : Source) :
    (Reader.start d src).Shows ⟨.streamStart, ⟨0, 0, 0⟩, ⟨0, 0, 0⟩⟩ := ⟨rfl, rfl⟩

theorem Shows.pending_eq (h : r.Shows t) : r.pending = t :: r.pending.tail := by
  cases hpending : r.pending with
  | nil => simp [Shows, hpending] at h
  | cons t' later =>
    have hhead := h.2
    rw [hpending] at hhead
    cases hhead
    rfl

theorem Shows.supply_pass (h : r.Shows t) : r.pass.supply + t.worth = r.supply := by
  have hsum : (r.pending.map Token.worth).sum = t.worth + (r.pass.pending.map Token.worth).sum := by
    rw [h.pending_eq]
    rfl
  unfold supply queued
  rw [hsum]
  show (r.pass.pending.map Token.worth).sum + r.outerIndents.length + (if r.ended then 0 else 1)
    + 4 * r.rest.length + t.worth = _
  omega

theorem Within.pass (h : r.Within d src) : r.pass.Within d src :=
  ⟨h.dialect, h.fault, h.rest, h.room⟩

theorem Certain.pass {o : Reader} (h : o.Certain d src t r) (hkind : t.kind ≠ .streamEnd) :
    r.pass.Ready d src := by
  refine ⟨h.toWithin.pass, fun hended => ?_, ?_⟩
  · obtain ⟨last, hlast, hend⟩ := h.opened hended
    refine ⟨last, ?_, hend⟩
    rw [h.shows.pending_eq] at hlast
    show r.pending.tail.getLast? = some last
    cases hlater : r.pending.tail with
    | nil =>
      rw [hlater] at hlast
      cases hlast
      exact absurd hend hkind
    | cons t' later =>
      rw [hlater] at hlast
      rw [← hlast, List.getLast?_cons_cons]
  · have hsupply := h.shows.supply_pass
    have hlt := h.toReady.supply_lt
    show r.pass.supply < 4 * r.bound
    omega

theorem Ready.certain (h : r.Ready d src) (shows : r.Shows t) : r.Certain d src t r :=
  ⟨h, shows, rfl, Nat.le_refl _⟩

theorem Certain.supply_pass_lt {o : Reader} (h : o.Certain d src t r) :
    r.pass.supply < o.supply := by
  have hcost := h.shows.supply_pass
  have hworth : 0 < t.worth := t.kind.worth_pos
  have hle := h.supply_mono
  omega

end Reader

namespace Scan

variable {d : Dialect} {src : Source} {o r : Reader} {α : Type} {n : Nat} {t : Token}

theorem runs_needsMore :
    Runs src needsMore r fun more r' => (∃ ks, r' = { r with candidates := ks }) ∧
      (more = true → r.ended = false) ∧
      (more = false → r'.Settled ∧ (r.ended = true ∨ r.pending ≠ [])) := by
  unfold needsMore
  apply Leads.get_bind
  refine .ite (fun hended => ?_) fun hended => .ite (fun _ => ?_) fun hpending => ?_
  · refine .pure ⟨⟨r.candidates, rfl⟩, by simp, fun _ => ⟨?_, .inl hended⟩⟩
    unfold Reader.Settled needsMore
    rw [run_bind_of_ok (run_get r), if_pos hended]
    rfl
  · exact .pure ⟨⟨r.candidates, rfl⟩, fun _ => by simpa using hended, by simp⟩
  · refine runs_dropStale.bind fun _ r' h => ?_
    obtain ⟨⟨ks, rfl⟩, hstale⟩ := h
    refine .get_bind (.pure ⟨⟨ks, rfl⟩, fun _ => by simpa using hended, fun hnone => ⟨?_, ?_⟩⟩)
    · unfold Reader.Settled needsMore
      rw [run_bind_of_ok (run_get _), if_neg hended, if_neg hpending, run_bind_of_ok hstale,
        run_bind_of_ok (run_get _), hnone]
      rfl
    · exact .inr (by simpa using hpending)

/-- Reading ahead comes to its end: each round takes a character or meets the end of the stream. -/
theorem runs_settle {fuel : Nat} (hr : r.Within d src) (opened : r.Open)
    (enough : (if r.ended = true then 0 else r.rest.length + 1) < fuel) :
    Runs src (settle fuel) r fun _ r' => r'.Within d src ∧ r'.Open ∧ r'.Settled ∧
      r'.pending ≠ [] ∧ r'.bound = r.bound ∧ r'.supply ≤ r.supply := by
  induction fuel generalizing r with
  | zero => omega
  | succ fuel ih =>
    unfold settle
    refine runs_needsMore.bind fun more r₁ h₁ => ?_
    obtain ⟨⟨ks, rfl⟩, hmore, hdone⟩ := h₁
    have hq := (Reader.Queues.refl hr).withCandidates ks
    refine .ite (fun hm => ?_) fun hm => ?_
    · have hended := hmore hm
      refine (fetches_fetchMore hq.toWithin hended).bind fun _ r₂ h₂ => ?_
      have h₂ := hq.fetches h₂
      -- A token may take no character only where it ends the stream.
      have hroom : (if r₂.ended = true then 0 else r₂.rest.length + 1) < fuel := by
        have hgoesOn := h₂.goesOn
        rw [hended] at enough
        simp only [Bool.false_eq_true, if_false] at enough
        split <;> simp_all <;> omega
      refine (ih h₂.toWithin h₂.opened hroom).mono fun _ r' h' => ?_
      obtain ⟨hwithin, hopen, hsettled, hpending, hbound, hsupply⟩ := h'
      exact ⟨hwithin, hopen, hsettled, hpending, hbound.trans h₂.bound,
        Nat.le_trans hsupply h₂.supply_le⟩
    · obtain ⟨hsettled, hleft⟩ := hdone (by simpa using hm)
      refine .pure ⟨hq.toWithin, opened, hsettled, ?_, rfl, Nat.le_refl _⟩
      rcases hleft with hended | hpending
      · obtain ⟨t, hlast, -⟩ := opened hended
        intro hnil
        rw [show r.pending = [] from hnil] at hlast
        cases hlast
      · exact hpending

theorem runs_peekToken (hr : r.Ready d src) :
    Runs src peekToken r fun t r' => r.Certain d src t r' := by
  have hroom := hr.room
  have hlength := hr.rest.length_le
  have enough : (if r.ended = true then 0 else r.rest.length + 1) < r.bound := by
    split <;> omega
  unfold peekToken fuelLeft
  refine Leads.get_bind ((runs_settle hr.toWithin hr.opened enough).bind fun _ r' h => ?_)
  obtain ⟨hwithin, hopen, hsettled, hpending, hbound, hsupply⟩ := h
  apply Leads.get_bind
  cases hlater : r'.pending with
  | nil => exact absurd hlater hpending
  | cons t later =>
    have hlt := hr.supply_lt
    exact .pure ⟨⟨hwithin, hopen, by omega⟩, ⟨hsettled, by rw [hlater]; rfl⟩, hbound, hsupply⟩

theorem run_peekToken_of_shows (hr : r.Within d src) (h : r.Shows t) :
    peekToken.run r = .ok (t, r) := by
  obtain ⟨n, hn⟩ : ∃ n, r.bound = n + 1 := ⟨r.bound - 1, by have := hr.room; omega⟩
  have hsettle : (settle (n + 1)).run r = .ok ((), r) := by
    unfold settle
    rw [run_bind_of_ok h.1]
    rfl
  have hfuel : fuelLeft.run r = .ok (n + 1, r) := by
    rw [← hn]
    rfl
  unfold peekToken
  rw [run_bind_of_ok hfuel, run_bind_of_ok hsettle, run_bind_of_ok (run_get r), h.pending_eq]
  rfl

theorem run_takeToken_of_shows (hr : r.Within d src) (h : r.Shows t) :
    takeToken.run r = .ok (t, r.pass) := by
  unfold takeToken
  rw [run_bind_of_ok (run_peekToken_of_shows hr h)]
  rfl

end Scan

end YamlCheck.Yaml
