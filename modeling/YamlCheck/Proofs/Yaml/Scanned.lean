import YamlCheck.Proofs.Yaml.Keeps

/-!
# What the readers of tokens raise

A reader of characters stays in its dialect and in its source.  All it raises are complaints, apart
from the fault of the source, a version number that is too long, and an escape for no character; an
escape for a number that is too large for any code breaks it down.
-/

namespace YamlCheck.Yaml

open YamlCheck.Text YamlCheck.Number

/-- Whether some characters of a text, read as the digits of an escape, are out of all bounds. -/
def HugeEscape (cs : List Char) : Prop :=
  ∃ ds, ds <:+: cs ∧ ds.length ≤ 8 ∧ 0x7fffffff < digitsValue 16 ds

/-- Whether some characters of a text, read as the digits of an escape, are the code of no
character. -/
def ForeignEscape (cs : List Char) : Prop :=
  ∃ ds, ds <:+: cs ∧ ds.length ≤ 8 ∧ 0x10ffff < digitsValue 16 ds

/-- The one breakdown of a reader of `cs`. -/
def ScanFault (cs : List Char) (b : Breakdown) : Prop := b = .hugeCodePoint ∧ HugeEscape cs

/-- What a reader of a source raises that is no complaint. -/
inductive ScanFailure (src : Source) : LoadError → Prop
  | unreadable {f : ReadFault} (fault : src.fault = some f) : ScanFailure src (.unreadable f)
  | numeral {ds : List Char} {p : NumeralProblem} (digits : ds <:+: src.chars)
      (unread : readInteger 10 (String.ofList ds) = .error p) :
      ScanFailure src (.badValue (.numeral p))
  | codePoint (escape : ForeignEscape src.chars) : ScanFailure src (.badValue .codePoint)
  | hugeCodePoint (escape : HugeEscape src.chars) : ScanFailure src (.breakdown .hugeCodePoint)

theorem ScanFailure.scanFault {src : Source} {b : Breakdown}
    (h : ScanFailure src (.breakdown b)) : ScanFault src.chars b := by
  cases h with
  | hugeCodePoint escape => exact ⟨rfl, escape⟩

/-- A reader of a dialect that stands somewhere in a source, with a bound that is large enough for
its loops. -/
structure Reader.Within (d : Dialect) (src : Source) (r : Reader) : Prop where
  dialect : r.dialect = d
  fault : r.fault = src.fault
  rest : r.rest <:+ src.chars
  room : src.chars.length + 4 ≤ r.bound

/-- A reader that has read on from `o` and has left the queue of tokens and the indentations around
it alone. -/
structure Reader.ReadsOn (d : Dialect) (src : Source) (o r : Reader) : Prop
    extends Reader.Within d src r where
  bound : r.bound = o.bound
  pending : r.pending = o.pending
  outerIndents : r.outerIndents = o.outerIndents
  ended : r.ended = o.ended
  ahead : r.rest <:+ o.rest

/-- A reader that has read on from `o` by at least one character. -/
structure Reader.Takes (d : Dialect) (src : Source) (o r : Reader) : Prop
    extends Reader.ReadsOn d src o r where
  shorter : r.rest.length < o.rest.length

namespace Reader

variable {d : Dialect} {src : Source} {o r r' : Reader}

theorem Within.lt_bound (h : r.Within d src) : src.chars.length < r.bound := by
  have hroom := h.room
  omega

theorem ReadsOn.refl (h : r.Within d src) : r.ReadsOn d src r where
  toWithin := h
  bound := rfl
  pending := rfl
  outerIndents := rfl
  ended := rfl
  ahead := List.suffix_rfl

theorem ReadsOn.trans (h : o.ReadsOn d src r) (h' : r.ReadsOn d src r') :
    o.ReadsOn d src r' where
  toWithin := h'.toWithin
  bound := h'.bound.trans h.bound
  pending := h'.pending.trans h.pending
  outerIndents := h'.outerIndents.trans h.outerIndents
  ended := h'.ended.trans h.ended
  ahead := h'.ahead.trans h.ahead

theorem ReadsOn.withVersion (h : o.ReadsOn d src r) (v : Option Version) :
    o.ReadsOn d src { r with version := v } :=
  ⟨⟨h.dialect, h.fault, h.rest, h.room⟩, h.bound, h.pending, h.outerIndents, h.ended, h.ahead⟩

theorem ReadsOn.withKeyAllowed (h : o.ReadsOn d src r) (b : Bool) :
    o.ReadsOn d src { r with keyAllowed := b } :=
  ⟨⟨h.dialect, h.fault, h.rest, h.room⟩, h.bound, h.pending, h.outerIndents, h.ended, h.ahead⟩

theorem ReadsOn.length_le (h : o.ReadsOn d src r) : r.rest.length ≤ o.rest.length :=
  h.ahead.length_le

theorem ReadsOn.takes (h : o.ReadsOn d src r) (h' : r.Takes d src r') : o.Takes d src r' where
  toReadsOn := h.trans h'.toReadsOn
  shorter := Nat.lt_of_lt_of_le h'.shorter h.length_le

theorem Takes.readsOn (h : o.Takes d src r) (h' : r.ReadsOn d src r') : o.Takes d src r' where
  toReadsOn := h.toReadsOn.trans h'
  shorter := Nat.lt_of_le_of_lt h'.length_le h.shorter

/-- A run that starts at the first character takes it. -/
theorem ReadsOn.takes_of_dropWhile {p : Char → Bool} (h : o.ReadsOn d src r)
    (run : r.rest = o.rest.dropWhile p) (more : p endChar = false)
    (first : p (o.rest.getD 0 endChar) = true) : o.Takes d src r := by
  refine ⟨h, ?_⟩
  rw [run]
  cases hrest : o.rest with
  | nil =>
    rw [hrest] at first
    exact absurd (more.symm.trans first) (by decide)
  | cons c cs =>
    have hfirst : p c = true := by rwa [hrest] at first
    rw [List.dropWhile_cons_of_pos hfirst]
    exact Nat.lt_succ_of_le (List.dropWhile_suffix p).length_le

theorem rest_eq_of_dropWhile {p : Char → Bool} (run : r.rest = o.rest.dropWhile p)
    (first : p (o.rest.getD 0 endChar) = false) : r.rest = o.rest := by
  rw [run]
  cases hrest : o.rest with
  | nil => rfl
  | cons c cs =>
    rw [hrest] at first
    exact List.dropWhile_cons_of_neg (by simpa using first)

/-- The first character that is not the end is one that is left. -/
theorem rest_eq_cons {c : Char} (h : r.rest.getD 0 endChar = c) (hc : c ≠ endChar) :
    ∃ cs, r.rest = c :: cs := by
  cases hrest : r.rest with
  | nil =>
    rw [hrest] at h
    exact (hc h.symm).elim
  | cons c' cs =>
    rw [hrest] at h
    obtain rfl : c' = c := h
    exact ⟨cs, rfl⟩

theorem rest_ne_nil {c : Char} (h : r.rest.getD 0 endChar = c) (hc : c ≠ endChar) :
    r.rest ≠ [] := by
  obtain ⟨cs, hrest⟩ := rest_eq_cons h hc
  simp [hrest]

end Reader

/-- A reader's computation that fails from a reader only at the source, at a number or at an
escape. -/
abbrev Runs (src : Source) {α : Type} (m : Scan α) (r : Reader) (Q : α → Reader → Prop) : Prop :=
  Leads (LoadError.Among (ScanFailure src)) m r Q

/-- A reader's computation that reads on, and only fails so, wherever a reader stands that has read
on from `o`. -/
abbrev Scans (d : Dialect) (src : Source) (o : Reader) {α : Type} (m : Scan α) : Prop :=
  Keeps (Reader.ReadsOn d src o) (LoadError.Among (ScanFailure src)) m fun _ => True

theorem Scans.runs {d : Dialect} {src : Source} {r : Reader} {α : Type} {m : Scan α}
    (h : Scans d src r m) (hr : r.Within d src) : Runs src m r fun _ r' => r.ReadsOn d src r' :=
  (h r (.refl hr)).mono fun _ _ h' => h'.1

namespace Scan

variable {d : Dialect} {src : Source} {o r : Reader} {α : Type}

theorem scans_of_runs {m : Scan α}
    (h : ∀ r, r.Within d src → Runs src m r fun _ r' => r.ReadsOn d src r') : Scans d src o m :=
  fun r hr => (h r hr.toWithin).mono fun _ _ h' => ⟨hr.trans h', trivial⟩

/-- A loop that reads on if it has more rounds than there are characters left does so if it has more
rounds than there are characters in the source. -/
theorem scans_of_loop {m : Scan α} {fuel : Nat} (enough : src.chars.length < fuel)
    (h : ∀ r, r.Within d src → r.rest.length < fuel →
      Runs src m r fun _ r' => r.ReadsOn d src r') : Scans d src o m :=
  scans_of_runs fun r hr => h r hr (Nat.lt_of_le_of_lt hr.rest.length_le enough)

/-! ## Characters -/

theorem scans_complain (context : Option (Context × Mark)) (p : Problem) :
    Scans d src o (complain context p : Scan α) := by
  unfold complain
  refine Keeps.get.step fun r => ?_
  exact .throw trivial

theorem complain_bind {β : Type} {context : Option (Context × Mark)} {p : Problem}
    {f : α → Scan β} {Q : β → Reader → Prop} : Runs src (complain context p >>= f) r Q := by
  refine Leads.bind (Q := fun _ _ => False) ?_ fun _ _ h => h.elim
  exact .get_bind (.throw trivial)

theorem here_bind {f : Mark → Scan α} {Q : α → Reader → Prop} (next : Runs src (f r.mark) r Q) :
    Runs src (here >>= f) r Q := ⟨next.ends, next.raises⟩

theorem scans_here : Scans d src o here := by
  unfold here
  refine Keeps.get.step fun r => ?_
  exact .pure trivial

theorem fuelLeft_bind {f : Nat → Scan α} {Q : α → Reader → Prop} (hr : r.Within d src)
    (next : ∀ fuel, src.chars.length < fuel → Runs src (f fuel) r Q) :
    Runs src (fuelLeft >>= f) r Q :=
  have h := next r.bound hr.lt_bound
  ⟨h.ends, h.raises⟩

theorem keeps_fuelLeft :
    Keeps (Reader.ReadsOn d src o) (LoadError.Among (ScanFailure src)) fuelLeft
      fun n => src.chars.length < n := by
  unfold fuelLeft
  exact Keeps.get.bind fun r hr => .pure hr.lt_bound

theorem runs_need (hr : r.Within d src) (n : Nat) : Runs src (need n) r fun _ r' => r' = r := by
  unfold need
  apply Leads.get_bind
  cases hfault : r.fault with
  | none => exact .pure rfl
  | some f =>
    have hsource : src.fault = some f := hr.fault ▸ hfault
    exact .ite (fun _ => .throw (.unreadable hsource)) fun _ => .pure rfl

theorem scans_need (n : Nat) : Scans d src o (need n) :=
  scans_of_runs fun r hr => (runs_need hr n).mono fun _ r' h => by
    rw [show r' = r from h]
    exact .refl hr

theorem runs_peek (hr : r.Within d src) (k : Nat) :
    Runs src (peek k) r fun c r' => r' = r ∧ c = r.rest.getD k endChar := by
  unfold peek
  apply Leads.get_bind
  rw [List.getD_eq_getElem?_getD]
  cases r.rest[k]? with
  | some c => exact .pure ⟨rfl, rfl⟩
  | none =>
    cases hfault : r.fault with
    | none => exact .pure ⟨rfl, rfl⟩
    | some f => exact .throw (.unreadable (hr.fault ▸ hfault))

theorem peek_bind {k : Nat} {f : Char → Scan α} {Q : α → Reader → Prop} (hr : r.Within d src)
    (next : Runs src (f (r.rest.getD k endChar)) r Q) : Runs src (peek k >>= f) r Q := by
  refine (runs_peek hr k).bind fun c r' h => ?_
  rw [h.1, h.2]
  exact next

theorem scans_peek (k : Nat) : Scans d src o (peek k) :=
  scans_of_runs fun r hr => (runs_peek hr k).mono fun _ r' h => by
    rw [show r' = r from h.1]
    exact .refl hr

/-- What a reader looks at is a part of its text. -/
theorem keeps_look (n : Nat) :
    Keeps (Reader.ReadsOn d src o) (LoadError.Among (ScanFailure src)) (look n)
      fun ds => ds <:+: src.chars ∧ ds.length ≤ n := by
  unfold look
  refine (scans_need n).step fun _ => ?_
  refine Keeps.get.bind fun r hr => ?_
  have hseen : r.rest.take n <:+: r.rest := List.IsPrefix.isInfix (List.take_prefix n r.rest)
  have hrest : r.rest <:+: src.chars := List.IsSuffix.isInfix hr.rest
  exact .pure ⟨List.IsInfix.trans hseen hrest, List.length_take_le n r.rest⟩

theorem scans_look (n : Nat) : Scans d src o (look n) := (keeps_look n).mono fun _ _ => trivial

theorem look_bind {n : Nat} {f : List Char → Scan α} {Q : α → Reader → Prop}
    (hr : r.Within d src) (next : Runs src (f (r.rest.take n)) r Q) :
    Runs src (look n >>= f) r Q := by
  unfold look
  refine Leads.bind (Q := fun cs r' => r' = r ∧ cs = r.rest.take n) ?_ fun cs r' h => ?_
  · refine (runs_need hr n).bind fun _ r' h => ?_
    subst h
    exact .get_bind (.pure ⟨rfl, rfl⟩)
  · rw [h.1, h.2]
    exact next

theorem runs_skip (hr : r.Within d src) (n : Nat) :
    Runs src (skip n) r fun _ r' => r.ReadsOn d src r' ∧ r'.rest = r.rest.drop n := by
  unfold skip
  refine (runs_need hr (n + 1)).bind fun _ r' h => ?_
  subst h
  have hdrop : r'.rest.drop n <:+ r'.rest := List.drop_suffix n r'.rest
  exact .modify
    ⟨⟨⟨hr.dialect, hr.fault, hdrop.trans hr.rest, hr.room⟩, rfl, rfl, rfl, rfl, hdrop⟩, rfl⟩

theorem scans_skip (n : Nat) : Scans d src o (skip n) :=
  scans_of_runs fun _ hr => (runs_skip hr n).mono fun _ _ h => h.1

/-- A step over something takes it. -/
theorem takes_skip (hr : r.Within d src) {n : Nat} (positive : 0 < n) (more : r.rest ≠ []) :
    Runs src (skip n) r fun _ r' => r.Takes d src r' := by
  refine (runs_skip hr n).mono fun _ r' h => ⟨h.1, ?_⟩
  have hlength : 0 < r.rest.length := List.length_pos_iff.mpr more
  rw [h.2, List.length_drop]
  omega

/-- What starts with a step over something takes it. -/
theorem takes_after_skip {n : Nat} {m : Scan α} (hr : r.Within d src) (positive : 0 < n)
    (more : r.rest ≠ []) (next : ∀ o, Scans d src o m) :
    Runs src (do skip n; m) r fun _ r' => r.Takes d src r' :=
  (takes_skip hr positive more).bind fun _ r₁ h =>
    ((next r₁).runs h.toWithin).mono fun _ _ h' => h.readsOn h'

theorem runs_takeRun (hr : r.Within d src) (p : Char → Bool) :
    Runs src (takeRun p) r fun run r' =>
      r.ReadsOn d src r' ∧ run <:+: src.chars ∧ r'.rest = r.rest.dropWhile p := by
  unfold takeRun
  apply Leads.get_bind
  refine (runs_need hr _).bind fun _ r' h => ?_
  subst h
  refine (runs_skip hr _).bind fun _ r₁ h => ?_
  have hrun : r'.rest.takeWhile p <:+: r'.rest := List.IsPrefix.isInfix (List.takeWhile_prefix p)
  refine .pure ⟨h.1, List.IsInfix.trans hrun (List.IsSuffix.isInfix hr.rest), ?_⟩
  have hsplit := List.takeWhile_append_dropWhile (p := p) (l := r'.rest)
  rw [h.2]
  exact (congrArg (List.drop _) hsplit.symm).trans List.drop_left

theorem keeps_takeRun (p : Char → Bool) :
    Keeps (Reader.ReadsOn d src o) (LoadError.Among (ScanFailure src)) (takeRun p)
      fun run => run <:+: src.chars :=
  fun _ hr => (runs_takeRun hr.toWithin p).mono fun _ _ h => ⟨hr.trans h.1, h.2.1⟩

theorem scans_takeRun (p : Char → Bool) : Scans d src o (takeRun p) :=
  (keeps_takeRun p).mono fun _ _ => trivial

theorem scans_skipRun (p : Char → Bool) : Scans d src o (skipRun p) := by
  unfold skipRun
  refine (scans_takeRun p).step fun _ => ?_
  exact .pure trivial

/-- A line break that is there is taken. -/
theorem runs_lineBreak (hr : r.Within d src) :
    Runs src lineBreak r fun b r' => r.ReadsOn d src r' ∧ (b.isSome = true → r.Takes d src r') ∧
      (isBreak (r.rest.getD 0 endChar) = true → r.Takes d src r') := by
  unfold lineBreak
  apply peek_bind hr
  generalize hc : r.rest.getD 0 endChar = c
  have htaken : ∀ {n : Nat} {b : Option Char}, 0 < n → isBreak c = true →
      Runs src (do skip n; return b) r fun b r' => r.ReadsOn d src r' ∧
        (b.isSome = true → r.Takes d src r') ∧ (isBreak c = true → r.Takes d src r') := by
    intro n b positive hbreak
    have hmore : r.rest ≠ [] := by
      apply Reader.rest_ne_nil hc
      rintro rfl
      cases hbreak
    refine (takes_skip hr positive hmore).bind fun _ r' h => ?_
    exact .pure ⟨h.toReadsOn, fun _ => h, fun _ => h⟩
  refine .ite (fun hend => ?_) fun hend => .ite (fun hseparator => ?_) fun hseparator => ?_
  · have hbreak : isBreak c = true := by
      unfold isBreak
      grind
    apply look_bind hr
    exact .ite (fun _ => htaken (by omega) hbreak) fun _ => htaken (by omega) hbreak
  · have hbreak : isBreak c = true := by
      unfold isBreak
      grind
    exact htaken (by omega) hbreak
  · have hnone : isBreak c = false := by
      unfold isBreak
      grind
    rw [hnone]
    exact .pure ⟨.refl hr, by simp, by simp⟩

theorem scans_lineBreak : Scans d src o lineBreak :=
  scans_of_runs fun _ hr => (runs_lineBreak hr).mono fun _ _ h => h.1

theorem scans_atMarker (marker : List Char) : Scans d src o (atMarker marker) := by
  unfold atMarker
  refine (scans_look 3).step fun ds => ?_
  refine .ite (fun _ => ?_) fun _ => .pure trivial
  refine Keeps.get.step fun r => ?_
  refine (scans_peek 3).step fun c => ?_
  exact .pure trivial

theorem scans_atSeparator : Scans d src o atSeparator := by
  unfold atSeparator
  refine (scans_atMarker _).step fun b => ?_
  exact .ite (fun _ => .pure trivial) fun _ => scans_atMarker _

theorem scans_skipComment : Scans d src o skipComment := by
  unfold skipComment
  refine (scans_peek 0).step fun c => ?_
  refine .ite (fun _ => ?_) fun _ => .pure trivial
  refine Keeps.get.step fun r => ?_
  exact scans_skipRun _

theorem scans_finishLine (context : Context) (start : Mark) :
    Scans d src o (finishLine context start) := by
  unfold finishLine
  refine (scans_skipRun _).step fun _ => ?_
  refine scans_skipComment.step fun _ => ?_
  refine (scans_peek 0).step fun c => ?_
  refine Keeps.get.step fun r => ?_
  refine .when (fun _ => scans_complain _ _) ?_
  refine scans_lineBreak.step fun _ => ?_
  exact .pure trivial

/-! ## Names -/

theorem scans_versionNumber (start : Mark) : Scans d src o (versionNumber start) := by
  unfold versionNumber
  refine (scans_peek 0).step fun c => ?_
  refine .when (fun _ => scans_complain _ _) ?_
  refine (keeps_takeRun isDigit).bind fun digits hdigits => ?_
  cases hread : readInteger 10 (string digits) with
  | ok n => exact .pure trivial
  | error p => exact .throw (.numeral hdigits hread)

theorem scans_version (start : Mark) : Scans d src o (version start) := by
  unfold version
  refine (scans_skipRun _).step fun _ => ?_
  refine (scans_versionNumber start).step fun major => ?_
  refine (scans_peek 0).step fun c => ?_
  refine .when (fun _ => scans_complain _ _) ?_
  refine (scans_skip 1).step fun _ => ?_
  refine (scans_versionNumber start).step fun minor => ?_
  refine (scans_peek 0).step fun c => ?_
  refine .when (fun _ => scans_complain _ _) ?_
  refine Keeps.step (.modify fun r hr => hr.withVersion _) fun _ => ?_
  exact .pure trivial

/-- A handle takes its exclamation mark. -/
theorem takes_tagHandle (place : TagPlace) (start : Mark) (hr : r.Within d src) :
    Runs src (tagHandle place start) r fun _ r' => r.Takes d src r' := by
  unfold tagHandle
  apply peek_bind hr
  refine .ite (fun _ => complain_bind) fun hc => ?_
  have more : r.rest ≠ [] := by
    apply Reader.rest_ne_nil (c := '!') (by simpa using hc)
    decide
  apply peek_bind hr
  refine .ite (fun _ => ?_) fun _ => ?_
  · apply look_bind hr
    exact takes_after_skip hr (by omega) more fun o => .pure trivial
  · refine .get_bind ?_
    apply peek_bind hr
    refine .ite (fun _ => ?_) fun _ => ?_
    · exact (takes_skip hr (by omega) more).bind fun _ _ _ => complain_bind
    · apply look_bind hr
      exact takes_after_skip hr (by omega) more fun o => .pure trivial

theorem scans_tagHandle (place : TagPlace) (start : Mark) :
    Scans d src o (tagHandle place start) :=
  scans_of_runs fun _ hr => (takes_tagHandle place start hr).mono fun _ _ h => h.toReadsOn

/-- A check of each of some characters ahead. -/
theorem scans_forIn {ks : List Nat} {f : Nat → PUnit → Scan (ForInStep PUnit)}
    (each : ∀ k, Scans d src o (f k ())) : Scans d src o (forIn ks PUnit.unit f) := by
  induction ks with
  | nil => exact .pure trivial
  | cons k ks ih =>
    rw [List.forIn_cons]
    refine (each k).step fun next => ?_
    cases next with
    | done u => exact .pure trivial
    | yield u => exact ih

/-- A run of escapes is read in as many rounds as there are escapes; the first one that is there is
taken. -/
theorem runs_escapedBytes (place : TagPlace) (start : Mark) {fuel : Nat} (hr : r.Within d src)
    (enough : r.rest.length < fuel) :
    Runs src (escapedBytes place start fuel) r fun _ r' => r.ReadsOn d src r' ∧
      (r.rest.getD 0 endChar = '%' → r.Takes d src r') := by
  induction fuel generalizing r with
  | zero => omega
  | succ fuel ih =>
    unfold escapedBytes
    apply peek_bind hr
    refine .ite (fun hc => ?_) fun hc => ?_
    · refine .pure ⟨.refl hr, fun h => ?_⟩
      rw [h] at hc
      cases hc
    have hmore : r.rest ≠ [] := by
      apply Reader.rest_ne_nil (by simpa using hc)
      decide
    refine (takes_skip hr (by omega) hmore).bind fun _ r₁ h₁ => ?_
    refine (Scans.runs (scans_forIn fun k => ?_) h₁.toWithin).bind fun _ r₂ h₂ => ?_
    · refine (scans_peek k).step fun c => ?_
      exact .when (fun _ => scans_complain _ _) (.pure trivial)
    refine ((scans_look 2).runs h₂.toWithin).bind fun ds r₃ h₃ => ?_
    refine ((scans_skip 2).runs h₃.toWithin).bind fun _ r₄ h₄ => ?_
    have h := ((h₁.readsOn h₂).readsOn h₃).readsOn h₄
    refine (ih h.toWithin (by have := h.shorter; omega)).bind fun _ r' h' => ?_
    exact .pure ⟨(h.readsOn h'.1).toReadsOn, fun _ => h.readsOn h'.1⟩

theorem runs_uriEscapes (place : TagPlace) (start : Mark) (hr : r.Within d src)
    (percent : r.rest.getD 0 endChar = '%') :
    Runs src (uriEscapes place start) r fun _ r' => r.Takes d src r' := by
  unfold uriEscapes
  refine .get_bind (fuelLeft_bind hr fun fuel hfuel => ?_)
  have enough : r.rest.length < fuel := Nat.lt_of_le_of_lt hr.rest.length_le hfuel
  refine (runs_escapedBytes place start hr enough).bind fun escaped r' h => ?_
  obtain ⟨bytes, written⟩ := escaped
  have htakes := h.2 percent
  dsimp only
  cases (Utf8.decode bytes).fault with
  | some f => exact .throw trivial
  | none =>
    refine .get_bind ?_
    cases r'.dialect with
    | classic => exact .pure htakes
    | modern => exact .pure htakes

theorem runs_uriPieces (place : TagPlace) (start : Mark) {fuel : Nat} (hr : r.Within d src)
    (enough : r.rest.length < fuel) :
    Runs src (uriPieces place start fuel) r fun _ r' => r.ReadsOn d src r' := by
  induction fuel generalizing r with
  | zero => omega
  | succ fuel ih =>
    unfold uriPieces
    refine .get_bind ?_
    refine ((scans_takeRun _).runs hr).bind fun piece r₁ h₁ => ?_
    apply peek_bind h₁.toWithin
    refine .ite (fun hc => ?_) fun _ => .pure h₁
    have hpercent : r₁.rest.getD 0 endChar = '%' := by simpa using hc
    refine (runs_uriEscapes place start h₁.toWithin hpercent).bind fun text r₂ h₂ => ?_
    have h := h₁.takes h₂
    refine (ih h.toWithin (by have := h.shorter; omega)).bind fun more r' h' => ?_
    exact .pure (h.toReadsOn.trans h')

theorem scans_tagUri (place : TagPlace) (start : Mark) : Scans d src o (tagUri place start) := by
  unfold tagUri
  refine Keeps.get.step fun r => ?_
  refine (scans_peek 0).step fun c => ?_
  refine .when (fun _ => scans_complain _ _) ?_
  refine keeps_fuelLeft.bind fun fuel enough => ?_
  refine (scans_of_loop enough fun r hr => ?_).step fun _ => .pure trivial
  exact runs_uriPieces place start hr

theorem scans_handleDeclaration (start : Mark) : Scans d src o (handleDeclaration start) := by
  unfold handleDeclaration
  refine (scans_skipRun _).step fun _ => ?_
  refine (scans_tagHandle _ start).step fun name => ?_
  refine (scans_peek 0).step fun c => ?_
  refine .when (fun _ => scans_complain _ _) ?_
  refine (scans_skipRun _).step fun _ => ?_
  refine (scans_tagUri _ start).step fun meaning => ?_
  refine (scans_peek 0).step fun c => ?_
  exact .when (fun _ => scans_complain _ _) (.pure trivial)

theorem scans_directiveName (start : Mark) : Scans d src o (directiveName start) := by
  unfold directiveName
  refine Keeps.get.step fun r => ?_
  refine (scans_takeRun _).step fun name => ?_
  refine (scans_peek 0).step fun c => ?_
  exact .when (fun _ => scans_complain _ _) (.pure trivial)

theorem takes_directive (hr : r.Within d src) (more : r.rest ≠ []) :
    Runs src directive r fun _ r' => r.Takes d src r' := by
  unfold directive
  apply here_bind
  refine takes_after_skip hr (by omega) more fun o => ?_
  refine (scans_directiveName _).step fun name => ?_
  extract_lets finish
  have hfinish : ∀ declared, Scans d src o (finish declared) := by
    intro declared
    refine scans_here.step fun stop => ?_
    extract_lets done
    have hdone : Scans d src o (done ()) := by
      refine (scans_finishLine _ _).step fun _ => ?_
      exact .pure trivial
    cases declared with
    | other name =>
      refine Keeps.get.step fun r => ?_
      exact (scans_skipRun _).step fun _ => hdone
    | version major minor => exact hdone
    | handle name meaning => exact hdone
  refine .ite (fun _ => ?_) fun _ => .ite (fun _ => ?_) fun _ => ?_
  · exact (scans_version _).step hfinish
  · exact (scans_handleDeclaration _).step hfinish
  · exact .pure_bind (hfinish (.other name))

theorem takes_anchorName (context : Context) (hr : r.Within d src) (more : r.rest ≠ []) :
    Runs src (anchorName context) r fun _ r' => r.Takes d src r' := by
  unfold anchorName
  apply here_bind
  refine takes_after_skip hr (by omega) more fun o => ?_
  refine Keeps.get.step fun r => ?_
  refine (scans_takeRun _).step fun name => ?_
  refine (scans_peek 0).step fun c => ?_
  refine .when (fun _ => scans_complain _ _) ?_
  exact scans_here.step fun _ => .pure trivial

theorem takes_anchor (hr : r.Within d src) (more : r.rest ≠ []) :
    Runs src anchor r fun _ r' => r.Takes d src r' := by
  unfold anchor
  exact (takes_anchorName _ hr more).bind fun _ _ h => .pure h

theorem takes_aliasTo (hr : r.Within d src) (more : r.rest ≠ []) :
    Runs src aliasTo r fun _ r' => r.Takes d src r' := by
  unfold aliasTo
  exact (takes_anchorName _ hr more).bind fun _ _ h => .pure h

theorem takes_abbreviatedTag (short : String) (start : Mark) (hr : r.Within d src)
    (more : r.rest ≠ []) :
    Runs src (abbreviatedTag short start) r fun _ r' => r.Takes d src r' := by
  unfold abbreviatedTag
  refine .get_bind ?_
  apply peek_bind hr
  extract_lets finish
  have hfinish : ∀ handle o, Scans d src o (finish handle) := by
    intro handle o
    exact (scans_tagUri _ start).step fun _ => .pure trivial
  refine .ite (fun _ => ?_) fun _ => ?_
  · refine (takes_tagHandle _ start hr).bind fun handle r₁ h => ?_
    exact ((hfinish handle r₁).runs h.toWithin).mono fun _ _ h' => h.readsOn h'
  · exact takes_after_skip hr (by omega) more fun o => .pure_bind (hfinish _ o)

theorem takes_tag (hr : r.Within d src) (more : r.rest ≠ []) :
    Runs src tag r fun _ r' => r.Takes d src r' := by
  unfold tag
  apply here_bind
  refine .get_bind (peek_bind hr ?_)
  extract_lets finish handled
  have hfinish : ∀ written o, Scans d src o (finish written) := by
    intro written o
    refine (scans_peek 0).step fun c => ?_
    refine .when (fun _ => scans_complain _ _) ?_
    exact scans_here.step fun _ => .pure trivial
  have hhandled : ∀ short r, r.Within d src → r.rest ≠ [] →
      Runs src (handled () short) r fun _ r' => r.Takes d src r' := by
    intro short r hr more
    apply peek_bind hr
    refine .ite (fun _ => ?_) fun _ => .ite (fun _ => ?_) fun _ => ?_
    · refine takes_after_skip hr (by omega) more fun o => ?_
      refine (scans_tagUri _ _).step fun uri => ?_
      refine (scans_peek 0).step fun c => ?_
      refine .when (fun _ => scans_complain _ _) ?_
      refine (scans_skip 1).step fun _ => ?_
      exact .pure_bind (hfinish _ o)
    · exact takes_after_skip hr (by omega) more fun o => .pure_bind (hfinish _ o)
    · refine (takes_abbreviatedTag _ _ hr more).bind fun written r₁ h => ?_
      exact ((hfinish written r₁).runs h.toWithin).mono fun _ _ h' => h.readsOn h'
  refine .ite (fun hlong => ?_) fun _ => hhandled _ r hr more
  refine (runs_skip hr 1).bind fun _ r₁ h => ?_
  have more₁ : r₁.rest ≠ [] := by
    have hbang : r.rest.getD 1 endChar = '!' := by
      simp only [Bool.and_eq_true, beq_iff_eq] at hlong
      exact hlong.2
    rw [h.2]
    intro hnil
    rw [List.getD_eq_getElem?_getD, List.getElem?_eq_none (List.drop_eq_nil_iff.mp hnil)] at hbang
    cases hbang
  exact (hhandled _ r₁ h.1.toWithin more₁).mono fun _ _ h' => h.1.takes h'

end Scan

end YamlCheck.Yaml
