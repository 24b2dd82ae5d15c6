import YamlCheck.Proofs.Yaml.Simulation

/-!
# What a computation leads to, keeps and raises

`Leads P m s Q` is what a proof needs to know about a computation `m` from a state `s` without
opening it: which value it gives, which state it leaves behind, and with which errors it stops.
`Keeps I P m Q` says so for all states that satisfy an invariant.  There is a rule for each way in
which computations are put together, so that one statement about each function of a reader or a
builder follows from those about the functions that it calls.
-/

namespace YamlCheck.Yaml

/-- Whether an error is a bad value or one of the given breakdowns. -/
def LoadError.Within (known : Breakdown → Prop) : LoadError → Prop
  | .badValue _ => True
  | .breakdown b => known b
  | _ => False

theorem LoadError.Within.mono {known known' : Breakdown → Prop} {e : LoadError}
    (h : e.Within known) (more : ∀ b, known b → known' b) : e.Within known' := by
  cases e with
  | breakdown b => exact more b h
  | badValue f => trivial
  | _ => exact h

/-- Whether an error is one of the given ones, or a complaint about a text. -/
def LoadError.Among (known : LoadError → Prop) : LoadError → Prop
  | .complaint .. => True
  | e => known e

theorem LoadError.among_of {known : LoadError → Prop} {e : LoadError} (h : known e) :
    e.Among known := by
  cases e with
  | complaint stage c => trivial
  | _ => exact h

theorem LoadError.Among.mono {known known' : LoadError → Prop} {e : LoadError}
    (h : e.Among known) (more : ∀ e, known e → known' e) : e.Among known' := by
  cases e with
  | complaint stage c => trivial
  | _ => exact more _ h

/-- Whatever error a result is, it satisfies `P`. -/
def Raises {α : Type} (P : LoadError → Prop) (r : Except LoadError α) : Prop :=
  ∀ e, r = .error e → P e

namespace Raises

variable {α β : Type} {P : LoadError → Prop} {r : Except LoadError α}

theorem ok (v : α) : Raises P (.ok v : Except LoadError α) := by
  intro e h
  cases h

protected theorem pure (v : α) : Raises P (pure v : Except LoadError α) := ok v

theorem error {e : LoadError} (h : P e) : Raises P (.error e : Except LoadError α) := by
  intro e' he
  cases he
  exact h

protected theorem throw {e : LoadError} (h : P e) : Raises P (throw e : Except LoadError α) :=
  error h

theorem throw_bind {e : LoadError} {f : α → Except LoadError β} (h : P e) :
    Raises P (throw e >>= f) := error h

protected theorem bind {f : α → Except LoadError β} (first : Raises P r)
    (next : ∀ v, r = .ok v → Raises P (f v)) : Raises P (r >>= f) := by
  cases hr : r with
  | error e => exact error (first e hr)
  | ok v => exact next v hr

protected theorem ite {c : Prop} [Decidable c] {r r' : Except LoadError α}
    (yes : c → Raises P r) (no : ¬c → Raises P r') : Raises P (if c then r else r') := by
  by_cases h : c
  · rw [if_pos h]
    exact yes h
  · rw [if_neg h]
    exact no h

protected theorem mapM {f : α → Except LoadError β} (each : ∀ x, Raises P (f x)) (xs : List α) :
    Raises P (xs.mapM f) := by
  induction xs with
  | nil =>
    rw [List.mapM_nil]
    exact .pure []
  | cons x xs ih =>
    rw [List.mapM_cons]
    refine (each x).bind fun y _ => ?_
    refine ih.bind fun ys _ => ?_
    exact .pure _

theorem mono {Q : LoadError → Prop} (h : Raises P r) (weaker : ∀ e, P e → Q e) : Raises Q r :=
  fun e he => weaker e (h e he)

end Raises

/-! ## From one state -/

/-- From the state `s`, a computation ends with a value and in a state that `Q` allows, or it raises
an error that satisfies `P`. -/
structure Leads {σ α : Type} (P : LoadError → Prop) (m : StateT σ (Except LoadError) α) (s : σ)
    (Q : α → σ → Prop) : Prop where
  ends : ∀ {v : α} {s' : σ}, m.run s = .ok (v, s') → Q v s'
  raises : ∀ {e : LoadError}, m.run s = .error e → P e

namespace Leads

variable {σ α β : Type} {P : LoadError → Prop} {s : σ}
variable {m : StateT σ (Except LoadError) α} {f : α → StateT σ (Except LoadError) β}
variable {Q Q' : α → σ → Prop} {R : β → σ → Prop}

protected theorem pure {v : α} (h : Q v s) : Leads P (pure v) s Q where
  ends hrun := by
    cases hrun
    exact h
  raises hrun := by cases hrun

protected theorem throw {e : LoadError} (h : P e) : Leads P (throw e) s Q where
  ends hrun := by cases hrun
  raises hrun := by
    cases hrun
    exact h

theorem throw_bind {e : LoadError} (h : P e) : Leads P (throw e >>= f) s R where
  ends hrun := by cases hrun
  raises hrun := by
    cases hrun
    exact h

protected theorem bind (first : Leads P m s Q)
    (next : ∀ v s', Q v s' → Leads P (f v) s' R) : Leads P (m >>= f) s R where
  ends hrun := by
    obtain ⟨v, s', hm, hf⟩ := run_bind_ok hrun
    exact (next v s' (first.ends hm)).ends hf
  raises hrun := by
    cases hm : m.run s with
    | error e' =>
      rw [run_bind_of_error hm] at hrun
      cases hrun
      exact first.raises hm
    | ok p =>
      rw [run_bind_of_ok hm] at hrun
      exact (next p.1 p.2 (first.ends hm)).raises hrun

/-- A result that no state comes into. -/
theorem lift {r : Except LoadError α} (h : Raises P r) :
    Leads P (r : StateT σ (Except LoadError) α) s fun v s' => r = .ok v ∧ s' = s := by
  cases r with
  | error e =>
    constructor
    · intro v s' hrun
      cases hrun
    · intro e' hrun
      cases hrun
      exact h e rfl
  | ok w =>
    constructor
    · intro v s' hrun
      cases hrun
      exact ⟨rfl, rfl⟩
    · intro e hrun
      cases hrun

theorem pure_bind {v : α} (next : Leads P (f v) s R) : Leads P (pure v >>= f) s R := next

theorem get_bind {f : σ → StateT σ (Except LoadError) β} (next : Leads P (f s) s R) :
    Leads P (get >>= f) s R := ⟨next.ends, next.raises⟩

theorem set_bind {s' : σ} {f : PUnit → StateT σ (Except LoadError) β}
    (next : Leads P (f ()) s' R) : Leads P (set s' >>= f) s R := ⟨next.ends, next.raises⟩

theorem modify_bind {g : σ → σ} {f : PUnit → StateT σ (Except LoadError) β}
    (next : Leads P (f ()) (g s) R) : Leads P (modify g >>= f) s R := ⟨next.ends, next.raises⟩

protected theorem set {s' : σ} {Q : PUnit → σ → Prop} (h : Q () s') : Leads P (set s') s Q where
  ends hrun := by
    cases hrun
    exact h
  raises hrun := by cases hrun

protected theorem modify {g : σ → σ} {Q : PUnit → σ → Prop} (h : Q () (g s)) :
    Leads P (modify g) s Q where
  ends hrun := by
    cases hrun
    exact h
  raises hrun := by cases hrun

protected theorem ite {c : Prop} [Decidable c] {m m' : StateT σ (Except LoadError) α}
    (yes : c → Leads P m s Q) (no : ¬c → Leads P m' s Q) :
    Leads P (if c then m else m') s Q := by
  by_cases h : c
  · rw [if_pos h]
    exact yes h
  · rw [if_neg h]
    exact no h

theorem mono (h : Leads P m s Q) (weaker : ∀ v s', Q v s' → Q' v s') : Leads P m s Q' where
  ends hrun := weaker _ _ (h.ends hrun)
  raises := h.raises

end Leads

/-! ## From every state of a kind -/

/-- From a state that satisfies `I`, a computation ends in such a state with a value that satisfies
`Q`, or it raises an error that satisfies `P`. -/
def Keeps {σ α : Type} (I : σ → Prop) (P : LoadError → Prop)
    (m : StateT σ (Except LoadError) α) (Q : α → Prop) : Prop :=
  ∀ s, I s → Leads P m s fun v s' => I s' ∧ Q v

namespace Keeps

variable {σ α β : Type} {I : σ → Prop} {P : LoadError → Prop}
variable {m : StateT σ (Except LoadError) α} {f : α → StateT σ (Except LoadError) β}
variable {Q : α → Prop} {R : β → Prop}

theorem ends {s s' : σ} {v : α} (h : Keeps I P m Q) (hs : I s) (run : m.run s = .ok (v, s')) :
    I s' ∧ Q v := (h s hs).ends run

theorem raises {s : σ} {e : LoadError} (h : Keeps I P m Q) (hs : I s)
    (run : m.run s = .error e) : P e := (h s hs).raises run

protected theorem pure {v : α} (h : Q v) : Keeps I P (pure v) Q := fun _ hs => .pure ⟨hs, h⟩

protected theorem throw {e : LoadError} (h : P e) : Keeps I P (throw e) Q := fun _ _ => .throw h

theorem throw_bind {e : LoadError} (h : P e) : Keeps I P (throw e >>= f) R :=
  fun _ _ => .throw_bind h

protected theorem bind (first : Keeps I P m Q) (next : ∀ v, Q v → Keeps I P (f v) R) :
    Keeps I P (m >>= f) R :=
  fun s hs => (first s hs).bind fun v s' h => next v h.2 s' h.1

/-- A step whose value does not matter. -/
theorem step (first : Keeps I P m Q) (next : ∀ v, Keeps I P (f v) R) : Keeps I P (m >>= f) R :=
  first.bind fun v _ => next v

theorem pure_bind {v : α} (next : Keeps I P (f v) R) : Keeps I P (pure v >>= f) R := next

/-- A result that no state comes into. -/
theorem lift {r : Except LoadError α} (h : Raises P r) :
    Keeps I P (r : StateT σ (Except LoadError) α) fun v => r = .ok v :=
  fun _ hs => (Leads.lift h).mono fun _ _ h' => ⟨h'.2 ▸ hs, h'.1⟩

protected theorem get : Keeps I P (get : StateT σ (Except LoadError) σ) I :=
  fun _ hs => .get_bind (.pure ⟨hs, hs⟩)

protected theorem set {s : σ} (h : I s) :
    Keeps I P (set s : StateT σ (Except LoadError) PUnit) fun _ => True :=
  fun _ _ => .set ⟨h, trivial⟩

protected theorem modify {f : σ → σ} (h : ∀ s, I s → I (f s)) :
    Keeps I P (modify f : StateT σ (Except LoadError) PUnit) fun _ => True :=
  fun s hs => .modify ⟨h s hs, trivial⟩

protected theorem ite {c : Prop} [Decidable c] {m m' : StateT σ (Except LoadError) α}
    (yes : c → Keeps I P m Q) (no : ¬c → Keeps I P m' Q) : Keeps I P (if c then m else m') Q :=
  fun s hs => .ite (fun h => yes h s hs) fun h => no h s hs

/-- A step that is only taken under a condition, and what comes after it either way. -/
theorem when {c : Prop} [Decidable c] {m : StateT σ (Except LoadError) PUnit}
    {f : PUnit → StateT σ (Except LoadError) β} {Q : PUnit → Prop} (yes : c → Keeps I P m Q)
    (next : Keeps I P (f ()) R) : Keeps I P (if c then m >>= f else f ()) R :=
  .ite (fun h => (yes h).bind fun _ _ => next) fun _ => next

/-- An error that is raised under a condition, and what comes after it otherwise. -/
theorem check {c : Prop} [Decidable c] {e : LoadError}
    {f : PUnit → StateT σ (Except LoadError) β} (raised : c → P e)
    (next : Keeps I P (f ()) R) : Keeps I P (if c then throw e >>= f else f ()) R :=
  .ite (fun h => .throw_bind (raised h)) fun _ => next

theorem mono {Q' : α → Prop} (h : Keeps I P m Q) (weaker : ∀ v, Q v → Q' v) :
    Keeps I P m Q' :=
  fun s hs => (h s hs).mono fun v _ h' => ⟨h'.1, weaker v h'.2⟩

protected theorem mapM {f : α → StateT σ (Except LoadError) β} {xs : List α}
    (each : ∀ x ∈ xs, Keeps I P (f x) fun _ => True) :
    Keeps I P (xs.mapM f) fun _ => True := by
  induction xs with
  | nil =>
    rw [List.mapM_nil]
    exact .pure trivial
  | cons x xs ih =>
    rw [List.mapM_cons]
    refine (each x (by simp)).step fun y => ?_
    refine (ih fun z hz => each z (by simp [hz])).step fun ys => ?_
    exact .pure trivial

protected theorem forM {f : α → StateT σ (Except LoadError) PUnit} {xs : List α}
    (each : ∀ x ∈ xs, Keeps I P (f x) fun _ => True) :
    Keeps I P (xs.forM f) fun _ => True := by
  induction xs with
  | nil => exact .pure trivial
  | cons x xs ih =>
    refine (each x (by simp)).step fun _ => ?_
    exact ih fun z hz => each z (by simp [hz])

end Keeps

end YamlCheck.Yaml
