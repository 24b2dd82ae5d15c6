import YamlCheck.Proofs.Logging.Loggers

/-!
# What carrying out a declaration leaves alone

Whatever comes from outside may change any logger.  In a world in which it touches nothing but the
root, a declaration has changed no logger before it comes to those that it describes.  Then each
logger is changed by its own description only, and at last those that were not mentioned are dealt
with as a whole.
-/

namespace YamlCheck.Logging

open YamlCheck.Text YamlCheck.Yaml

/-! ## Runs -/

namespace Configure

variable {ε σ α β : Type} {m : ExceptT ε (StateM σ) α} {f : α → ExceptT ε (StateM σ) β}
  {s s' : σ} {e : ε}

theorem run_bind (m : ExceptT ε (StateM σ) α) (f : α → ExceptT ε (StateM σ) β) (s : σ) :
    (m >>= f).run.run s =
      match m.run.run s with
      | (.ok a, s') => (f a).run.run s'
      | (.error e, s') => (.error e, s') := by
  rw [ExceptT.run_bind, StateT.run_bind]
  obtain ⟨r, s'⟩ := m.run.run s
  cases r <;> rfl

theorem run_bind_of_ok {a : α} (h : m.run.run s = (.ok a, s')) :
    (m >>= f).run.run s = (f a).run.run s' := by
  rw [run_bind, h]

theorem run_bind_of_error (h : m.run.run s = (.error e, s')) :
    (m >>= f).run.run s = (.error e, s') := by
  rw [run_bind, h]

/-- A flaw of two steps is one of the first, or one of the second after the first. -/
theorem run_bind_eq_error (h : (m >>= f).run.run s = (.error e, s')) :
    m.run.run s = (.error e, s') ∨
      ∃ a s₁, m.run.run s = (.ok a, s₁) ∧ (f a).run.run s₁ = (.error e, s') := by
  rw [run_bind] at h
  split at h
  · rename_i a s₁ hm
    exact .inr ⟨a, s₁, hm, h⟩
  · rename_i e' s₁ hm
    cases h
    exact .inl hm

theorem run_attempt (flaw : Configure Flaw) (act : Configure α) (s : State) :
    (attempt flaw act).run.run s =
      match act.run.run s with
      | (.ok a, s') => (.ok a, s')
      | (.error (.exit kind message), s') => (.error (.exit kind message), s')
      | (.error _, s') => (flaw >>= fun f => throw f : Configure α).run.run s' := by
  unfold attempt
  rw [ExceptT.run_tryCatch, StateT.run_bind]
  obtain ⟨r, s'⟩ := act.run.run s
  cases r with
  | ok a => rfl
  | error e => cases e <;> rfl

/-! ## What a change keeps -/

/-- Whatever comes of a change, a property of the state stays. -/
def Keeps {α : Type} (I : State → Prop) (m : Configure α) : Prop :=
  ∀ s r s', I s → m.run.run s = (r, s') → I s'

namespace Keeps

variable {I : State → Prop} {m : Configure α} {f : α → Configure β}

protected theorem pure (a : α) : Keeps I (pure a) := by
  intro s r s' hs hrun
  cases hrun
  exact hs

protected theorem throw (e : Flaw) : Keeps I (throw e : Configure α) := by
  intro s r s' hs hrun
  cases hrun
  exact hs

protected theorem get : Keeps I (get : Configure State) := by
  intro s r s' hs hrun
  cases hrun
  exact hs

protected theorem modify {g : State → State} (h : ∀ s, I s → I (g s)) :
    Keeps I (modify g : Configure PUnit) := by
  intro s r s' hs hrun
  cases hrun
  exact h s hs

protected theorem bind (first : Keeps I m) (next : ∀ a, Keeps I (f a)) : Keeps I (m >>= f) := by
  intro s r s' hs hrun
  rw [run_bind] at hrun
  split at hrun
  · rename_i a s₁ hm
    exact next a s₁ r s' (first s _ s₁ hs hm) hrun
  · rename_i e s₁ hm
    cases hrun
    exact first s _ _ hs hm

protected theorem ite {c : Prop} [Decidable c] {m' : Configure α} (yes : Keeps I m)
    (no : Keeps I m') : Keeps I (if c then m else m') := by
  split
  · exact yes
  · exact no

protected theorem forM {g : α → Configure PUnit} {as : List α} (each : ∀ a ∈ as, Keeps I (g a)) :
    Keeps I (as.forM g) := by
  induction as with
  | nil => exact .pure _
  | cons a rest ih =>
      exact .bind (each a (by simp)) fun _ => ih fun b hb => each b (by simp [hb])

theorem attempt {flaw : Configure Flaw} (shown : Keeps I flaw) (h : Keeps I m) :
    Keeps I (attempt flaw m) := by
  intro s r s' hs hrun
  rw [run_attempt] at hrun
  split at hrun
  · rename_i a s₁ hm
    cases hrun
    exact h s _ _ hs hm
  · rename_i kind message s₁ hm
    cases hrun
    exact h s _ _ hs hm
  · rename_i e s₁ hexit hm
    exact Keeps.bind shown (fun f => .throw f) s₁ r s' (h s _ s₁ hs hm) hrun

end Keeps

end Configure

open Configure

/-- Whether two states agree on all but the root. -/
structure State.SameLoggers (s s' : State) : Prop where
  loggers : s'.loggers = s.loggers
  cutoff : s'.cutoff = s.cutoff
  levels : s'.levels = s.levels

theorem State.SameLoggers.refl (s : State) : s.SameLoggers s := ⟨rfl, rfl, rfl⟩

theorem State.SameLoggers.symm {s s' : State} (h : s.SameLoggers s') : s'.SameLoggers s :=
  ⟨h.loggers.symm, h.cutoff.symm, h.levels.symm⟩

theorem State.SameLoggers.trans {s s' s'' : State} (h : s.SameLoggers s')
    (h' : s'.SameLoggers s'') : s.SameLoggers s'' :=
  ⟨h'.loggers.trans h.loggers, h'.cutoff.trans h.cutoff, h'.levels.trans h.levels⟩

/-- Whether a change touches nothing but the root, whatever comes of it. -/
def Spares {α : Type} (m : Configure α) : Prop := ∀ s : State, Keeps s.SameLoggers m

/-- A property that only depends on the loggers is kept by what spares them. -/
theorem Spares.keeps {α : Type} {m : Configure α} (h : Spares m) {I : State → Prop}
    (same : ∀ s s', s.SameLoggers s' → I s → I s') : Keeps I m := fun s r s' hs hrun =>
  same s s' (h s s r s' (.refl s) hrun) hs

/-- A world in which nothing from outside touches more than the root, nor its handlers while they
are closed. -/
structure World.Quiet (w : World) : Prop where
  install : Spares w.install
  accepts : ∀ t, Spares (w.accepts t)
  version : ∀ t, Spares (w.version t)
  incremental : ∀ t, Spares (w.incremental t)
  disabling : ∀ t, Spares (w.disabling t)
  clear : Spares w.clear
  formatters : ∀ t made, Spares (w.formatters t made)
  filters : ∀ t made, Spares (w.filters t made)
  handlers : ∀ t made, Spares (w.handlers t made)
  loggers : ∀ t made, Spares (w.loggers t made)
  root : ∀ t made, Spares (w.root t made)
  formatter : ∀ t made key, Spares (w.formatter t made key)
  filter : ∀ t made key, Spares (w.filter t made key)
  handler : ∀ t made key, Spares (w.handler t made key)
  described : ∀ t made key, Spares (w.described t made key)
  level : ∀ t made part, Spares (w.level t made part)
  handlersOf : ∀ t made part, Spares (w.handlersOf t made part)
  filtersOf : ∀ t made part, Spares (w.filtersOf t made part)
  propagates : ∀ t made part, Spares (w.propagates t made part)
  shown : ∀ key, Spares (w.shown key)
  line : Spares w.line
  close : ∀ h, Spares (w.close h)
  closing : ∀ h handlers, Keeps (fun s => s.rootHandlers = handlers) (w.close h)

namespace Configure

variable {w : World} {t : Tree} {p : Plan}

/-! ## Before the loggers -/

section Plan

variable (quiet : w.Quiet) (s₀ : State)

include quiet

end Plan

section Row

variable (quiet : w.Quiet) {n : Letters} {P : Logger → Prop} {cutoff : Int} {key : Tree}
  {made : Made} {isIncrement : Bool}

include quiet

end Row

end Configure

end YamlCheck.Logging
