import YamlCheck.Logging.Setup
import YamlCheck.Proofs.Logging.Carrying

/-!
# Where the flaws of a declaration come from

What is wrong with a formatter, a filter, a handler, a logger or the root is reported as a flaw of
that part, unless it is the wish that the program should end.  Any other flaw is the answer to one
of the questions that are about the declaration as a whole or about one of its sections.
-/

namespace YamlCheck.Logging

open YamlCheck.Text YamlCheck.Yaml

namespace Configure

/-- Whatever flaw a change comes upon has a property. -/
def Raises {α : Type} (Q : Flaw → Prop) (m : Configure α) : Prop :=
  ∀ s f s', m.run.run s = (.error f, s') → Q f

namespace Raises

variable {α β : Type} {Q : Flaw → Prop} {m : Configure α} {f : α → Configure β}

protected theorem pure (a : α) : Raises Q (pure a) := by
  intro s e s' h
  cases h

protected theorem throw {e : Flaw} (h : Q e) : Raises Q (throw e : Configure α) := by
  intro s e' s' hrun
  cases hrun
  exact h

protected theorem get : Raises Q (get : Configure State) := by
  intro s e s' h
  cases h

protected theorem modify (g : State → State) : Raises Q (modify g : Configure PUnit) := by
  intro s e s' h
  cases h

/-- What comes after an answer may make use of its being one. -/
theorem bind_answer (first : Raises Q m)
    (next : ∀ a s s', m.run.run s = (.ok a, s') → Raises Q (f a)) : Raises Q (m >>= f) := by
  intro s e s' h
  rcases run_bind_eq_error h with h | ⟨a, s₁, hm, h⟩
  · exact first s e s' h
  · exact next a s s₁ hm s₁ e s' h

protected theorem bind (first : Raises Q m) (next : ∀ a, Raises Q (f a)) :
    Raises Q (m >>= f) :=
  first.bind_answer fun a _ _ _ => next a

protected theorem ite {c : Prop} [Decidable c] {m' : Configure α} (yes : Raises Q m)
    (no : Raises Q m') : Raises Q (if c then m else m') := by
  split
  · exact yes
  · exact no

protected theorem forM {g : α → Configure PUnit} {as : List α} (each : ∀ a, Raises Q (g a)) :
    Raises Q (as.forM g) := by
  induction as with
  | nil => exact .pure _
  | cons a rest ih => exact .bind (each a) fun _ => ih

end Raises

/-- The questions whose flaws are not reported as those of some part of the declaration. -/
inductive Bare (w : World) (t : Tree) : {α : Type} → Configure α → Prop
  | accepts : Bare w t (w.accepts t)
  | version : Bare w t (w.version t)
  | incremental : Bare w t (w.incremental t)
  | disabling : Bare w t (w.disabling t)
  | clear : Bare w t w.clear
  | formatters (made : Made) : Bare w t (w.formatters t made)
  | filters (made : Made) : Bare w t (w.filters t made)
  | handlers (made : Made) : Bare w t (w.handlers t made)
  | loggers (made : Made) : Bare w t (w.loggers t made)
  | root (made : Made) : Bare w t (w.root t made)
  | shown (key : Tree) : Bare w t (w.shown key)
  | line : Bare w t w.line

variable {w : World} {t : Tree}

end Configure

end YamlCheck.Logging
