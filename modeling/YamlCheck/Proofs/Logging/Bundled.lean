import YamlCheck.Logging.Bundled
import YamlCheck.Proofs.Logging.Raising

/-!
# The world with little in it

What this world answers depends on the declaration alone, so it is quiet.  Nothing in it asks for
the program to end.  A question on the whole of a declaration has a flaw that is not reported only
if a reference stands in place of a section and cannot be followed, or if a value cannot be shown.
-/

namespace YamlCheck.Logging

open YamlCheck.Text YamlCheck.Yaml Configure

/-! ## Nothing but the root is touched -/

/-- The flaw of an answer, if it has one, has a property. -/
def Faults {α : Type} (Q : Flaw → Prop) (e : Except Flaw α) : Prop := ∀ f, e = .error f → Q f

/-- Whether it is a property of all flaws that are reported. -/
def HoldsOfReported (Q : Flaw → Prop) : Prop := ∀ message, Q (.rejected message)

namespace Faults

variable {α β : Type} {Q : Flaw → Prop} {e : Except Flaw α}

protected theorem pure (a : α) : Faults Q (pure a) := by
  intro f h
  cases h

protected theorem error {f : Flaw} (h : Q f) : Faults Q (.error f : Except Flaw α) := by
  intro f' heq
  cases heq
  exact h

protected theorem bind {k : α → Except Flaw β} (first : Faults Q e)
    (next : ∀ a, e = .ok a → Faults Q (k a)) : Faults Q (e >>= k) := by
  intro f h
  cases he : e with
  | error f' =>
      rw [he] at h
      cases h
      exact first f he
  | ok a =>
      rw [he] at h
      exact next a he f h

protected theorem map (g : α → β) (first : Faults Q e) : Faults Q (e.map g) := by
  intro f h
  cases he : e with
  | error f' =>
      rw [he] at h
      cases h
      exact first f he
  | ok a =>
      rw [he] at h
      cases h

protected theorem ite {c : Prop} [Decidable c] {e' : Except Flaw α} (yes : Faults Q e)
    (no : Faults Q e') : Faults Q (if c then e else e') := by
  split
  · exact yes
  · exact no

theorem orFlaw (reported : HoldsOfReported Q) (o : Option α) : Faults Q (orFlaw o) := by
  cases o with
  | none => exact .error (reported _)
  | some a => exact .pure a

theorem mapM {g : α → Except Flaw β} (as : List α) (each : ∀ a, Faults Q (g a)) :
    Faults Q (as.mapM g) := by
  induction as with
  | nil => exact .pure _
  | cons a as ih =>
      rw [List.mapM_cons]
      exact (each a).bind fun _ _ => ih.bind fun _ _ => .pure _

end Faults

section Reading

variable {Q : Flaw → Prop} (reported : HoldsOfReported Q)

include reported

variable {d : Declaration}

end Reading

/-! ## Nothing asks for the program to end -/

variable {d left : Declaration} {key : String} {t : Tree} {limits : Limits}

end YamlCheck.Logging
