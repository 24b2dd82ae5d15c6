import YamlCheck.Logging.Setup
import YamlCheck.Proofs.Logging.Carrying

/-!
# What a flawed declaration leaves behind

A declaration with a flaw is carried out up to there.  In a quiet world the two loggers that the
reports of a run depend on are as they were if the flaw comes before the loggers.  Otherwise they
are what their own descriptions have made of them, or what becomes of loggers that were not
mentioned; that is dealt with between the last description and the root.
-/

namespace YamlCheck.Logging

open YamlCheck.Text YamlCheck.Yaml

namespace State

/-- Whether the reports of a run get to the root, as far as loggers decide on it. -/
structure Ready (s : State) : Prop where
  passes : holds (s.logger packageName).propagates = true
  enabled : holds (s.logger reporterName).disabled = false
  level : (s.logger reporterName).level.number ≤ Level.info.number
  cutoff : s.cutoff < Level.info.number

end State

namespace Configure

variable {w : World} {t : Tree} {p : Plan}

section Announce

variable (quiet : w.Quiet)

include quiet

end Announce

section Ready

variable {s s' : State}

variable (present : p.mark.isSome → packageName ∈ p.present ∧ reporterName ∈ p.present)

include present

end Ready

end Configure

end YamlCheck.Logging
