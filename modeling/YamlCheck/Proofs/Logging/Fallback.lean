import YamlCheck.Proofs.Logging.Bundled
import YamlCheck.Proofs.Logging.Leaving

/-!
# What the fallback leaves as it is

Where no declaration can be used the root is set up anew, once its handlers have been closed, but
nothing else is.  So the fallback is clean exactly if the loggers still let the reports of a run
through.  In a quiet world they do after a file in which no plan was found.  After a plan that was
broken off, or whose root could not be configured, the loggers stay as the plan left them: the
reporter may be disabled or have a level that keeps its lines back, and the package may pass no
lines on.
-/

namespace YamlCheck.Logging

open YamlCheck.Text YamlCheck.Yaml Configure

/-! ## The state after the fallback -/

namespace State

end State

/-! ## Ways to the fallback -/

/-- Installing colours, and what is said of it. -/
abbrev starting (w : World) (s : State) : Except Incident Unit × Setup :=
  (SetUp.install w).run.run { state := s }

def Found.declared? : Found → Option Tree
  | .declaration t => some t
  | .missing | .empty => none

namespace SetUp

/-- The ways in which an incident keeps a file from being used, and the state that is left. -/
inductive Fails (w : World) (fs : FileSystem) (source : DeclarationSource) (s : State) :
    Incident → State → Prop
  | unread {i : Incident} (find : source.find w.limits fs = .error i) : Fails w fs source s i s
  | unclosed {found : Found} {f : Flaw} {s' : State} (find : source.find w.limits fs = .ok found)
      (nothing : found.declared? = none) (run : (fallBack w).run.run s = (.error f, s')) :
      Fails w fs source s f.incident s'
  | flawed {t : Tree} {f : Flaw} {s' : State}
      (find : source.find w.limits fs = .ok (.declaration t))
      (run : (carryOut w t >>= fun _ => announce w).run.run s = (.error f, s')) :
      Fails w fs source s f.incident s'

/-- There is a declaration, and a plan is found for it. -/
structure Reaches (w : World) (fs : FileSystem) (source : DeclarationSource) (s : State) (t : Tree)
    (p : Plan) (s' : State) : Prop where
  find : source.find w.limits fs = .ok (.declaration t)
  plan : (plan w t).run.run s = (.ok p, s')

variable {w : World} {fs : FileSystem} {source : DeclarationSource}

section Quiet

variable (quiet : w.Quiet) {s s' : State}

include quiet

end Quiet

end SetUp

section Quiet

variable {w : World} {fs : FileSystem} {source : DeclarationSource} {verbose : Bool}
  {s before left : State} {done : Setup}

end Quiet

end YamlCheck.Logging
