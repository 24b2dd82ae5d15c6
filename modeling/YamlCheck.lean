import YamlCheck.Main
import YamlCheck.Logging.Setup
import YamlCheck.Proofs.Run.Verdict
import YamlCheck.Proofs.Yaml.Lockstep
import YamlCheck.Proofs.Yaml.Stream
import YamlCheck.Proofs.Yaml.Detection
import YamlCheck.Proofs.Discovery.Exact
import YamlCheck.Proofs.Discovery.Session
import YamlCheck.Proofs.Yaml.Overriding
import YamlCheck.Proofs.Yaml.Turns
import YamlCheck.Proofs.Yaml.Agreement
import YamlCheck.Proofs.Yaml.Refusing
import YamlCheck.Proofs.Yaml.Outcome
import YamlCheck.Proofs.CommandLine.Precedence
import YamlCheck.Proofs.CommandLine.Creation
import YamlCheck.Proofs.Run.Influence
import YamlCheck.Proofs.Run.Reordered
import YamlCheck.Proofs.Run.Explicit
import YamlCheck.Proofs.Run.Failing
import YamlCheck.Proofs.Run.Unresolved
import YamlCheck.Proofs.Config.Loading
import YamlCheck.Proofs.Logging.Fallback
import YamlCheck.Proofs.Config.Heeding
import YamlCheck.Proofs.Config.Composing
import YamlCheck.Proofs.Logging.Escaping
import YamlCheck.Proofs.Yaml.PlainKeys
