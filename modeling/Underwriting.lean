import Underwriting.Main
import Underwriting.Proofs.Evaluation.InTurn
import Underwriting.Proofs.Evaluation.Targets
import Underwriting.Proofs.Frame.RoundTrip
import Underwriting.Proofs.Rule.Acceptance
import Underwriting.Proofs.RuleSet.History
import Underwriting.Proofs.RuleSet.Insertion
import Underwriting.Proofs.RuleSet.Parallel
import Underwriting.Proofs.Service.InlineLogic
import Underwriting.Proofs.Service.Responses
import Underwriting.Proofs.Tree.Duality
import Underwriting.Proofs.Tree.Trace
import Underwriting.Proofs.Config.Validity
import Underwriting.Proofs.Rule.Faults
import Underwriting.Proofs.Rule.Places
import Underwriting.Proofs.Rule.FirstFault
import Underwriting.Proofs.Comparison.Laws
import Underwriting.Proofs.Tree.Grouping
import Underwriting.Proofs.Draft.Replies
import Underwriting.Proofs.Json.Syntax
import Underwriting.Proofs.Json.NestingLimit
import Underwriting.Proofs.Value.Order
import Underwriting.Proofs.Rule.Order
import Underwriting.Proofs.Yaml.Trees
import Underwriting.Proofs.Rule.Sources
import Underwriting.Context.Walk
import Underwriting.Proofs.Context.Walk
import Underwriting.Proofs.Config.Messages
import Underwriting.Proofs.Evaluation.Shape
import Underwriting.Proofs.Comparison.TextBounds
import Underwriting.Proofs.Evaluation.Confinement
import Underwriting.Proofs.Context.Lens
import Underwriting.Context.Index
import Underwriting.Proofs.Context.Index
import Underwriting.Proofs.CommandLine.RequestLoop
