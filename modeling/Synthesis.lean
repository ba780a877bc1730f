import Synthesis.Main
import Synthesis.Proofs.Cost.Rounding
import Synthesis.Proofs.Tree.Built
import Synthesis.Proofs.Tree.Growth
import Synthesis.Proofs.Value.Saturation
import Synthesis.Proofs.Bounds.Soundness
import Synthesis.Proofs.Tree.FirstHole
import Synthesis.Proofs.Bounds.Pruning
import Synthesis.Proofs.Enumerator.Line
import Synthesis.Proofs.Enumerator.Pruning
import Synthesis.Proofs.Search.Steps
import Synthesis.Proofs.Search.Optimality
import Synthesis.Proofs.Grammar.Completion
import Synthesis.Proofs.Search.Completeness
import Synthesis.Proofs.Search.Interruption
import Synthesis.Proofs.Tree.Apart
import Synthesis.Proofs.Search.Repetition
import Synthesis.Proofs.Cost.Whole
import Synthesis.Proofs.Evaluation.Totality
import Synthesis.Proofs.Tree.Affordable
import Synthesis.Proofs.Search.Termination
import Synthesis.Proofs.Enumerator.Queue
import Synthesis.Proofs.Grammar.Derivation
import Synthesis.Proofs.Search.Invariant
import Synthesis.Proofs.Search.Succession
import Synthesis.Proofs.Enumerator.Checked
import Synthesis.Proofs.Evaluation.Checked
import Synthesis.Proofs.Search.Checked
import Synthesis.Proofs.Enumerator.Counting
import Synthesis.Proofs.Enumerator.Undo
import Synthesis.Proofs.Search.Budget
import Synthesis.Proofs.Search.Verdict
import Synthesis.Proofs.Search.Examples
import Synthesis.Proofs.Text.Spacing
import Synthesis.Proofs.Text.Sequence
import Synthesis.Proofs.Text.Names
import Synthesis.Proofs.Grammar.Format
import Synthesis.Proofs.Text.Numeral
import Synthesis.Proofs.Example.Format
import Synthesis.Proofs.Grammar.Faults
import Synthesis.Proofs.CommandLine.Stages
import Synthesis.Proofs.Tree.Nodes
import Synthesis.Proofs.Tree.Scan
import Synthesis.Proofs.Tree.Substitution
import Synthesis.Proofs.Tree.Sharing
import Synthesis.Proofs.Enumerator.Expansion
import Synthesis.Proofs.Bounds.Conditions
import Synthesis.Proofs.Evaluation.Persistence
import Synthesis.Proofs.Evaluation.Wrapping
import Synthesis.Proofs.Bounds.Capping
import Synthesis.Proofs.Tree.Printed
import Synthesis.Proofs.Example.Listing
import Synthesis.Proofs.Enumerator.Balance
import Synthesis.Proofs.Search.Balance
