import GrammarInference.Grammar.Language
import GrammarInference.Main
import GrammarInference.Proofs.Deadline.Effect
import GrammarInference.Proofs.Derivation.Depth
import GrammarInference.Proofs.Derivation.Heights
import GrammarInference.Proofs.Derivation.LeastHeights
import GrammarInference.Proofs.Derivation.Productivity
import GrammarInference.Proofs.Drawing.Faithful
import GrammarInference.Proofs.Earley.Deadline
import GrammarInference.Proofs.Earley.Parse
import GrammarInference.Proofs.Earley.Recognizer
import GrammarInference.Proofs.Execution.Faithful
import GrammarInference.Proofs.Execution.Identity
import GrammarInference.Proofs.Generalization.Selection
import GrammarInference.Proofs.Grammar.Discovery
import GrammarInference.Proofs.Grammar.Meaning
import GrammarInference.Proofs.Grammar.Merging
import GrammarInference.Proofs.Grammar.NormalForm
import GrammarInference.Proofs.Grammar.Passes
import GrammarInference.Proofs.Grammar.Rounds
import GrammarInference.Proofs.Grammar.TidyForm
import GrammarInference.Proofs.Mining.Failure
import GrammarInference.Proofs.Mining.Finish
import GrammarInference.Proofs.Mining.Frame
import GrammarInference.Proofs.Mining.Hollow
import GrammarInference.Proofs.Mining.Miner
import GrammarInference.Proofs.Mining.Permutation
import GrammarInference.Proofs.Mining.TokenAlphabet
import GrammarInference.Proofs.Mining.TokenFailure
import GrammarInference.Proofs.Mining.TokenFile
import GrammarInference.Proofs.Pattern.Roots
import GrammarInference.Proofs.Refinement.Batches
import GrammarInference.Proofs.Refinement.Caching
import GrammarInference.Proofs.Refinement.Freshness
import GrammarInference.Proofs.Refinement.Names
import GrammarInference.Proofs.Refinement.Narrowing
import GrammarInference.Proofs.Refinement.Productivity
import GrammarInference.Proofs.Refinement.Questions
import GrammarInference.Proofs.Refinement.Rounds
import GrammarInference.Proofs.Refinement.Validation
import GrammarInference.Proofs.Trace.Inherited
import GrammarInference.Proofs.Trace.Lowest
import GrammarInference.Proofs.Trace.Progress
import GrammarInference.Proofs.Trace.RoundTrip
import GrammarInference.Proofs.Tree.History
