import ZeroOne.Session
import ZeroOne.Grammar.Parse
import ZeroOne.Proofs.BigStep
import ZeroOne.Proofs.Equality
import ZeroOne.Proofs.NormalForm
import ZeroOne.Proofs.Answer
import ZeroOne.Proofs.Simplification
import ZeroOne.Proofs.Derivation
import ZeroOne.Proofs.Spelling
import ZeroOne.Proofs.Viability
import ZeroOne.Proofs.Chart
import ZeroOne.Proofs.Documented
import ZeroOne.Proofs.Stops
import ZeroOne.Proofs.Methods
import ZeroOne.Proofs.Reader
import ZeroOne.Proofs.Stacks
import ZeroOne.Proofs.WordRun
import ZeroOne.Proofs.Scan
import ZeroOne.Proofs.Layout
import ZeroOne.Proofs.Lexing
import ZeroOne.Proofs.Agreement
import ZeroOne.Proofs.RoundTrip
import ZeroOne.Proofs.EmptyGroups
import ZeroOne.Proofs.Soundness
import ZeroOne.Proofs.Relabeling
import ZeroOne.Proofs.Mirror
import ZeroOne.Proofs.Blame
import ZeroOne.Proofs.Groups
import ZeroOne.Proofs.Conservation
import ZeroOne.Proofs.OnDemand
import ZeroOne.Proofs.Calls
import ZeroOne.Proofs.Resumption
import ZeroOne.Proofs.Sharing
import ZeroOne.Proofs.Passes
import ZeroOne.Proofs.ForeignItems
import ZeroOne.Proofs.Comparison
import ZeroOne.Proofs.Misspelling
import ZeroOne.Proofs.Progress
import ZeroOne.Proofs.Parentheses
import ZeroOne.Proofs.Expectation
import ZeroOne.Proofs.Printing
import ZeroOne.Proofs.History
import ZeroOne.Proofs.Relocation
import ZeroOne.Proofs.Waiting
