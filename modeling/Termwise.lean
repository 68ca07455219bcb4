import Termwise.Arena.Text
import Termwise.Concretization
import Termwise.Config
import Termwise.Proofs.Run.Grouping
import Termwise.Proofs.Run.Steady
import Termwise.Report.Layout
import Termwise.Proofs.Run.Classification
import Termwise.Proofs.Run.Account
import Termwise.Proofs.Run.Nested
import Termwise.Proofs.Run.Reading
import Termwise.Proofs.Run.Arithmetic
import Termwise.Proofs.Run.Precedence
import Termwise.Proofs.Run.Grammar
import Termwise.Proofs.Concretization.Gate
import Termwise.Proofs.Concretization.Steps
import Termwise.Proofs.Concretization.Copies
import Termwise.Proofs.Concretization.Walk
import Termwise.Proofs.Concretization.Visit
import Termwise.Proofs.Concretization.Soundness
import Termwise.Proofs.Run.Wholeness
import Termwise.Proofs.Concretization.Verdict
import Termwise.Proofs.Concretization.Literals
import Termwise.Proofs.Concretization.Consistency
import Termwise.Proofs.Concretization.Effects
import Termwise.Proofs.Concretization.Declared
import Termwise.Proofs.Concretization.Uses
import Termwise.Proofs.Concretization.Inlining
import Termwise.Proofs.Run.Failures
import Termwise.Proofs.Concretization.StepLaws
import Termwise.Proofs.Validity
import Termwise.Proofs.Run.Queue
import Termwise.Proofs.Concretization.Insertion
import Termwise.Proofs.Concretization.Parallel
import Termwise.Proofs.Concretization.ParallelWalks
import Termwise.Proofs.Run.Signs
import Termwise.Proofs.Registration
import Termwise.Proofs.ScopedOptions
import Termwise.Proofs.Wellformedness
import Termwise.Proofs.Termination
import Termwise.Proofs.SignedSums
import Termwise.Proofs.Run.OpenSlots
import Termwise.Proofs.Run.Balance
import Termwise.Proofs.Run.Staging
import Termwise.Proofs.Concretization.FailingBody
import Termwise.Proofs.Run.Coverage
import Termwise.Proofs.Run.Groups
import Termwise.Proofs.Concretization.Transplant
import Termwise.Proofs.Concretization.Rebuilding
import Termwise.Proofs.Concretization.Idempotence
import Termwise.Proofs.Casts.IntegerFloats
import Termwise.Proofs.Pragmas
import Termwise.Proofs.Casts.Contract
import Termwise.Proofs.Casts.IntegerText
import Termwise.Proofs.TypeTexts
import Termwise.Proofs.TypeNames
import Termwise.Proofs.Reports
import Termwise.Proofs.Traversal
