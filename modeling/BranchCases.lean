import BranchCases.History
import BranchCases.Main
import BranchCases.Proofs.SharedStack
import BranchCases.Proofs.Tokens
import BranchCases.Proofs.UniqueReading
import BranchCases.Proofs.Nesting
import BranchCases.Proofs.Emission
import BranchCases.Proofs.Output
import BranchCases.Proofs.Histories
import BranchCases.Proofs.Replacing
import BranchCases.Proofs.FirstMatch
import BranchCases.Proofs.Senders
import BranchCases.Proofs.Enlarging
import BranchCases.Proofs.Numbering
import BranchCases.Proofs.TestLines
import BranchCases.Proofs.Distinctness
import BranchCases.Proofs.Cutting
import BranchCases.Proofs.Reports
import BranchCases.Proofs.Counting
import BranchCases.Proofs.Survivors
import BranchCases.Proofs.Padding
import BranchCases.Proofs.Supply
import BranchCases.Proofs.Places
import BranchCases.Proofs.Clauses
import BranchCases.Proofs.RawTexts
import BranchCases.Proofs.Validity
import BranchCases.Proofs.Joining
import BranchCases.Proofs.Occurrences
import BranchCases.Proofs.Consuming
