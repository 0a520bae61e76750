import ContractBasic.Main
import ContractBasic.Program.Build
import ContractBasic.Proofs.Evaluated
import ContractBasic.Proofs.Program.Names
import ContractBasic.Proofs.Rename.Meaning
import ContractBasic.Proofs.Rename.Assignments
import ContractBasic.Proofs.Rename.Restore
import ContractBasic.Proofs.Rename.Idempotence
import ContractBasic.Proofs.Rename.Privacy
import ContractBasic.Proofs.Layouts
import ContractBasic.Proofs.Grammar.Sentence
import ContractBasic.Proofs.Grammar.Completion
import ContractBasic.Proofs.Grammar.Attachment
import ContractBasic.Proofs.Text.Position
import ContractBasic.Proofs.Acceptance
import ContractBasic.Proofs.Verdict
import ContractBasic.Proofs.ViablePrefix
import ContractBasic.Proofs.Rename.Freshness
import ContractBasic.Proofs.Declarations
import ContractBasic.Proofs.Program.Scoping
import ContractBasic.Proofs.Program.SourceLines
import ContractBasic.Proofs.Token.Partition
import ContractBasic.Proofs.Token.Fault
import ContractBasic.Proofs.Token.Prefix
import ContractBasic.Proofs.Program.Groups
import ContractBasic.Proofs.Grouping
import ContractBasic.Proofs.Pointing
import ContractBasic.Proofs.Program.Json
import ContractBasic.Proofs.Program.Walks
import ContractBasic.Proofs.Program.Sums
import ContractBasic.Proofs.Print.CommentToken
import ContractBasic.Proofs.Rename.Search
