import ProgramLint.Proofs.Draft.History
import ProgramLint.Proofs.Linking.Bounded
import ProgramLint.Proofs.Linking.Descent
import ProgramLint.Proofs.Rule.Positions
import ProgramLint.Proofs.Tree.BottomUp
import ProgramLint.Proofs.Tree.Siblings
import ProgramLint.Proofs.Validator.Clean
import ProgramLint.Proofs.Validator.Configuration
import ProgramLint.Proofs.Validator.Journal
import ProgramLint.Proofs.Validator.Locality
import ProgramLint.Proofs.Validator.Renumbering
import ProgramLint.Proofs.Validator.Reordering
import ProgramLint.Proofs.Validator.Window
import ProgramLint.Proofs.Validator.Wording
