import BlockScript.Main
import BlockScript.Proofs.Selections
import BlockScript.Proofs.References
import BlockScript.Proofs.DraftReading
import BlockScript.Proofs.WarningOptions
import BlockScript.Proofs.Progress
import BlockScript.Proofs.PartialGraphs
import BlockScript.Proofs.Construction
import BlockScript.Proofs.Outputs
import BlockScript.Proofs.Divisors
import BlockScript.Proofs.Indentation
import BlockScript.Proofs.Conditionals
import BlockScript.Proofs.OperatorMeaning
import BlockScript.Proofs.UnreachableCode
import BlockScript.Proofs.Excerpts
import BlockScript.Proofs.Respacing
import BlockScript.Proofs.UnusedNames
