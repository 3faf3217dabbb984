import Reckon.Main
import Reckon.Proofs.Evaluation.Adjacency
import Reckon.Proofs.Evaluation.Bracket
import Reckon.Proofs.Evaluation.Verdict
import Reckon.Proofs.Formula.Dependence
import Reckon.Proofs.Formula.Failure
import Reckon.Proofs.Formula.Printing
import Reckon.Proofs.Formula.Report
import Reckon.Proofs.Formula.Tree
import Reckon.Proofs.Formula.Bracketing
import Reckon.Proofs.Formula.Origin
import Reckon.Proofs.Formula.Written
import Reckon.Proofs.Formula.Obtainable
import Reckon.Proofs.Formula.Representation
import Reckon.Proofs.Formula.Occurrence
import Reckon.Proofs.Formula.Residue
import Reckon.Proofs.Formula.Assignment
import Reckon.Proofs.Formula.Grouping
import Reckon.Proofs.Formula.Equality
import Reckon.Proofs.Token.Integer
import Reckon.Proofs.Operator.Remainder
import Reckon.Proofs.Machine.Consumption
import Reckon.Proofs.Evaluation.Passage
import Reckon.Proofs.Token.Quotation
import Reckon.Proofs.Evaluation.Placement
import Reckon.Proofs.Formula.Listing
import Reckon.Proofs.CommandLine.ExitStatus
