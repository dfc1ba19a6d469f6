import Formula.Main
import Formula.Proofs.Parser.Yield
import Formula.Proofs.Parser.Readings
import Formula.Proofs.Parser.Chain
import Formula.Proofs.Parser.Delimiters
import Formula.Proofs.Parser.Runs
import Formula.Proofs.Parser.RoundTrip
import Formula.Proofs.Value.Equality
import Formula.Proofs.Evaluation.Optimize
import Formula.Proofs.Evaluation.Boxing
import Formula.Proofs.Evaluation.Arity
import Formula.Proofs.Evaluation.Places
import Formula.Proofs.Evaluation.Agreement
import Formula.Proofs.Evaluation.Building
import Formula.Proofs.Evaluation.SettlingMixed
import Formula.Proofs.Evaluation.Described
import Formula.Proofs.Evaluation.Reduced
import Formula.Proofs.Evaluation.Unbound
import Formula.Proofs.Parser.Emptiness
import Formula.Proofs.Cache.Sharing
import Formula.Proofs.Parser.Blanks
import Formula.Proofs.Token.Quoting
import Formula.Proofs.Parser.Conditionals
import Formula.Proofs.Parser.Progress
import Formula.Proofs.Token.Whole
import Formula.Proofs.CommandLine.Lines
import Formula.Proofs.Report.Pointing
import Formula.Proofs.Token.Longest
import Formula.Proofs.Tree.Positions
