import Formula.Main
import Formula.Proofs.Grammar.Frame
import Formula.Proofs.Grammar.Height
import Formula.Proofs.Grammar.Limit
import Formula.Proofs.Expr.Shape
import Formula.Proofs.Phrase.Basic
import Formula.Proofs.Phrase.Rendered
import Formula.Proofs.Grammar.Outcome
import Formula.Proofs.Single.Rereading
import Formula.Proofs.Chained.Rereading
import Formula.Proofs.Chained.RoundTrip
import Formula.Proofs.Chained.Steep
import Formula.Proofs.Chained.Language
import Formula.Proofs.Agreement
import Formula.Proofs.Chained.Completeness
import Formula.Proofs.Chained.Conservation
import Formula.Proofs.Binary64.Bits
import Formula.Proofs.Decimal.Plain
import Formula.Proofs.Single.Conservation
import Formula.Proofs.Single.RoundTrip
import Formula.Proofs.Single.Language
import Formula.Proofs.Token.Touching
import Formula.Proofs.Chained.Folding
import Formula.Proofs.Token.Lexeme
import Formula.Proofs.Single.Parentheses
import Formula.Proofs.Token.Separate
import Formula.Proofs.Ignored
import Formula.Proofs.Command.Line
import Formula.Proofs.Command.Session
import Formula.Proofs.Chained.Trace
import Formula.Proofs.Token.Run
import Formula.Proofs.Area
import Formula.Proofs.Expr.Outline
import Formula.Proofs.Grammar.InStep
import Formula.Proofs.Single.InStep
import Formula.Proofs.Single.Enclosed
import Formula.Proofs.Chained.InStep
import Formula.Proofs.EndOfInput
