import AnswerKey.Main
import AnswerKey.Proofs.Answer.BoxContents
import AnswerKey.Proofs.Answer.Composition
import AnswerKey.Proofs.Answer.ErrorPlaces
import AnswerKey.Proofs.Answer.Sources
import AnswerKey.Proofs.Declaration
import AnswerKey.Proofs.Evaluation.Extrapolation
import AnswerKey.Proofs.Evaluation.Quadrature
import AnswerKey.Proofs.Evaluation.Renaming
import AnswerKey.Proofs.Evaluation.Rendering
import AnswerKey.Proofs.Evaluation.Substitution
import AnswerKey.Proofs.Evaluation.UnknownNames
import AnswerKey.Proofs.Evaluation.Valueless
import AnswerKey.Proofs.Expr.Differentials
import AnswerKey.Proofs.Expr.Fractions
import AnswerKey.Proofs.Grading.Documents
import AnswerKey.Proofs.Grading.Draws
import AnswerKey.Proofs.Grading.Exchange
import AnswerKey.Proofs.Grading.Reflexivity
import AnswerKey.Proofs.Grading.Shape
import AnswerKey.Proofs.Grading.Verdicts
import AnswerKey.Proofs.Grammar.BracedDigits
import AnswerKey.Proofs.Grammar.Brackets
import AnswerKey.Proofs.Grammar.Characters
import AnswerKey.Proofs.Grammar.Integrals
import AnswerKey.Proofs.Grammar.Limits
import AnswerKey.Proofs.Grammar.Literals
import AnswerKey.Proofs.Grammar.Precedence
import AnswerKey.Proofs.Grammar.Termination
import AnswerKey.Proofs.Value.Closeness
