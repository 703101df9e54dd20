import ContextFree.Derivation
import ContextFree.Main
import ContextFree.Proofs.Abbreviation
import ContextFree.Proofs.Absorption
import ContextFree.Proofs.EpsilonFree
import ContextFree.Proofs.UnitFree
import ContextFree.Proofs.Useful
import ContextFree.Proofs.Isolation
import ContextFree.Proofs.Binarization
import ContextFree.Proofs.Conversion
import ContextFree.Proofs.NormalForm
import ContextFree.Proofs.Stability
import ContextFree.Proofs.Words
import ContextFree.Proofs.Masks
import ContextFree.Proofs.Refusal
import ContextFree.Proofs.Limits
import ContextFree.Proofs.Stages
import ContextFree.Proofs.Emptiness
import ContextFree.Proofs.Arguments
import ContextFree.Proofs.Records
import ContextFree.Proofs.Warning
import ContextFree.Proofs.Lexing
import ContextFree.Proofs.LineGrammar
import ContextFree.Proofs.TextFormat
import ContextFree.Proofs.NewNames
import ContextFree.Proofs.Writing
import ContextFree.Proofs.RoundTrip
import ContextFree.Proofs.Flags
import ContextFree.Proofs.Verbosity
import ContextFree.Proofs.Nullability
import ContextFree.Proofs.Variants
import ContextFree.Proofs.UnitRows
import ContextFree.Proofs.Pruning
import ContextFree.Proofs.Substitution
import ContextFree.Proofs.Chains
import ContextFree.Proofs.Idempotence
import ContextFree.Proofs.Description
import ContextFree.Proofs.Building
import ContextFree.Proofs.LineSyntax
import ContextFree.Proofs.LongestMatch
import ContextFree.Proofs.Layout
import ContextFree.Proofs.FreshNames
import ContextFree.Proofs.NameReuse
import ContextFree.Proofs.Rounds
import ContextFree.Proofs.Additions
