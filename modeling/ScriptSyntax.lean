import ScriptSyntax.Main
import ScriptSyntax.Proofs.Resolution
import ScriptSyntax.Proofs.RoundTrip
import ScriptSyntax.Proofs.Recognition
import ScriptSyntax.Proofs.Arrangement
import ScriptSyntax.Proofs.Declarations
import ScriptSyntax.Proofs.Grammar.Congruence
import ScriptSyntax.Proofs.NestingLimit
import ScriptSyntax.Proofs.Grammar.Enclosed
import ScriptSyntax.Proofs.Sessions
import ScriptSyntax.Proofs.Segmentation
import ScriptSyntax.Proofs.Reprinting
import ScriptSyntax.Proofs.Grammar.Depth
import ScriptSyntax.Proofs.TreeHeight
import ScriptSyntax.Proofs.Shadowing
import ScriptSyntax.Proofs.Precedence
import ScriptSyntax.Proofs.Additions
import ScriptSyntax.Proofs.Lookahead
import ScriptSyntax.Proofs.Diagnosis
import ScriptSyntax.Proofs.SpanOrder
import ScriptSyntax.Proofs.Continuation
import ScriptSyntax.Proofs.ClosingQuote
import ScriptSyntax.Proofs.LiteralValues
import ScriptSyntax.Proofs.Progression
import ScriptSyntax.Proofs.Stratification
import ScriptSyntax.Proofs.Caret
import ScriptSyntax.Proofs.WholeCharacters
