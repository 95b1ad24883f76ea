import BlockPresence.Lint.Session
import BlockPresence.Lint.Setup
import BlockPresence.Lint.Survey
import BlockPresence.Proofs.Tree.Ancestors
import BlockPresence.Proofs.Method.Innermost
import BlockPresence.Proofs.Idiom.Position
import BlockPresence.Proofs.Idiom.Shape
import BlockPresence.Proofs.Lint.Check
import BlockPresence.Proofs.Lint.Objection
import BlockPresence.Proofs.Text.Plain
import BlockPresence.Proofs.Lint.Visit
import BlockPresence.Proofs.Lint.Session
import BlockPresence.Proofs.Lint.Walk
import BlockPresence.Proofs.Idiom.Swap
import BlockPresence.Proofs.Lint.Recheck
import BlockPresence.Proofs.Lint.Advice
import BlockPresence.Proofs.Tree.Splice
import BlockPresence.Proofs.Lint.Rounds
import BlockPresence.Proofs.Advice.Edits
import BlockPresence.Proofs.Lint.Overlap
import BlockPresence.Proofs.Lint.Suggestion
import BlockPresence.Proofs.Lint.Faults
import BlockPresence.Proofs.Lint.Decision
import BlockPresence.Proofs.Lint.Undo
import BlockPresence.Proofs.Lint.Locality
import BlockPresence.Proofs.Lint.Registration
import BlockPresence.Proofs.Idiom.Shadowing
import BlockPresence.Proofs.Lint.Parentheses
import BlockPresence.Proofs.Lint.Renaming
import BlockPresence.Proofs.Advice.Substitution
import BlockPresence.Proofs.Tree.Parents
import BlockPresence.Proofs.Lint.Suppression
import BlockPresence.Proofs.Settings.Selection
import BlockPresence.Proofs.Text.Join
import BlockPresence.Proofs.Text.Steady
