import BlockPresence.Advice.Basic
import BlockPresence.Text.Template.Piece

/-!
# The words of an advice

Every switch has a message template of its own, with the block parameter as its value.
-/

namespace BlockPresence

/-- Message templates for switches. Of two for the same switch the later one counts. -/
structure Templates where
  entries : List (Switch × Template)

namespace Templates

/-- The template for a switch. -/
def find? (ts : Templates) (s : Switch) : Option Template := ts.entries.reverse.lookup s

/-- The message for an advice. Without a block parameter the holes of the template stay empty. -/
def message (ts : Templates) (a : Advice) : Except Fault String :=
  match ts.find? a.switch with
  | none => .error (.noTemplate a.switch)
  | some template => (template.fill (a.param.getD "")).mapError .template

end Templates

end BlockPresence
