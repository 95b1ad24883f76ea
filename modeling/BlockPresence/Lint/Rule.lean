import BlockPresence.Advice.Correction
import BlockPresence.Method.Memo
import BlockPresence.Settings.Config
import BlockPresence.Settings.Registry

/-!
# The rule

The rule looks at one node of a tree and reports at most one violation. `Rule.judge` decides, once the method around the
node and its usable block parameter are known. `Rule.check` finds them, with the help of a memo for assignments.
-/

namespace BlockPresence

/-- What the rule found wrong. -/
structure Violation where
  message : String
  /-- Path, line and column. -/
  location : String
  node : Node
  /-- The correction, if the configuration asks for corrections. -/
  correction : Option Correction

namespace Violation

/-- The code under which a violation is reported. -/
def code (_ : Violation) : String := ruleCode

def isFixable (v : Violation) : Bool := v.correction.isSome

end Violation

/-- The rule as it is set up. -/
structure Rule where
  config : Config
  templates : Templates
  /-- How to mend a violation by hand. -/
  instructions : String := ""
  description : String := ruleDescription

namespace Rule

/-- Whether nodes of this kind are looked at. -/
def concerns : Kind → Bool
  | .call | .definedQuery | .localRead => true
  | _ => false

/-- Whether truthiness is at stake at a node, as what it may be or as what the style prefers. -/
def needsParam (r : Rule) (n : Node) : Bool := r.config.style.preferred = .truthiness || n.kind = .localRead

/-- The violation at a node in a method whose usable block parameter is `param?`. Where the preferred idiom would refer
to a parameter that a block hides, there is none. -/
def judge (r : Rule) (t : Tree) (n : Node) (method : Method) (param? : Option String) : Traced (Option Violation) := do
  let some occurrence := Occurrence.of? t n param? | return none
  let some advice ← r.config.style.advise occurrence method param? | return none
  if advice.switch.preferred = .truthiness && t.isHidden n advice.replacement then
    Traced.record (.hiddenParam advice.replacement (t.location n))
    return none
  let message ← Traced.ofExcept (r.templates.message advice)
  return some
    { message
      location := t.location n
      node := n
      correction := if r.config.autocorrect then some (Correction.ofNode n advice.replacement) else none }

/-- The usable block parameter of the method around a node, where truthiness is at stake. -/
def paramFor (r : Rule) (n : Node) (method : Method) (memo : Memo) : Option String × Memo :=
  if r.needsParam n then memo.usableParam method else (none, memo)

/-- The violation at a node of a tree. -/
def check (r : Rule) (t : Tree) (n : Node) (memo : Memo) : Traced (Option Violation) × Memo :=
  if concerns n.kind then
    match Method.enclosing? t n with
    | none => (pure none, memo)
    | some method =>
      let (param?, memo) := r.paramFor n method memo
      (r.judge t n method param?, memo)
  else (pure none, memo)

/-- The violation at a node of a tree, found without a memo. -/
def plainCheck (r : Rule) (t : Tree) (n : Node) : Traced (Option Violation) :=
  if concerns n.kind then
    match Method.enclosing? t n with
    | none => pure none
    | some method => r.judge t n method (if r.needsParam n then method.usableParam? else none)
  else pure none

/-- The correction of a violation. -/
def fix (_ : Rule) (v : Violation) : Option Correction := v.correction

/-- What to tell someone who mends a violation by hand. -/
def fixInstructions (r : Rule) (v : Violation) : String :=
  if r.instructions.isEmpty then v.message else v.message ++ " " ++ r.instructions

end Rule

end BlockPresence
