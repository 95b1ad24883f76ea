import BlockPresence.Idiom.Basic
import BlockPresence.Idiom.Position

/-!
# Occurrences

Where the idioms occur: one recogniser for each.
-/

namespace BlockPresence

/-- A node that is an idiom. -/
structure Occurrence where
  node : Node
  idiom : Idiom
  /-- The block parameter that is referred to, for truthiness alone. -/
  param : Option String := none

mutual

/-- Whether a node is a call of the passed block, possibly in parentheses. -/
def Node.yields : Node → Bool
  | ⟨_, kind, slots, _⟩ => kind = .yielding || (kind = .group && Node.soleYields slots)

/-- Whether there is just one slot, and its node is a call of the passed block, possibly in parentheses. -/
def Node.soleYields : List (Slot Node) → Bool
  | [.node n] => n.yields
  | _ => false

end

namespace Occurrence

/-- The name of the method that tells whether a block was passed. -/
def callName : String := "block_given?"

/-- A call of `block_given?` without receiver and without arguments. -/
def call? (n : Node) : Option Occurrence :=
  if n.kind = .call && n.slots.length == 2 && (n.slot 0).isEmpty && (n.slot 1).isText callName then
    some { node := n, idiom := .call }
  else none

/-- The query whether a call of the passed block is defined. -/
def probe? (n : Node) : Option Occurrence :=
  if n.kind = .definedQuery && (n.slot 0).node?.any Node.yields then some { node := n, idiom := .probe } else none

/-- A read of the block parameter `param?` as a condition, where no block hides it. -/
def truthiness? (t : Tree) (n : Node) (param? : Option String) : Option Occurrence :=
  match param? with
  | none => none
  | some param =>
    if n.kind = .localRead && (n.slot 0).isText param && t.isOnlyTested n && !t.isHidden n param then
      some { node := n, idiom := .truthiness, param := some param }
    else none

/-- The idiom that a node is, given the usable block parameter of its method. -/
def of? (t : Tree) (n : Node) (param? : Option String) : Option Occurrence :=
  match n.kind with
  | .call => call? n
  | .definedQuery => probe? n
  | .localRead => truthiness? t n param?
  | _ => none

end Occurrence

end BlockPresence
