import BlockPresence.Method.Basic

/-!
# Remembered answers

A scan for assignments is done once for a method and a name, and its answer is remembered until the memo is cleared.
Methods are told apart by their definitions alone.
-/

namespace BlockPresence

/-- Remembered answers to the question whether a method assigns to a name, the latest first. -/
structure Memo where
  answers : List ((Nat × String) × Bool) := []
deriving DecidableEq, Repr

namespace Memo

/-- The memo that remembers nothing. -/
def empty : Memo := {}

/-- The remembered answer, if there is one. -/
def find? (memo : Memo) (m : Method) (name : String) : Option Bool := memo.answers.lookup (m.node.id, name)

/-- Whether the method assigns to a name, as remembered, or else as scanned and from now on remembered. -/
def reassigned (memo : Memo) (m : Method) (name : String) : Bool × Memo :=
  match memo.find? m name with
  | some answer => (answer, memo)
  | none =>
    let answer := m.assigns name
    (answer, ⟨((m.node.id, name), answer) :: memo.answers⟩)

/-- The block parameter of a method, if its truth still tells whether a block was passed: it must not be reassigned. -/
def usableParam (memo : Memo) (m : Method) : Option String × Memo :=
  match m.blockParam with
  | none => (none, memo)
  | some name =>
    let (reassigned, memo) := memo.reassigned m name
    (if reassigned then none else some name, memo)

end Memo

/-- The block parameter of a method that never reassigns it. -/
def Method.usableParam? (m : Method) : Option String :=
  m.blockParam.filter fun name => !m.assigns name

end BlockPresence
