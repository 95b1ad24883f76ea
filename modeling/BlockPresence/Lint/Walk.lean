import BlockPresence.Lint.Checker

/-!
# Linting files

A walk over the nodes of every file, with one checker and one memo for all of them. The memo is cleared before each
file. A fault at a node does not end the walk.
-/

namespace BlockPresence

/-- What is noted at a node. -/
inductive Finding where
  | violation (v : Violation)
  | fault (node : Node) (f : Fault)

/-- What is noted in a file. -/
structure FileReport where
  findings : List Finding := []
  log : List Event := []

namespace Checker

/-- What a visit leaves behind. -/
def findingsOf (n : Node) : Except Fault (Option Violation) → List Finding
  | .ok none => []
  | .ok (some v) => [.violation v]
  | .error f => [.fault n f]

/-- Visits a node, if there is a visitor for it. -/
def visitNode (c : Checker) (t : Tree) (n : Node) (memo : Memo) : FileReport × Memo :=
  match Visitor.for? n with
  | none => ({}, memo)
  | some v =>
    let (visited, memo) := c.visit v t n memo
    (⟨findingsOf n visited.result, visited.log⟩, memo)

/-- Visits nodes in turn. -/
def visitNodes (c : Checker) (t : Tree) (memo : Memo) : List Node → FileReport × Memo
  | [] => ({}, memo)
  | n :: rest =>
    let (first, memo) := c.visitNode t n memo
    let (others, memo) := c.visitNodes t memo rest
    (⟨first.findings ++ others.findings, first.log ++ others.log⟩, memo)

/-- Starts a file: what was remembered is forgotten. -/
def openFile (_ : Checker) (_ : Memo) : Memo := Memo.empty

/-- Lints files in turn. -/
def lint (c : Checker) (memo : Memo) : List Tree → List FileReport × Memo
  | [] => ([], memo)
  | t :: rest =>
    let (report, memo) := c.visitNodes t (c.openFile memo) t.nodes
    let (reports, memo) := c.lint memo rest
    (report :: reports, memo)

end Checker

end BlockPresence
