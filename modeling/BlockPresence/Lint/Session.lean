import BlockPresence.Lint.Walk

/-!
# Sessions

A session puts requests to one checker, over any trees and in any order. Only the memo passes from one request to the
next.
-/

namespace BlockPresence

/-- A request that uses or changes what the checker remembers. -/
inductive Request where
  /-- Starts a file. -/
  | openFile
  /-- Clears the memo. -/
  | reset
  /-- Asks whether a method assigns to a name. -/
  | reassigned (method : Method) (name : String)
  /-- Asks for the usable block parameter of a method. -/
  | usableParam (method : Method)
  /-- Asks the rule about a node. -/
  | check (tree : Tree) (node : Node)
  /-- Sends a node to a visitor. -/
  | visit (visitor : Visitor) (tree : Tree) (node : Node)

/-- The answer to a request. -/
inductive Reply where
  | done
  | flag (b : Bool)
  | param (name : Option String)
  | violation (v : Option Violation)

namespace Checker

/-- Answers one request. -/
def answer (c : Checker) (memo : Memo) : Request → Traced Reply × Memo
  | .openFile => (pure .done, c.openFile memo)
  | .reset => (pure .done, Memo.empty)
  | .reassigned method name =>
    let (b, memo) := memo.reassigned method name
    (pure (.flag b), memo)
  | .usableParam method =>
    let (name, memo) := memo.usableParam method
    (pure (.param name), memo)
  | .check t n =>
    let (found, memo) := c.rule.check t n memo
    (found.map .violation, memo)
  | .visit v t n =>
    let (found, memo) := c.visit v t n memo
    (found.map .violation, memo)

/-- Answers requests in turn. -/
def run (c : Checker) (memo : Memo) : List Request → List (Traced Reply)
  | [] => []
  | request :: rest =>
    let (reply, memo) := c.answer memo request
    reply :: c.run memo rest

end Checker

end BlockPresence
