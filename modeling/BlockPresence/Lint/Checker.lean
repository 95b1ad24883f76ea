import BlockPresence.Lint.Rule

/-!
# The checker

The checker is what a host registers. The host walks over a tree and hands every node to the visitor that the kind of
the node names, if the checker has it; the checker hands on to the rule what can be a violation.
-/

namespace BlockPresence

/-- The name of the visitor for nodes of a kind: the name of the kind without the question marks at its end. -/
def Kind.visitorName (k : Kind) : String :=
  String.ofList ("visit_".toList ++ (k.name.toList.reverse.dropWhile fun c => c = '?').reverse)

/-- The visitors of the checker. -/
inductive Visitor where
  | call
  | definedQuery
  | localRead
deriving DecidableEq, Repr

namespace Visitor

def all : List Visitor := [call, definedQuery, localRead]

def name : Visitor → String
  | call => "visit_send"
  | definedQuery => "visit_defined"
  | localRead => "visit_lvar"

/-- The visitor of a name. -/
def ofName? (s : String) : Option Visitor := all.find? fun v => v.name == s

/-- The visitor for a node. -/
def for? (n : Node) : Option Visitor := ofName? n.kind.visitorName

end Visitor

/-- The checker of the rule. -/
structure Checker where
  rule : Rule

namespace Checker

/-- The name under which a host knows the checker. -/
def name : String := "fast-block-given"

/-- The codes of the violations that the checker reports. -/
def codes : List String := [ruleCode]

/-- The calls that the checker wants to see, by the name of the method. -/
def wantedCalls : List String := [Occurrence.callName]

/-- Checks a node, and logs the violation that is reported. -/
def report (c : Checker) (t : Tree) (n : Node) (memo : Memo) : Traced (Option Violation) × Memo :=
  let (found, memo) := c.rule.check t n memo
  (do
    let violation? ← found
    if let some v := violation? then Traced.record (.reported v.code v.location v.message)
    return violation?,
   memo)

/-- What a visitor reports at a node. -/
def visit (c : Checker) (v : Visitor) (t : Tree) (n : Node) (memo : Memo) : Traced (Option Violation) × Memo :=
  match v with
  | .call =>
    if wantedCalls.any fun s => (n.slot 1).isText s then c.report t n memo else (pure none, memo)
  | .definedQuery | .localRead => c.report t n memo

end Checker

end BlockPresence
