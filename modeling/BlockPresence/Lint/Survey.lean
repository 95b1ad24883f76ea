import BlockPresence.Lint.Rule

/-!
# Surveys

A survey says of every node that might be an idiom what is known about it, whatever the style.
-/

namespace BlockPresence

/-- What is known about a node. -/
structure SurveyRow where
  node : Node
  method : Option Method
  /-- The block parameter of the method, if it can be used. -/
  usable : Option String
  isOnlyTested : Bool
  /-- Whether a block hides the usable block parameter. -/
  isHidden : Bool
  idiom : Option Idiom

namespace SurveyRow

/-- What is known about one node. -/
def ofNode (t : Tree) (n : Node) (memo : Memo) : SurveyRow × Memo :=
  let method := Method.enclosing? t n
  let (usable, memo) := method.elim (none, memo) memo.usableParam
  ({ node := n
     method
     usable
     isOnlyTested := t.isOnlyTested n
     isHidden := usable.any fun name => t.isHidden n name
     idiom := (Occurrence.of? t n usable).map Occurrence.idiom },
   memo)

/-- What is known about the nodes in a list that might be an idiom. -/
def ofNodes (t : Tree) (memo : Memo) : List Node → List SurveyRow × Memo
  | [] => ([], memo)
  | n :: rest =>
    if Rule.concerns n.kind then
      let (row, memo) := ofNode t n memo
      let (rows, memo) := ofNodes t memo rest
      (row :: rows, memo)
    else ofNodes t memo rest

/-- Surveys trees in turn, with one memo that is never cleared. Returns the rows of each tree. -/
def ofTrees (memo : Memo) : List Tree → List (List SurveyRow)
  | [] => []
  | t :: rest =>
    let (rows, memo) := ofNodes t memo t.nodes
    rows :: ofTrees memo rest

end SurveyRow

end BlockPresence
