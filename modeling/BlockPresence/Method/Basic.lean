import BlockPresence.Syntax.Tree

/-!
# Methods

A method as its definition gives it: its name, its parameters, its body, and the name of its block parameter.
-/

namespace BlockPresence

/-- A method with an explicit block parameter, if it has one. -/
structure Method where
  /-- The definition. -/
  node : Node
  name : String
  parameters : List Node
  body : Option Node
  blockParam : Option String

namespace Method

/-- The name of the block parameter among the parameters of a method. The first block parameter counts; an anonymous one
has no name. -/
def blockParamOf (parameters : List Node) : Option String := do
  let param ← parameters.find? fun p => p.kind = .param .block
  let name ← (param.slot 0).text?
  if name.isEmpty then none else some name

/-- The position of the name of a method in its definition; parameters and body follow it. -/
def nameSlot (definition : Node) : Nat := if definition.kind = .singletonMethod then 1 else 0

/-- The method that a node defines. Of a node that defines none, the slots are read as if it were a plain definition. -/
def ofDefinition (definition : Node) : Method :=
  let i := nameSlot definition
  let parameters := (definition.slot (i + 1)).node?.elim [] Node.childNodes
  { node := definition
    name := (definition.slot i).text?.getD ""
    parameters
    body := (definition.slot (i + 2)).node?
    blockParam := blockParamOf parameters }

/-- The innermost method around a node. -/
def enclosing? (t : Tree) (n : Node) : Option Method :=
  ((t.ancestors n).find? fun a => a.kind.isDefinition).map ofDefinition

/-- Whether the body of the method writes to the local variable `name`, be it in a nested method or block. -/
def assigns (m : Method) (name : String) : Bool :=
  match m.body with
  | none => false
  | some body => (body :: body.descendants).any fun n => n.kind = .localWrite && (n.slot 0).isText name

end Method

end BlockPresence
