import BlockPresence.Method.Basic

/-!
# Positions

What the ancestors of a node say about it: whether its value is only ever tested for truth, and whether a block between
it and its method hides a name. Both are read off the line of ancestors, from the parent outward.
-/

namespace BlockPresence

namespace Node

/-- Whether the value of a node below `ancestors` is only ever used as a condition. -/
def isOnlyTested (n : Node) : List Node → Bool
  | [] => false
  | parent :: outer =>
    match parent.kind with
    | .cond | .loop _ => (parent.slot 0).holds n
    | .call => parent.slots.length == 2 && (parent.slot 0).holds n && (parent.slot 1).isText "!"
    | .conj | .disj => parent.isOnlyTested outer
    | .group => parent.slots.length == 1 && parent.isOnlyTested outer
    | _ => false

/-- Whether a block declares a parameter `name`, at any depth of its parameter list. -/
def declares (block : Node) (name : String) : Bool :=
  match (block.slot 1).node? with
  | none => false
  | some params => params.descendants.any fun p => p.kind.isParam && (p.slot 0).isText name

/-- Whether a block around a node below `ancestors`, up to the definition of its method, declares a parameter `name`.
A block is not around the call that it is passed to. -/
def isHidden (n : Node) (name : String) : List Node → Bool
  | [] => false
  | a :: outer =>
    if a.kind.isDefinition then false
    else if a.kind = .block && !(a.slot 0).holds n && a.declares name then true
    else a.isHidden name outer

end Node

namespace Tree

/-- Whether the value of a node is only ever used as a condition. -/
def isOnlyTested (t : Tree) (n : Node) : Bool := n.isOnlyTested (t.ancestors n)

/-- Whether a block between a node and its method declares a parameter `name`. -/
def isHidden (t : Tree) (n : Node) (name : String) : Bool := n.isHidden name (t.ancestors n)

end Tree

end BlockPresence
