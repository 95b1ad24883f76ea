import BlockPresence.Syntax.Node
import Std.Data.TreeMap

/-!
# Trees

A tree is a root node with the path of its file and an index of the ancestors of every node below the root. The index is
built once, in one walk over the tree; nodes know nothing of what is above them. A node may belong to several trees, and
what is above it depends on the tree that is asked. A tree knows nothing above a node that is not in it.
-/

namespace BlockPresence

/-- For every node below a root the nodes above it, from its parent outward to the root. -/
abbrev AncestorIndex := Std.TreeMap Nat (List Node)

namespace AncestorIndex

/-- Enters the children of a node, whose own ancestors are known by now. -/
def enterChildren (index : AncestorIndex) (n : Node) : AncestorIndex :=
  let line := n :: index.getD n.id []
  n.childNodes.foldl (fun index child => index.insert child.id line) index

/-- The index of everything below `root`. -/
def ofRoot (root : Node) : AncestorIndex :=
  (root :: root.descendants).foldl enterChildren ∅

end AncestorIndex

/-- The syntax tree of a file. -/
structure Tree where
  root : Node
  path : String
  index : AncestorIndex
  index_eq : index = AncestorIndex.ofRoot root

namespace Tree

/-- The tree below and including `root`. -/
def ofRoot (root : Node) (path : String) : Tree :=
  { root, path, index := AncestorIndex.ofRoot root, index_eq := rfl }

/-- Every node of the tree, each before what is below it. -/
def nodes (t : Tree) : List Node := t.root :: t.root.descendants

/-- Whether a node is in the tree. -/
def contains (t : Tree) (n : Node) : Bool := n.id == t.root.id || t.index.contains n.id

/-- The nodes above a node, from its parent outward to the root. There are none above a node that is not in the tree. -/
def ancestors (t : Tree) (n : Node) : List Node := t.index.getD n.id []

/-- The node directly above a node. The root has none, nor has a node that is not in the tree. -/
def parent? (t : Tree) (n : Node) : Option Node := (t.ancestors n).head?

/-- Where a node starts, as path, line and column. -/
def location (t : Tree) (n : Node) : String := s!"{t.path}:{n.extent.line}:{n.extent.column}"

end Tree

end BlockPresence
