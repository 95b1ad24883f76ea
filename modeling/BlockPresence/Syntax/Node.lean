import BlockPresence.Syntax.Extent
import BlockPresence.Syntax.Kind
import BlockPresence.Text.Quoted

/-!
# Nodes

A node has a kind and a list of slots; a slot holds a node, a name, or nothing. Nodes are told apart by their `id`,
never by their looks: two nodes of one shape in different places are different nodes.

* `Node.descendants` walks a tree with an explicit worklist, `Node.preorder` by recursion on the tree;
* `Node.walk_eq_flatMap_preorder` says that both see the same nodes in the same order.
-/

namespace BlockPresence

/-- A place of a node. -/
inductive Slot (α : Type) where
  | node (n : α)
  | text (s : String)
  | empty

/-- A node of a syntax tree. -/
structure Node where
  id : Nat
  kind : Kind
  slots : List (Slot Node)
  extent : Extent

namespace Slot

/-- The node in a slot, if it holds one. -/
def node? {α : Type} : Slot α → Option α
  | node n => some n
  | _ => none

/-- The name in a slot, if it holds one. -/
def text? {α : Type} : Slot α → Option String
  | text s => some s
  | _ => none

/-- Whether the slot holds the very node `n`. -/
def holds (n : Node) : Slot Node → Bool
  | node m => m.id == n.id
  | _ => false

/-- Whether the slot holds the name `s`. -/
def isText {α : Type} (s : String) : Slot α → Bool
  | text t => t == s
  | _ => false

def isEmpty {α : Type} : Slot α → Bool
  | empty => true
  | _ => false

section

variable {α : Type} {x : Slot α} {s : String}

@[simp] theorem node?_eq_some_iff {n : α} : x.node? = some n ↔ x = node n := by
  cases x <;> simp [node?]

@[simp] theorem text?_eq_some_iff : x.text? = some s ↔ x = text s := by
  cases x <;> simp [text?]

@[simp] theorem isText_iff : x.isText s = true ↔ x = text s := by
  cases x <;> simp [isText]

@[simp] theorem isEmpty_iff : x.isEmpty = true ↔ x = empty := by
  cases x <;> simp [isEmpty]

end

theorem holds_iff {n : Node} {x : Slot Node} : x.holds n = true ↔ ∃ m, x = node m ∧ m.id = n.id := by
  cases x <;> simp [holds]

end Slot

namespace Node

/-- The nodes directly below a node. -/
def childNodes (n : Node) : List Node := n.slots.filterMap Slot.node?

/-- The slot at a position. Beyond the last one every slot is empty. -/
def slot (n : Node) (i : Nat) : Slot Node := n.slots.getD i .empty

/-- The slot at a position, empty also where the position is negative. -/
def slotAt (n : Node) (i : Int) : Slot Node := if i < 0 then .empty else n.slot i.toNat

/-! ## Size -/

mutual

/-- The number of nodes in the tree below and including a node. -/
def size : Node → Nat
  | ⟨_, _, slots, _⟩ => sizeSlots slots + 1

/-- The number of nodes in a list of slots. -/
def sizeSlots : List (Slot Node) → Nat
  | [] => 0
  | .node n :: rest => n.size + sizeSlots rest
  | .text _ :: rest => sizeSlots rest
  | .empty :: rest => sizeSlots rest

end

/-- The number of nodes in the trees of a worklist. -/
def sizeAll : List Node → Nat
  | [] => 0
  | n :: rest => n.size + sizeAll rest

theorem sizeAll_append (ns ms : List Node) : sizeAll (ns ++ ms) = sizeAll ns + sizeAll ms := by
  induction ns with
  | nil => exact (Nat.zero_add _).symm
  | cons n ns ih => simp only [List.cons_append, sizeAll, ih, Nat.add_assoc]

theorem sizeSlots_eq (slots : List (Slot Node)) : sizeSlots slots = sizeAll (slots.filterMap Slot.node?) := by
  induction slots with
  | nil => rfl
  | cons s rest ih => cases s <;> simp [sizeSlots, sizeAll, Slot.node?, List.filterMap_cons, ih]

theorem size_eq (n : Node) : n.size = sizeAll n.childNodes + 1 := by
  cases n
  simp only [size, childNodes, sizeSlots_eq]

/-! ## Walks -/

/-- Takes the nodes of a worklist in turn, each followed by everything below it. -/
def walk : List Node → List Node
  | [] => []
  | n :: rest => n :: walk (n.childNodes ++ rest)
termination_by work => sizeAll work
decreasing_by
  simp only [sizeAll_append, sizeAll, size_eq n]
  omega

/-- Every node below a node, each before what is below it, from left to right. -/
def descendants (n : Node) : List Node := walk n.childNodes

mutual

/-- A node and every node below it, each before what is below it, from left to right. -/
def preorder : Node → List Node
  | n@⟨_, _, slots, _⟩ => n :: preorderSlots slots

/-- The nodes in a list of slots, each before what is below it, from left to right. -/
def preorderSlots : List (Slot Node) → List Node
  | [] => []
  | .node n :: rest => n.preorder ++ preorderSlots rest
  | .text _ :: rest => preorderSlots rest
  | .empty :: rest => preorderSlots rest

end

theorem preorderSlots_eq (slots : List (Slot Node)) :
    preorderSlots slots = (slots.filterMap Slot.node?).flatMap preorder := by
  induction slots with
  | nil => rfl
  | cons s rest ih => cases s <;> simp [preorderSlots, Slot.node?, List.filterMap_cons, ih]

theorem preorder_eq (n : Node) : n.preorder = n :: n.childNodes.flatMap preorder := by
  cases n
  simp only [preorder, childNodes, preorderSlots_eq]

/-- The worklist walk is the pre-order of its worklist. -/
theorem walk_eq_flatMap_preorder (work : List Node) : walk work = work.flatMap preorder := by
  fun_induction walk work with
  | case1 => rfl
  | case2 n rest ih => rw [ih, List.flatMap_append, List.flatMap_cons, preorder_eq n, List.cons_append]

/-! ## Text -/

/-- The text of a node: its kind and its bounds. -/
def display (n : Node) : String :=
  s!"SyntaxNode({Text.quoted n.kind.name}, {n.extent.start}..{n.extent.stop})"

end Node

end BlockPresence
