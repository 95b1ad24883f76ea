import BlockPresence.Proofs.Tree.Replace

/-!
# Trees that differ in names and identities

`Node.look` forgets identities and places, `Node.rename` changes the names of local variables. Both leave the structure
of a tree alone: they are instances of `Node.Relabels`, and what is below a relabelled node is what was below the node,
relabelled (`Relabels.preorder`).

Nodes of two trees have the same place if the same slots lead to them from the roots (`Node.SamePlace`). Where the trees
look alike, every node of the one has a counterpart in the other (`exists_samePlace`).
-/

namespace BlockPresence

/-- Whether a node of this kind names a local variable, in its first slot. -/
def Kind.namesLocal : Kind → Bool
  | .localRead | .localWrite | .param _ => true
  | _ => false

namespace Slot

variable {α β : Type} {f : String → String} {x : Slot α}

/-- Changes the name in a slot. -/
def mapText (f : String → String) : Slot α → Slot α
  | text s => text (f s)
  | x => x

theorem mapText_id : x.mapText (fun s => s) = x := by
  cases x <;> rfl

theorem map_mapText {g : α → β} : (x.mapText f).map g = (x.map g).mapText f := by
  cases x <;> rfl

@[simp] theorem node?_mapText : (x.mapText f).node? = x.node? := by
  cases x <;> rfl

@[simp] theorem text?_mapText : (x.mapText f).text? = x.text?.map f := by
  cases x <;> rfl

@[simp] theorem text?_map {g : α → β} : (x.map g).text? = x.text? := by
  cases x <;> rfl

@[simp] theorem isText_map {g : α → β} {s : String} : (x.map g).isText s = x.isText s := by
  cases x <;> rfl

theorem map_map {γ : Type} {g : α → β} {h : β → γ} : (x.map g).map h = x.map fun a => h (g a) := by
  cases x <;> rfl

end Slot

namespace Node

variable {f : String → String}

/-! ## Names of local variables -/

/-- The slots of a node of kind `k`, with the name of a local variable changed by `f`. -/
def headNames {α : Type} (f : String → String) (k : Kind) : List (Slot α) → List (Slot α)
  | [] => []
  | s :: rest => (if k.namesLocal then s.mapText f else s) :: rest

section

variable {α β : Type} {k : Kind} {slots : List (Slot α)}

theorem headNames_id : headNames (fun s => s) k slots = slots := by
  cases slots with
  | nil => rfl
  | cons s rest => rw [headNames, Slot.mapText_id, ite_self]

theorem map_headNames {g : α → β} :
    (headNames f k slots).map (Slot.map g) = headNames f k (slots.map (Slot.map g)) := by
  cases slots with
  | nil => rfl
  | cons s rest =>
    rw [headNames, List.map_cons, List.map_cons, headNames, apply_ite (Slot.map g), Slot.map_mapText]

theorem length_headNames : (headNames f k slots).length = slots.length := by
  cases slots <;> rfl

theorem filterMap_headNames : (headNames f k slots).filterMap Slot.node? = slots.filterMap Slot.node? := by
  cases slots with
  | nil => rfl
  | cons s rest =>
    have hs : (if k.namesLocal then s.mapText f else s).node? = s.node? := by split <;> simp
    rw [headNames, List.filterMap_cons, List.filterMap_cons, hs]

theorem headNames_of_not (hk : k.namesLocal = false) : headNames f k slots = slots := by
  cases slots with
  | nil => rfl
  | cons s rest => rw [headNames, if_neg (by simp [hk])]

end

mutual

/-- The tree with the names of local variables changed by `f`. -/
def rename (f : String → String) : Node → Node
  | ⟨id, kind, slots, extent⟩ => ⟨id, kind, headNames f kind (renameSlots f slots), extent⟩

/-- The slots with the names of local variables changed by `f` in the trees that they hold. -/
def renameSlots (f : String → String) : List (Slot Node) → List (Slot Node)
  | [] => []
  | .node n :: rest => .node (n.rename f) :: renameSlots f rest
  | .text s :: rest => .text s :: renameSlots f rest
  | .empty :: rest => .empty :: renameSlots f rest

end

theorem renameSlots_eq (slots : List (Slot Node)) : renameSlots f slots = slots.map (Slot.map (rename f)) := by
  induction slots with
  | nil => rfl
  | cons x rest ih => cases x <;> simp [renameSlots, Slot.map, ih]

/-! ## Looks -/

mutual

/-- How a node looks: the node without identities and places. -/
def look : Node → Node
  | ⟨_, kind, slots, _⟩ => ⟨0, kind, lookSlots slots, .origin⟩

/-- How the nodes in a list of slots look. -/
def lookSlots : List (Slot Node) → List (Slot Node)
  | [] => []
  | .node n :: rest => .node n.look :: lookSlots rest
  | .text s :: rest => .text s :: lookSlots rest
  | .empty :: rest => .empty :: lookSlots rest

end

theorem lookSlots_eq (slots : List (Slot Node)) : lookSlots slots = slots.map (Slot.map look) := by
  induction slots with
  | nil => rfl
  | cons x rest ih => cases x <;> simp [lookSlots, Slot.map, ih]

theorem look_eq (n : Node) : n.look = ⟨0, n.kind, n.slots.map (Slot.map look), .origin⟩ := by
  cases n
  rw [look, lookSlots_eq]

theorem look_congr {n s : Node} (hk : n.kind = s.kind) (hs : n.slots = s.slots) : n.look = s.look := by
  rw [look_eq, look_eq, hk, hs]

/-! ## Relabelling -/

/-- The function `g` changes the names of local variables by `f`, perhaps identities and places, and nothing else. -/
structure Relabels (f : String → String) (g : Node → Node) : Prop where
  kind : ∀ n, (g n).kind = n.kind
  slots : ∀ n, (g n).slots = headNames f n.kind (n.slots.map (Slot.map g))

theorem relabels_rename (f : String → String) : Relabels f (rename f) where
  kind := fun ⟨_, _, _, _⟩ => rfl
  slots := fun ⟨_, kind, slots, _⟩ => by
    change headNames f kind (renameSlots f slots) = _
    rw [renameSlots_eq]

theorem relabels_look : Relabels (fun s => s) look where
  kind := fun n => by rw [look_eq]
  slots := fun n => by rw [look_eq, headNames_id]

/-- Forgetting identities after a relabelling gives a relabelling. -/
theorem Relabels.look {g : Node → Node} (h : Relabels f g) : Relabels f fun n => (g n).look where
  kind := fun n => by rw [relabels_look.kind, h.kind]
  slots := fun n => by
    rw [relabels_look.slots, headNames_id, h.slots, map_headNames, List.map_map]
    congr 2
    funext x
    exact Slot.map_map

namespace Relabels

variable {g : Node → Node} {n c c' : Node} {i : Nat}

theorem length (h : Relabels f g) (n : Node) : (g n).slots.length = n.slots.length := by
  rw [h.slots, length_headNames, List.length_map]

theorem childNodes (h : Relabels f g) (n : Node) : (g n).childNodes = n.childNodes.map g := by
  rw [Node.childNodes, h.slots, filterMap_headNames, Node.childNodes, List.filterMap_map, List.map_filterMap]
  exact List.filterMap_congr fun x _ => Slot.node?_map

/-- **The nodes** of a relabelled tree are those of the tree, relabelled, in the same order. -/
theorem preorder (h : Relabels f g) (n : Node) : (g n).preorder = n.preorder.map g := by
  induction n using childInduction with
  | node n ih =>
    rw [preorder_eq, preorder_eq, h.childNodes, List.map_cons, List.map_flatMap, List.flatMap_map]
    exact congrArg _ (List.flatMap_congr ih)

theorem descendants (h : Relabels f g) (n : Node) : (g n).descendants = n.descendants.map g := by
  rw [descendants_eq, descendants_eq, h.childNodes, List.map_flatMap, List.flatMap_map]
  exact List.flatMap_congr fun c _ => h.preorder c

/-! ### Slots -/

theorem slot_zero (h : Relabels f g) (n : Node) :
    (g n).slot 0 = if n.kind.namesLocal then ((n.slot 0).map g).mapText f else (n.slot 0).map g := by
  rw [slot, slot, h.slots]
  cases n.slots with
  | nil => exact (ite_self _).symm
  | cons s rest => rfl

theorem slot_succ (h : Relabels f g) (n : Node) (i : Nat) : (g n).slot (i + 1) = (n.slot (i + 1)).map g := by
  rw [slot, slot, h.slots]
  cases n.slots with
  | nil => rfl
  | cons s rest =>
    simp only [List.map_cons, headNames, List.getD_cons_succ]
    rw [List.getD_eq_getElem?_getD, List.getD_eq_getElem?_getD, List.getElem?_map]
    cases rest[i]? <;> rfl

/-- Where no local variable is named, no name is changed. -/
theorem slots_of_not (h : Relabels f g) (hk : n.kind.namesLocal = false) : (g n).slots = n.slots.map (Slot.map g) := by
  rw [h.slots, headNames_of_not hk]

theorem text?_slot_zero (h : Relabels f g) (hk : n.kind.namesLocal = true) :
    ((g n).slot 0).text? = (n.slot 0).text?.map f := by
  rw [h.slot_zero, if_pos hk, Slot.text?_mapText, Slot.text?_map]

/-- A name that is read in the first slot was there, changed. -/
theorem isText_slot_zero (h : Relabels f g) (hf : f.Injective) (hk : n.kind.namesLocal = true) (name : String) :
    ((g n).slot 0).isText (f name) = (n.slot 0).isText name := by
  rw [h.slot_zero, if_pos hk]
  cases n.slot 0 with
  | text s => exact Bool.eq_iff_iff.2 (by simp [Slot.map, Slot.mapText, hf.eq_iff])
  | node _ => rfl
  | empty => rfl

theorem node?_slot (h : Relabels f g) (n : Node) (i : Nat) : ((g n).slot i).node? = (n.slot i).node?.map g := by
  cases i with
  | zero => rw [h.slot_zero]; split <;> simp
  | succ i => rw [h.slot_succ, Slot.node?_map]

theorem slot_eq_node_iff (h : Relabels f g) : (g n).slot i = .node c' ↔ ∃ c, n.slot i = .node c ∧ g c = c' := by
  rw [← Slot.node?_eq_some_iff, h.node?_slot, Option.map_eq_some_iff]
  simp only [Slot.node?_eq_some_iff]

end Relabels

/-! ## Places -/

/-- The same slots lead from `root` to `n` and from `root'` to `n'`. -/
inductive SamePlace (root root' : Node) : Node → Node → Prop
  | root : SamePlace root root' root root'
  | slot {p p' c c' : Node} {i : Nat} : SamePlace root root' p p' → p.slot i = .node c → p'.slot i = .node c' →
      SamePlace root root' c c'

section

variable {root root' n n' p c d : Node} {g h : Node → Node} {f' : String → String} {i j : Nat}

theorem SamePlace.mem_preorder (hp : SamePlace root root' n n') : n ∈ root.preorder ∧ n' ∈ root'.preorder := by
  induction hp with
  | root => exact ⟨root.self_mem_preorder, root'.self_mem_preorder⟩
  | slot _ hs hs' ih =>
    exact ⟨mem_preorder_trans (mem_preorder_of_mem_childNodes (mem_childNodes_of_slot hs)) ih.1,
      mem_preorder_trans (mem_preorder_of_mem_childNodes (mem_childNodes_of_slot hs')) ih.2⟩

/-- Where two trees are the same after relabelling, nodes at the same place are. -/
theorem SamePlace.relabels_eq (hg : Relabels f g) (hh : Relabels f' h) (he : g root = h root')
    (hp : SamePlace root root' n n') : g n = h n' := by
  induction hp with
  | root => exact he
  | @slot p p' c c' i _ hs hs' ih =>
    have hc : (g p).slot i = .node (g c) := hg.slot_eq_node_iff.2 ⟨c, hs, rfl⟩
    have hc' : (h p').slot i = .node (h c') := hh.slot_eq_node_iff.2 ⟨c', hs', rfl⟩
    rw [ih, hc'] at hc
    exact (Slot.node.inj hc).symm

/-- **Counterparts**: every node of the one tree has one at its place in the other. -/
theorem exists_samePlace (hg : Relabels f g) (hh : Relabels f' h) (he : g root = h root') (hn : n ∈ root.preorder) :
    ∃ n', SamePlace root root' n n' := by
  obtain ⟨as, hl⟩ := exists_line hn
  induction hl with
  | root => exact ⟨root', .root⟩
  | @child p c as hl hc ih =>
    obtain ⟨p', hp⟩ := ih hl.mem_preorder
    obtain ⟨i, hs⟩ := exists_slot_of_mem_childNodes hc
    have hgs : (g p).slot i = .node (g c) := hg.slot_eq_node_iff.2 ⟨c, hs, rfl⟩
    rw [hp.relabels_eq hg hh he] at hgs
    obtain ⟨c', hs', -⟩ := hh.slot_eq_node_iff.1 hgs
    exact ⟨c', .slot hp hs hs'⟩

/-- A node is in one slot only. -/
theorem Distinct.slot_unique (hd : p.Distinct) (hi : p.slot i = .node c) (hj : p.slot j = .node d) (he : c.id = d.id) :
    i = j := by
  have hslot : ∀ {k x}, p.slot k = .node x → ∃ hk : k < p.slots.length, p.slots[k].node? = some x := by
    intro k x hx
    rw [slot, List.getD_eq_getElem?_getD] at hx
    by_cases hk : k < p.slots.length
    · rw [List.getElem?_eq_getElem hk] at hx
      exact ⟨hk, Slot.node?_eq_some_iff.2 hx⟩
    · rw [List.getElem?_eq_none (Nat.le_of_not_lt hk)] at hx
      cases hx
  obtain ⟨hil, hic⟩ := hslot hi
  obtain ⟨hjl, hjd⟩ := hslot hj
  have hp := hd.pairwise_childNodes
  rw [Node.childNodes, List.pairwise_filterMap, List.pairwise_iff_getElem] at hp
  rcases Nat.lt_trichotomy i j with hlt | heq | hgt
  · exact absurd he (hp i j hil hjl hlt c hic d hjd c c.self_mem_preorder d d.self_mem_preorder)
  · exact heq
  · exact absurd he.symm (hp j i hjl hil hgt d hjd c hic d d.self_mem_preorder c c.self_mem_preorder)

/-- So it is in the first one just if it is the node that is there. -/
theorem Distinct.holds_eq (hd : p.Distinct) (hi : p.slot i = .node c) : (p.slot 0).holds c = decide (i = 0) := by
  rw [Bool.eq_iff_iff, decide_eq_true_eq, Slot.holds_iff]
  constructor
  · rintro ⟨d, h0, he⟩
    exact hd.slot_unique hi h0 he.symm
  · rintro rfl
    exact ⟨c, hi, rfl⟩

end

end Node

end BlockPresence
