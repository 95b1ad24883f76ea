import BlockPresence.Syntax.Tree
import Mathlib.Data.List.Nodup
import Mathlib.Data.List.Pairwise

/-!
# Lines of ancestors

`Line root n as` says that `as` leads from `n` to `root`, parent first. The nodes of a tree are those that have a line
(`exists_line`, `Line.mem_preorder`).

A tree is `Distinct` if no node occurs twice in it. Then equal ids mean equal nodes (`Distinct.eq_of_id`), and what is
below a node is below one of its children only (`Distinct.child_unique`).
-/

namespace BlockPresence

namespace Node

/-! ## Induction from the children to their parent -/

theorem size_le_sizeAll {c : Node} : ∀ {ns : List Node}, c ∈ ns → c.size ≤ sizeAll ns
  | n :: rest, h => by
    rcases List.mem_cons.1 h with rfl | h
    · simp only [sizeAll]; omega
    · have := size_le_sizeAll h
      simp only [sizeAll]; omega

theorem size_lt_of_mem_childNodes {c n : Node} (h : c ∈ n.childNodes) : c.size < n.size := by
  have := size_le_sizeAll h
  rw [size_eq n]
  omega

/-- Induction over a tree: what holds of a node when it holds of its children holds of every node. -/
@[elab_as_elim]
theorem childInduction {P : Node → Prop} (node : ∀ n, (∀ c ∈ n.childNodes, P c) → P n) (n : Node) : P n := by
  induction hk : n.size using Nat.strongRecOn generalizing n with
  | _ k ih =>
    subst hk
    exact node n fun c hc => ih c.size (size_lt_of_mem_childNodes hc) c rfl

/-! ## Nodes in pre-order -/

theorem descendants_eq (n : Node) : n.descendants = n.childNodes.flatMap preorder :=
  walk_eq_flatMap_preorder _

theorem preorder_eq_cons (n : Node) : n.preorder = n :: n.descendants := by
  rw [preorder_eq, descendants_eq]

theorem mem_descendants {x n : Node} : x ∈ n.descendants ↔ ∃ c ∈ n.childNodes, x ∈ c.preorder := by
  rw [descendants_eq, List.mem_flatMap]

theorem mem_preorder {x n : Node} : x ∈ n.preorder ↔ x = n ∨ ∃ c ∈ n.childNodes, x ∈ c.preorder := by
  rw [preorder_eq_cons, List.mem_cons, mem_descendants]

theorem self_mem_preorder (n : Node) : n ∈ n.preorder := mem_preorder.2 (.inl rfl)

theorem mem_preorder_of_child {x c n : Node} (hc : c ∈ n.childNodes) (hx : x ∈ c.preorder) : x ∈ n.preorder :=
  mem_preorder.2 (.inr ⟨c, hc, hx⟩)

theorem mem_preorder_of_mem_childNodes {c n : Node} (hc : c ∈ n.childNodes) : c ∈ n.preorder :=
  mem_preorder_of_child hc c.self_mem_preorder

theorem mem_preorder_trans {x y z : Node} (hx : x ∈ y.preorder) (hy : y ∈ z.preorder) : x ∈ z.preorder := by
  induction z using childInduction with
  | node z ih =>
    rcases mem_preorder.1 hy with rfl | ⟨c, hc, hy⟩
    · exact hx
    · exact mem_preorder_of_child hc (ih c hc hy)

theorem mem_childNodes_of_mem_slots {c n : Node} (h : Slot.node c ∈ n.slots) : c ∈ n.childNodes :=
  List.mem_filterMap.2 ⟨_, h, rfl⟩

/-- A node in a slot is a child. -/
theorem mem_childNodes_of_slot {c n : Node} {i : Nat} (h : n.slot i = .node c) : c ∈ n.childNodes := by
  have hi : n.slots[i]? = some (.node c) := by
    unfold slot at h
    rw [List.getD_eq_getElem?_getD] at h
    cases hs : n.slots[i]? with
    | none => rw [hs] at h; cases h
    | some s => rw [hs] at h; exact congrArg some h
  exact mem_childNodes_of_mem_slots (List.mem_of_getElem? hi)

theorem exists_slot_of_mem_childNodes {c n : Node} (hc : c ∈ n.childNodes) : ∃ i, n.slot i = .node c := by
  obtain ⟨s, hs, hsc⟩ := List.mem_filterMap.1 hc
  obtain ⟨i, hi, rfl⟩ := List.mem_iff_getElem.1 hs
  refine ⟨i, ?_⟩
  rw [slot, List.getD_eq_getElem?_getD, List.getElem?_eq_getElem hi, Option.getD_some, Slot.node?_eq_some_iff.1 hsc]

/-! ## Lines -/

/-- The nodes `as` lead from `n` to `root`, from the parent of `n` outward. -/
inductive Line (root : Node) : Node → List Node → Prop
  | root : Line root root []
  | child {p n : Node} {as : List Node} : Line root p as → n ∈ p.childNodes → Line root n (p :: as)

namespace Line

variable {root n : Node} {as : List Node}

theorem mem_preorder (h : Line root n as) : n ∈ root.preorder := by
  induction h with
  | root => exact root.self_mem_preorder
  | child _ hc ih => exact mem_preorder_trans (mem_preorder_of_mem_childNodes hc) ih

/-- Every node of a line has the node below it. -/
theorem below_of_mem (h : Line root n as) {a : Node} (ha : a ∈ as) : n ∈ a.preorder := by
  induction h with
  | root => cases ha
  | child _ hc ih =>
    have hp := mem_preorder_of_mem_childNodes hc
    rcases List.mem_cons.1 ha with rfl | ha
    · exact hp
    · exact mem_preorder_trans hp (ih ha)

/-- Every node of a line has the node below one of its children. -/
theorem exists_child {as bs : List Node} {a : Node} (h : Line root n (bs ++ a :: as)) :
    ∃ c ∈ a.childNodes, n ∈ c.preorder := by
  induction bs generalizing n with
  | nil => cases h with | child _ hc => exact ⟨n, hc, n.self_mem_preorder⟩
  | cons b bs ih =>
    cases h with
    | child h hc =>
      obtain ⟨c, hca, hb⟩ := ih h
      exact ⟨c, hca, mem_preorder_trans (mem_preorder_of_mem_childNodes hc) hb⟩

/-- A line can be cut after each of its nodes. -/
theorem tail {as bs : List Node} {a : Node} (h : Line root n (bs ++ a :: as)) : Line root a as := by
  induction bs generalizing n with
  | nil => cases h with | child h _ => exact h
  | cons b bs ih => cases h with | child h _ => exact ih h

theorem mem_preorder_of_mem (h : Line root n as) {a : Node} (ha : a ∈ as) : a ∈ root.preorder := by
  obtain ⟨bs, cs, rfl⟩ := List.append_of_mem ha
  exact h.tail.mem_preorder

/-- Lines compose. -/
theorem trans {m : Node} {bs : List Node} (h : Line root m as) (h' : Line m n bs) : Line root n (bs ++ as) := by
  induction h' with
  | root => exact h
  | child _ hc ih => exact .child ih hc

/-- A line ends at its root, which has nothing above it, or goes on from a child of the root. -/
theorem eq_root_or_child (h : Line root n as) :
    n = root ∧ as = [] ∨ ∃ c bs, c ∈ root.childNodes ∧ Line c n bs ∧ as = bs ++ [root] := by
  induction h with
  | root => exact .inl ⟨rfl, rfl⟩
  | child _ hc ih =>
    rcases ih with ⟨rfl, rfl⟩ | ⟨c, bs, hcr, hl, rfl⟩
    · exact .inr ⟨_, [], hc, .root, rfl⟩
    · exact .inr ⟨c, _ :: bs, hcr, .child hl hc, rfl⟩

end Line

theorem exists_line {root n : Node} (h : n ∈ root.preorder) : ∃ as, Line root n as := by
  induction root using childInduction with
  | node root ih =>
    rcases mem_preorder.1 h with rfl | ⟨c, hc, hn⟩
    · exact ⟨[], .root⟩
    · obtain ⟨as, ha⟩ := ih c hc hn
      exact ⟨as ++ [root], Line.trans (.child .root hc) ha⟩

/-- Above what is below `d` stands `d`, with the same nodes between, wherever `d` stands. -/
theorem exists_line_of_mem_descendants {n d : Node} (hn : n ∈ d.descendants) :
    ∃ inner, ∀ root outer, Line root d outer → Line root n (inner ++ d :: outer) := by
  obtain ⟨c, hc, hn⟩ := mem_descendants.1 hn
  obtain ⟨inner, hl⟩ := exists_line hn
  exact ⟨inner, fun root outer hd => Line.trans (hd.child hc) hl⟩

/-! ## Trees in which no node occurs twice -/

/-- Among these nodes an id belongs to one node only. -/
def Coherent (ns : List Node) : Prop := ∀ a ∈ ns, ∀ b ∈ ns, a.id = b.id → a = b

theorem Coherent.mono {ns ms : List Node} (h : Coherent ms) (hs : ns ⊆ ms) : Coherent ns :=
  fun a ha b hb => h a (hs ha) b (hs hb)

/-- Two trees share no node. -/
def Apart (c d : Node) : Prop := ∀ x ∈ c.preorder, ∀ y ∈ d.preorder, x.id ≠ y.id

instance : Std.Symm Apart := ⟨fun _ _ h x hx y hy => (h y hy x hx).symm⟩

/-- No node occurs twice in the tree below and including `n`. -/
def Distinct (n : Node) : Prop := (n.preorder.map Node.id).Nodup

namespace Distinct

variable {n c d x y : Node}

theorem coherent (h : n.Distinct) : Coherent n.preorder :=
  fun _ ha _ hb he => List.inj_on_of_nodup_map h ha hb he

theorem eq_of_id (h : n.Distinct) (hx : x ∈ n.preorder) (hy : y ∈ n.preorder) (he : x.id = y.id) : x = y :=
  h.coherent x hx y hy he

theorem ids_eq (n : Node) :
    n.preorder.map Node.id = n.id :: n.childNodes.flatMap fun c => c.preorder.map Node.id := by
  rw [preorder_eq, List.map_cons, List.map_flatMap]

theorem child (h : n.Distinct) (hc : c ∈ n.childNodes) : c.Distinct := by
  unfold Distinct at h
  rw [ids_eq, List.nodup_cons, List.nodup_flatMap] at h
  exact h.2.1 c hc

theorem of_mem (h : n.Distinct) (hc : c ∈ n.preorder) : c.Distinct := by
  induction n using childInduction with
  | node n ih =>
    rcases mem_preorder.1 hc with rfl | ⟨d, hd, hc⟩
    · exact h
    · exact ih d hd (h.child hd) hc

/-- A node is not among those below it. -/
theorem id_ne_of_child (h : n.Distinct) (hc : c ∈ n.childNodes) (hx : x ∈ c.preorder) : x.id ≠ n.id := by
  unfold Distinct at h
  rw [ids_eq, List.nodup_cons] at h
  intro he
  exact h.1 (List.mem_flatMap.2 ⟨c, hc, he ▸ List.mem_map_of_mem hx⟩)

theorem pairwise_childNodes (h : n.Distinct) : n.childNodes.Pairwise Apart := by
  unfold Distinct at h
  rw [ids_eq, List.nodup_cons, List.nodup_flatMap] at h
  refine h.2.2.imp fun hcd x hx y hy he => ?_
  exact hcd (List.mem_map_of_mem hx) (he ▸ List.mem_map_of_mem hy)

/-- What is below a node is below one of its children only. -/
theorem child_unique (h : n.Distinct) (hc : c ∈ n.childNodes) (hd : d ∈ n.childNodes) (hx : x ∈ c.preorder)
    (hy : y ∈ d.preorder) (he : x.id = y.id) : c = d := by
  by_contra hne
  exact h.pairwise_childNodes.forall hc hd hne x hx y hy he

end Distinct

end Node

end BlockPresence
