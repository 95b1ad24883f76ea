import BlockPresence.Proofs.Tree.Ancestors

/-!
# Parents

The line of a node can be found in another way than by looking it up: an index of parents (`ParentIndex.ofRoot`) says for
every node which one is directly above it, and going up from parent to parent meets the whole line (`ParentIndex.Climb`).
It is the same line (`Tree.climb_iff`).

So the walk over a tree, the indices and the tree itself say the same of what is in the tree, what is directly above a node
and what is above it at all (`Tree.walk_and_index_agree`).
-/

namespace BlockPresence

open Node (Line Distinct Coherent)

/-- For every node below a root the node directly above it. -/
abbrev ParentIndex := Std.TreeMap Nat Node

namespace ParentIndex

/-- Enters the children of a node. -/
def enterChildren (parents : ParentIndex) (n : Node) : ParentIndex :=
  n.childNodes.foldl (fun parents child => parents.insert child.id n) parents

/-- The index of everything below `root`. -/
def ofRoot (root : Node) : ParentIndex :=
  (root :: root.descendants).foldl enterChildren ∅

/-- Going on from parent to parent until there is none meets the nodes `as`. -/
inductive Climb (parents : ParentIndex) : Option Node → List Node → Prop
  | top : Climb parents none []
  | up {p : Node} {as : List Node} : Climb parents parents[p.id]? as → Climb parents (some p) (p :: as)

theorem Climb.unique {parents : ParentIndex} {p? : Option Node} {as bs : List Node} (h : parents.Climb p? as)
    (h' : parents.Climb p? bs) : as = bs := by
  induction h generalizing bs with
  | top => cases h'; rfl
  | up _ ih => cases h' with | up h' => rw [ih h']

/-! ## Lines and parents -/

/-- The two indices know the same nodes, and every line starts with the parent. -/
def Heads (parents : ParentIndex) (lines : AncestorIndex) : Prop :=
  ∀ k : Nat, lines[k]?.map List.head? = parents[k]?.map some

theorem getElem?_foldl_insert {α : Type} (a : α) (k : Nat) : ∀ (cs : List Node) (index : Std.TreeMap Nat α),
    (cs.foldl (fun index c => index.insert c.id a) index)[k]? = if k ∈ cs.map Node.id then some a else index[k]?
  | [], _ => by simp
  | c :: cs, index => by
    rw [List.foldl_cons, getElem?_foldl_insert a k cs, Std.TreeMap.getElem?_insert]
    by_cases hk : k ∈ cs.map Node.id
    · simp [hk]
    · by_cases hc : c.id = k
      · simp [hc]
      · simp [hk, hc, Ne.symm hc]

theorem Heads.enterChildren {parents : ParentIndex} {lines : AncestorIndex} (h : parents.Heads lines) (n : Node) :
    (parents.enterChildren n).Heads (lines.enterChildren n) := by
  intro k
  rw [ParentIndex.enterChildren, AncestorIndex.enterChildren, getElem?_foldl_insert, getElem?_foldl_insert]
  by_cases hk : k ∈ n.childNodes.map Node.id
  · simp [hk]
  · simpa [hk] using h k

theorem Heads.foldl : ∀ (ns : List Node) {parents : ParentIndex} {lines : AncestorIndex}, parents.Heads lines →
    (ns.foldl ParentIndex.enterChildren parents).Heads (ns.foldl AncestorIndex.enterChildren lines)
  | [], _, _, h => h
  | n :: ns, _, _, h => Heads.foldl ns (h.enterChildren n)

theorem heads_ofRoot (root : Node) : (ofRoot root).Heads (AncestorIndex.ofRoot root) :=
  Heads.foldl _ fun _ => by simp

end ParentIndex

namespace Tree

variable {t : Tree} {n q : Node}

/-- The node directly above a node is the one that the index of parents has. -/
theorem parent?_eq (t : Tree) (n : Node) : t.parent? n = (ParentIndex.ofRoot t.root)[n.id]? := by
  have h := ParentIndex.heads_ofRoot t.root n.id
  rw [← t.index_eq] at h
  rw [parent?, ancestors, Std.TreeMap.getD_eq_getD_getElem?]
  cases hl : t.index[n.id]? with
  | none =>
    rw [hl] at h
    exact (Option.map_eq_none_iff.1 h.symm).symm
  | some line =>
    rw [hl] at h
    obtain ⟨p, hp, hline⟩ := Option.map_eq_some_iff.1 h.symm
    rw [hp]
    exact hline.symm

/-- The index has an entry just for the nodes with something above them. -/
theorem contains_index_iff : t.index.contains n.id = true ↔ t.ancestors n ≠ [] := by
  have h := ParentIndex.heads_ofRoot t.root n.id
  rw [← t.index_eq] at h
  rw [Std.TreeMap.contains_eq_isSome_getElem?, ancestors, Std.TreeMap.getD_eq_getD_getElem?]
  cases hl : t.index[n.id]? with
  | none => simp
  | some line =>
    rw [hl] at h
    obtain ⟨p, -, hline⟩ := Option.map_eq_some_iff.1 h.symm
    have hne : line ≠ [] := by
      rintro rfl
      cases hline
    simpa using hne

/-! ## What is above a node -/

section

variable (hc : Coherent (n :: t.nodes))
include hc

theorem coherent_of_cons : Coherent t.nodes := hc.mono (List.subset_cons_self n t.nodes)

/-- A node has a line in the tree, or else there is nothing above it. -/
theorem line_or_ancestors_eq_nil : Line t.root n (t.ancestors n) ∨ n ∉ t.nodes ∧ t.ancestors n = [] := by
  by_cases hn : n ∈ t.nodes
  · exact .inl (line_ancestors (coherent_of_cons hc) hn)
  · refine .inr ⟨hn, ?_⟩
    by_contra hne
    exact hn (mem_nodes_of_ancestors_ne_nil hc hne)

theorem contains_iff : t.contains n = true ↔ n ∈ t.nodes := by
  rw [contains, Bool.or_eq_true, beq_iff_eq, contains_index_iff]
  constructor
  · rintro (hid | hne)
    · rw [hc n List.mem_cons_self t.root (List.mem_cons_of_mem _ List.mem_cons_self) hid]
      exact List.mem_cons_self
    · exact mem_nodes_of_ancestors_ne_nil hc hne
  · intro hn
    generalize has : t.ancestors n = as
    have hl := line_ancestors (coherent_of_cons hc) hn
    rw [has] at hl
    cases hl with
    | root => exact .inl rfl
    | child _ _ => exact .inr (List.cons_ne_nil _ _)

theorem parent?_eq_some_iff (hd : t.root.Distinct) : t.parent? n = some q ↔ q ∈ t.nodes ∧ n ∈ q.childNodes := by
  constructor
  · intro h
    obtain ⟨as, has⟩ := List.head?_eq_some_iff.1 h
    rcases line_or_ancestors_eq_nil hc with hl | ⟨-, hnil⟩
    · rw [has] at hl
      cases hl with
      | child hq hn => exact ⟨t.nodes_eq ▸ hq.mem_preorder, hn⟩
    · rw [hnil] at has
      cases has
  · rintro ⟨hq, hn⟩
    have hl := line_ancestors (coherent_nodes hd) hq
    rw [parent?, ancestors_eq_of_line hd (hl.child hn)]
    rfl

/-- What is above a node has it below. -/
theorem mem_ancestors_iff (hd : t.root.Distinct) : q ∈ t.ancestors n ↔ q ∈ t.nodes ∧ n ∈ q.descendants := by
  constructor
  · intro hq
    refine ⟨mem_nodes_of_mem_ancestors hq, ?_⟩
    rcases line_or_ancestors_eq_nil hc with hl | ⟨-, hnil⟩
    · obtain ⟨bs, cs, hs⟩ := List.append_of_mem hq
      rw [hs] at hl
      exact Node.mem_descendants.2 hl.exists_child
    · rw [hnil] at hq
      cases hq
  · rintro ⟨hq, hn⟩
    obtain ⟨inner, hline⟩ := Node.exists_line_of_mem_descendants hn
    rw [ancestors_eq_of_line hd (hline t.root _ (line_ancestors (coherent_nodes hd) hq))]
    exact List.mem_append_right _ List.mem_cons_self

end

/-- The parents on the line of a node lead from each to the next. -/
theorem climb_of_line (hd : t.root.Distinct) {as : List Node} (h : Line t.root n as) :
    (ParentIndex.ofRoot t.root).Climb (t.parent? n) as := by
  induction h with
  | root =>
    rw [parent?, ancestors_eq_of_line hd .root]
    exact .top
  | child hl hn ih =>
    rw [parent?, ancestors_eq_of_line hd (hl.child hn), List.head?_cons]
    rw [parent?_eq] at ih
    exact .up ih

/-- **Going up from parent to parent** comes to an end, and meets just the nodes of the line. -/
theorem climb_iff (hc : Coherent (n :: t.nodes)) (hd : t.root.Distinct) {as : List Node} :
    (ParentIndex.ofRoot t.root).Climb (t.parent? n) as ↔ as = t.ancestors n := by
  have hclimb : (ParentIndex.ofRoot t.root).Climb (t.parent? n) (t.ancestors n) := by
    rcases line_or_ancestors_eq_nil hc with hl | ⟨-, hnil⟩
    · exact climb_of_line hd hl
    · rw [parent?, hnil]
      exact .top
  refine ⟨fun h => h.unique hclimb, ?_⟩
  rintro rfl
  exact hclimb

/-- In the tree of an inner node the lines are those of the larger tree, up to the inner node. -/
theorem ancestors_cut {t' : Tree} (hd : t.root.Distinct) (hm : t'.root ∈ t.nodes) (hn : n ∈ t'.root.descendants) :
    ∃ inner, t'.ancestors n = inner ++ [t'.root] ∧ t.ancestors n = inner ++ t'.root :: t.ancestors t'.root := by
  obtain ⟨inner, hline⟩ := Node.exists_line_of_mem_descendants hn
  have hd' : t'.root.Distinct := hd.of_mem (t.nodes_eq ▸ hm)
  refine ⟨inner, ancestors_eq_of_line hd' (hline t'.root [] .root), ?_⟩
  exact ancestors_eq_of_line hd (hline t.root _ (line_ancestors (coherent_nodes hd) hm))

/-- **The walk and the index see one tree.** Let no node occur twice below and including a root. The walk with a worklist
meets the nodes below the root in pre-order, and each of them once. Of every node the index of the tree says: it is in the
tree just if it is the root or below it; it is directly below `q` just if `q` is in the tree and has it as a child; going
up from parent to parent ends, and meets the nodes above it; these are the one line that leads from it to the root; `q` is
above it just if `q` is in the tree and the walk from `q` meets it; and a node that is not in the tree has nothing above it.
In the tree of an inner node, lines are those of the larger tree cut after this node. -/
theorem walk_and_index_agree (t : Tree) (hd : t.root.Distinct) :
    (t.root.descendants = t.root.childNodes.flatMap Node.preorder ∧ ((t.root :: t.root.descendants).map Node.id).Nodup) ∧
    (∀ n, Coherent (n :: t.nodes) →
      (t.contains n = true ↔ n = t.root ∨ n ∈ t.root.descendants) ∧
      (∀ q, t.parent? n = some q ↔ q ∈ t.nodes ∧ n ∈ q.childNodes) ∧
      t.parent? n = (ParentIndex.ofRoot t.root)[n.id]? ∧
      (∀ as, (ParentIndex.ofRoot t.root).Climb (t.parent? n) as ↔ as = t.ancestors n) ∧
      (n ∈ t.nodes → ∀ as, Line t.root n as ↔ as = t.ancestors n) ∧
      (∀ q, q ∈ t.ancestors n ↔ q ∈ t.nodes ∧ n ∈ q.descendants) ∧
      (n ∉ t.nodes → t.contains n = false ∧ t.parent? n = none ∧ t.ancestors n = [])) ∧
    ∀ t' : Tree, t'.root ∈ t.nodes → t'.ancestors t'.root = [] ∧ ∀ n ∈ t'.root.descendants,
      ∃ inner, t'.ancestors n = inner ++ [t'.root] ∧ t.ancestors n = inner ++ t'.root :: t.ancestors t'.root := by
  refine ⟨⟨t.root.descendants_eq, ?_⟩, fun n hc => ?_, fun t' hm => ?_⟩
  · rw [← Node.preorder_eq_cons]
    exact hd
  · refine ⟨?_, fun q => parent?_eq_some_iff hc hd, t.parent?_eq n, fun as => climb_iff hc hd, fun hn as => ?_,
      fun q => mem_ancestors_iff hc hd, fun hn => ?_⟩
    · rw [contains_iff hc, nodes, List.mem_cons]
    · refine ⟨fun h => (ancestors_eq_of_line hd h).symm, ?_⟩
      rintro rfl
      exact line_ancestors (coherent_nodes hd) hn
    · have hnil : t.ancestors n = [] := by
        rcases line_or_ancestors_eq_nil hc with hl | ⟨-, hnil⟩
        · exact absurd (t.nodes_eq ▸ hl.mem_preorder) hn
        · exact hnil
      refine ⟨?_, by rw [parent?, hnil]; rfl, hnil⟩
      rw [Bool.eq_false_iff]
      exact fun h => hn ((contains_iff hc).1 h)
  · exact ⟨ancestors_eq_of_line (hd.of_mem (t.nodes_eq ▸ hm)) .root, fun n hn => ancestors_cut hd hm hn⟩

/-- In the group of a read and of a conjunction of a read that looks the same, the lines of the two differ. A third read
that looks the same, and a group around the same conjunction, are not in the tree. -/
theorem walk_and_index_agree_lookalikes :
    let read (id : Nat) : Node := ⟨id, .localRead, [.text "x"], .origin⟩
    let both : Node := ⟨2, .conj, [.node (read 3), .text "y"], .origin⟩
    let around : Node := ⟨5, .group, [.node both], .origin⟩
    let t := Tree.ofRoot ⟨0, .group, [.node (read 1), .empty, .node both], .origin⟩ "a.rb"
    let t' := Tree.ofRoot both "b.rb"
    (t.root.Distinct ∧ t'.root ∈ t.nodes ∧ read 3 ∈ t'.root.descendants ∧ read 4 ∉ t.nodes ∧ around ∉ t.nodes ∧
        ∀ n ∈ [read 3, read 4, around], Coherent (n :: t.nodes)) ∧
      t.root.descendants = [read 1, both, read 3] ∧ t.contains (read 3) = true ∧ t.parent? (read 3) = some both ∧
      t.ancestors (read 3) = [both, t.root] ∧ t'.ancestors (read 3) = [both] ∧ both ∈ t.ancestors (read 3) ∧
      t.contains (read 4) = false ∧ t.ancestors (read 4) = [] ∧ t.contains around = false ∧ t.parent? around = none := by
  intro read both around t t'
  have hd : t.root.Distinct := by unfold Node.Distinct; decide
  have hids : t.nodes.map Node.id = [0, 1, 2, 3] := by rw [nodes_eq]; rfl
  have hnew : ∀ n : Node, n.id ∉ [0, 1, 2, 3] → n ∉ t.nodes ∧ Coherent (n :: t.nodes) := by
    intro n hn
    rw [← hids] at hn
    refine ⟨fun h => hn (List.mem_map_of_mem h), fun a ha b hb he => ?_⟩
    have hnodup : ((n :: t.nodes).map Node.id).Nodup :=
      List.nodup_cons.2 ⟨hn, t.nodes_eq ▸ hd⟩
    exact List.inj_on_of_nodup_map hnodup ha hb he
  have hread : read 3 ∈ both.childNodes := Node.mem_childNodes_of_slot (i := 0) rfl
  have hboth : both ∈ t.root.childNodes := Node.mem_childNodes_of_slot (i := 2) rfl
  have hlower : read 3 ∈ both.descendants := Node.mem_descendants.2 ⟨_, hread, Node.self_mem_preorder _⟩
  have hm : both ∈ t.nodes := t.nodes_eq ▸ Node.mem_preorder_of_mem_childNodes hboth
  have hn : read 3 ∈ t.nodes := by
    rw [nodes_eq]
    exact Node.mem_preorder_of_child hboth (Node.mem_preorder_of_mem_childNodes hread)
  have hold : ∀ n ∈ t.nodes, Coherent (n :: t.nodes) := fun n hn =>
    (coherent_nodes hd).mono (List.cons_subset.2 ⟨hn, List.Subset.refl _⟩)
  obtain ⟨hout₄, hc₄⟩ := hnew (read 4) (by decide)
  obtain ⟨hout₅, hc₅⟩ := hnew around (by decide)
  obtain ⟨⟨hwalk, -⟩, hall, hcut⟩ := walk_and_index_agree t hd
  obtain ⟨hcontains, hparent, -, -, hline, habove, -⟩ := hall (read 3) (hold _ hn)
  obtain ⟨-, -, -, -, -, -, hnone₄⟩ := hall (read 4) hc₄
  obtain ⟨-, -, -, -, -, -, hnone₅⟩ := hall around hc₅
  obtain ⟨hno₄, -, hnil₄⟩ := hnone₄ hout₄
  obtain ⟨hno₅, hnil₅, -⟩ := hnone₅ hout₅
  have hup : t.ancestors (read 3) = [both, t.root] := ((hline hn _).1 (.child (.child .root hboth) hread)).symm
  obtain ⟨inner, hinner, houter⟩ := (hcut t' hm).2 (read 3) hlower
  have hshort : t'.ancestors (read 3) = [both] := by
    obtain ⟨-, -, -, -, hboths, -⟩ := hall both (hold both hm)
    have hup' : [t.root] = t.ancestors t'.root := (hboths hm _).1 (.child .root hboth)
    have hinner' : inner = [] := by
      rw [hup, ← hup'] at houter
      exact List.self_eq_append_left.1 houter
    rw [hinner, hinner']
    rfl
  refine ⟨⟨hd, hm, hlower, hout₄, hout₅, ?_⟩, ?_, ?_, (hparent both).2 ⟨hm, hread⟩, hup, hshort,
    (habove both).2 ⟨hm, hlower⟩, hno₄, hnil₄, hno₅, hnil₅⟩
  · intro n hmem
    simp only [List.mem_cons, List.not_mem_nil, or_false] at hmem
    rcases hmem with rfl | rfl | rfl
    · exact hold _ hn
    · exact hc₄
    · exact hc₅
  · rw [hwalk]
    rfl
  · exact hcontains.2 (List.mem_cons.1 hn)

end Tree

end BlockPresence
