import BlockPresence.Proofs.Tree.Line

/-!
# The index of ancestors

In a tree in which no node occurs twice the index holds the line of every node (`Tree.ancestors_eq_of_line`), so there is
one line only (`Node.Line.unique`). Where nodes occur twice it holds one of their lines (`Tree.line_ancestors`). Whatever the
tree, its index names nodes of the tree alone (`Tree.mem_nodes_of_mem_ancestors`).
-/

namespace BlockPresence

open Node (Line Distinct Coherent)

namespace AncestorIndex

variable {index : AncestorIndex} {n : Node} {k : Nat}

/-! ## Entering the children of one node -/

theorem getD_foldl_insert (line : List Node) (k : Nat) : ∀ (cs : List Node) (index : AncestorIndex),
    (cs.foldl (fun index c => index.insert c.id line) index).getD k [] =
      if k ∈ cs.map Node.id then line else index.getD k []
  | [], _ => by simp
  | c :: cs, index => by
    rw [List.foldl_cons, getD_foldl_insert line k cs, Std.TreeMap.getD_insert]
    by_cases hk : k ∈ cs.map Node.id
    · simp [hk]
    · by_cases hc : c.id = k
      · simp [hc]
      · simp [hk, hc, Ne.symm hc]

theorem getD_enterChildren (index : AncestorIndex) (n : Node) (k : Nat) :
    (enterChildren index n).getD k [] =
      if k ∈ n.childNodes.map Node.id then n :: index.getD n.id [] else index.getD k [] :=
  getD_foldl_insert _ k _ _

/-- What is entered with the children of `n` is `n` and what stood above it. -/
theorem mem_of_mem_enterChildren {a : Node} (ha : a ∈ (enterChildren index n).getD k []) :
    a = n ∨ ∃ j, a ∈ index.getD j [] := by
  rw [getD_enterChildren] at ha
  split at ha
  · rcases List.mem_cons.1 ha with rfl | ha
    · exact .inl rfl
    · exact .inr ⟨_, ha⟩
  · exact .inr ⟨k, ha⟩

theorem mem_of_mem_foldl_enterChildren {a : Node} : ∀ (ns : List Node) {index : AncestorIndex},
    a ∈ (ns.foldl enterChildren index).getD k [] → a ∈ ns ∨ ∃ j, a ∈ index.getD j []
  | [], _, ha => .inr ⟨k, ha⟩
  | n :: ns, index, ha => by
    rcases mem_of_mem_foldl_enterChildren ns ha with ha | ⟨j, ha⟩
    · exact .inl (List.mem_cons_of_mem _ ha)
    · rcases mem_of_mem_enterChildren ha with rfl | ha
      · exact .inl List.mem_cons_self
      · exact .inr ha

/-! ## Entering everything below a node -/

/-- Enters the children of a node, then theirs, and so on, in pre-order. -/
def enterBelow (index : AncestorIndex) (n : Node) : AncestorIndex := n.preorder.foldl enterChildren index

theorem enterBelow_eq (index : AncestorIndex) (n : Node) :
    enterBelow index n = n.childNodes.foldl enterBelow (enterChildren index n) := by
  unfold enterBelow
  rw [Node.preorder_eq, List.foldl_cons, List.foldl_flatMap]

theorem getD_foldl_of_forall {step : AncestorIndex → Node → AncestorIndex} : ∀ {cs : List Node} {index : AncestorIndex},
    (∀ c ∈ cs, ∀ index, (step index c).getD k [] = index.getD k []) → (cs.foldl step index).getD k [] = index.getD k []
  | [], _, _ => rfl
  | c :: cs, index, h => by
    rw [List.foldl_cons, getD_foldl_of_forall fun d hd => h d (List.mem_cons_of_mem _ hd)]
    exact h c List.mem_cons_self index

/-- The entries of nodes that are not below `n` stay as they are. -/
theorem getD_enterBelow_of_ne (hk : ∀ x ∈ n.descendants, x.id ≠ k) :
    (enterBelow index n).getD k [] = index.getD k [] := by
  induction n using Node.childInduction generalizing index with
  | node n ih =>
    have hc : ∀ c ∈ n.childNodes, ∀ x ∈ c.preorder, x.id ≠ k := fun c hc x hx =>
      hk x (Node.mem_descendants.2 ⟨c, hc, hx⟩)
    rw [enterBelow_eq, getD_foldl_of_forall, getD_enterChildren, if_neg]
    · intro hm
      obtain ⟨c, hcn, rfl⟩ := List.mem_map.1 hm
      exact hc c hcn c c.self_mem_preorder rfl
    · exact fun c hcn index => ih c hcn fun x hx =>
        hc c hcn x (by rw [Node.preorder_eq_cons]; exact List.mem_cons_of_mem _ hx)

theorem getD_enterBelow_of_apart {c x : Node} (h : ∀ y ∈ c.preorder, y.id ≠ x.id) :
    (enterBelow index c).getD x.id [] = index.getD x.id [] :=
  getD_enterBelow_of_ne fun y hy => h y (by rw [Node.preorder_eq_cons]; exact List.mem_cons_of_mem _ hy)

/-- With everything below `n` entered, the line from a node below up to `n` stands in front of what stood above `n`. -/
theorem getD_enterBelow_of_line (hd : n.Distinct) {x : Node} {bs : List Node} (h : Line n x bs) :
    (enterBelow index n).getD x.id [] = bs ++ index.getD n.id [] := by
  induction n using Node.childInduction generalizing index x bs with
  | node n ih =>
    rcases h.eq_root_or_child with ⟨rfl, rfl⟩ | ⟨c, cs, hc, hx, rfl⟩
    · refine getD_enterBelow_of_ne fun y hy => ?_
      obtain ⟨c, hc, hy⟩ := Node.mem_descendants.1 hy
      exact hd.id_ne_of_child hc hy
    · -- only the entries made below `c` bear on `x`
      obtain ⟨ls, rs, hs⟩ := List.append_of_mem hc
      have hp := hs ▸ hd.pairwise_childNodes
      obtain ⟨-, hr, hl⟩ := List.pairwise_append.1 hp
      have hxr : ∀ r ∈ rs, ∀ y ∈ r.preorder, y.id ≠ x.id := fun r hm y hy =>
        ((List.pairwise_cons.1 hr).1 r hm x hx.mem_preorder y hy).symm
      have hcl : ∀ l ∈ ls, ∀ y ∈ l.preorder, y.id ≠ c.id := fun l hm y hy =>
        hl l hm c List.mem_cons_self y hy c c.self_mem_preorder
      have hcn : c.id ∈ n.childNodes.map Node.id := List.mem_map_of_mem hc
      rw [enterBelow_eq, hs, List.foldl_append, List.foldl_cons,
        getD_foldl_of_forall fun r hm _ => getD_enterBelow_of_apart (hxr r hm),
        ih c hc (hd.child hc) hx,
        getD_foldl_of_forall fun l hm _ => getD_enterBelow_of_apart (hcl l hm),
        getD_enterChildren, if_pos hcn, List.append_assoc, List.singleton_append]

/-! ## Lines of nodes that occur twice -/

section

variable {root x : Node}

/-- Entering the children of a node leads from each of them to the root, and keeps the lines that were entered before. -/
theorem line_enterChildren (hr : Coherent root.preorder) (hn : Line root n (index.getD n.id []))
    (hx : x ∈ root.preorder) (h : x ∈ n.childNodes ∨ Line root x (index.getD x.id [])) :
    Line root x ((enterChildren index n).getD x.id []) := by
  rw [getD_enterChildren]
  split
  · rename_i hm
    obtain ⟨c, hc, he⟩ := List.mem_map.1 hm
    have hcr := Node.mem_preorder_trans (Node.mem_preorder_of_mem_childNodes hc) hn.mem_preorder
    exact .child hn (hr c hcr x hx he ▸ hc)
  · rename_i hm
    exact h.resolve_left fun hc => hm (List.mem_map_of_mem hc)

/-- Entering everything below a node leads from each of these to the root. -/
theorem line_enterBelow (hr : Coherent root.preorder) (hn : Line root n (index.getD n.id [])) (hx : x ∈ root.preorder)
    (h : x ∈ n.preorder ∨ Line root x (index.getD x.id [])) : Line root x ((enterBelow index n).getD x.id []) := by
  induction n using Node.childInduction generalizing index x with
  | node n ih =>
    -- the children of `n` have lines as soon as they are entered, and keep them while one after the other is entered below
    have hfold : ∀ (cs : List Node) (index : AncestorIndex), cs ⊆ n.childNodes →
        (∀ c ∈ n.childNodes, Line root c (index.getD c.id [])) →
        (∃ c ∈ cs, x ∈ c.preorder) ∨ Line root x (index.getD x.id []) →
        Line root x ((cs.foldl enterBelow index).getD x.id []) := by
      intro cs
      induction cs with
      | nil => exact fun _ _ _ h => h.resolve_left fun ⟨c, hc, _⟩ => nomatch hc
      | cons c cs ihcs =>
        intro index hcs hlines h
        have hc := hcs List.mem_cons_self
        refine ihcs _ (fun d hd => hcs (List.mem_cons_of_mem _ hd)) (fun d hd => ?_) ?_
        · exact ih c hc (hlines c hc) (hlines d hd).mem_preorder (.inr (hlines d hd))
        · rcases h with ⟨d, hd, hxd⟩ | h
          · rcases List.mem_cons.1 hd with rfl | hd
            · exact .inr (ih d hc (hlines d hc) hx (.inl hxd))
            · exact .inl ⟨d, hd, hxd⟩
          · exact .inr (ih c hc (hlines c hc) hx (.inr h))
    have hchild : ∀ c ∈ n.childNodes, c ∈ root.preorder := fun c hc =>
      Node.mem_preorder_trans (Node.mem_preorder_of_mem_childNodes hc) hn.mem_preorder
    rw [enterBelow_eq]
    refine hfold _ _ (List.Subset.refl _) (fun c hc => line_enterChildren hr hn (hchild c hc) (.inl hc)) ?_
    rcases h with h | h
    · rcases Node.mem_preorder.1 h with rfl | hc
      · exact .inr (line_enterChildren hr hn hx (.inr hn))
      · exact .inl hc
    · exact .inr (line_enterChildren hr hn hx (.inr h))

end

end AncestorIndex

namespace Tree

variable {t : Tree} {n : Node}

theorem nodes_eq (t : Tree) : t.nodes = t.root.preorder := (Node.preorder_eq_cons _).symm

/-- An id that is not among those of the tree is no node's. -/
theorem id_ne_of_not_mem_ids {k : Nat} (hk : k ∉ t.root.preorder.map Node.id) : ∀ x ∈ t.nodes, x.id ≠ k := by
  rintro x hx rfl
  exact hk (List.mem_map_of_mem (t.nodes_eq ▸ hx))

theorem index_eq_enterBelow (t : Tree) : t.index = AncestorIndex.enterBelow ∅ t.root := by
  rw [t.index_eq, AncestorIndex.ofRoot, AncestorIndex.enterBelow, Node.preorder_eq_cons]

/-- **The index holds the line of every node.** -/
theorem ancestors_eq_of_line (hd : t.root.Distinct) {as : List Node} (h : Line t.root n as) : t.ancestors n = as := by
  rw [ancestors, index_eq_enterBelow, AncestorIndex.getD_enterBelow_of_line hd h, Std.TreeMap.getD_emptyc,
    List.append_nil]

/-- The index holds a line of every node, be it that a node occurs twice. -/
theorem line_ancestors (hc : Coherent t.nodes) (hn : n ∈ t.nodes) : Line t.root n (t.ancestors n) := by
  rw [nodes_eq] at hc hn
  rw [ancestors, index_eq_enterBelow]
  refine AncestorIndex.line_enterBelow hc ?_ hn (.inl hn)
  rw [Std.TreeMap.getD_emptyc]
  exact .root

/-- There is nothing above a node that is not in the tree. -/
theorem ancestors_eq_nil (h : ∀ x ∈ t.nodes, x.id ≠ n.id) : t.ancestors n = [] := by
  rw [ancestors, index_eq_enterBelow, AncestorIndex.getD_enterBelow_of_ne, Std.TreeMap.getD_emptyc]
  exact fun x hx => h x (List.mem_cons_of_mem _ hx)

/-- A node with something above it is in the tree. -/
theorem mem_nodes_of_ancestors_ne_nil (hc : Coherent (n :: t.nodes)) (h : t.ancestors n ≠ []) : n ∈ t.nodes := by
  by_contra hn
  refine h (ancestors_eq_nil fun x hx he => hn ?_)
  rwa [← hc x (List.mem_cons_of_mem _ hx) n List.mem_cons_self he]

theorem coherent_nodes (hd : t.root.Distinct) : Coherent t.nodes := t.nodes_eq ▸ hd.coherent

/-- The index names nodes of the tree alone, also where a node occurs twice. -/
theorem mem_nodes_of_mem_ancestors {a : Node} (ha : a ∈ t.ancestors n) : a ∈ t.nodes := by
  rw [ancestors, t.index_eq] at ha
  rcases AncestorIndex.mem_of_mem_foldl_enterChildren _ ha with ha | ⟨j, ha⟩
  · exact ha
  · rw [Std.TreeMap.getD_emptyc] at ha
    cases ha

end Tree

theorem Node.Line.unique {root n : Node} {as bs : List Node} (hd : root.Distinct) (h : Line root n as)
    (h' : Line root n bs) : as = bs := by
  let t := Tree.ofRoot root ""
  exact (Tree.ancestors_eq_of_line (t := t) hd h).symm.trans (Tree.ancestors_eq_of_line (t := t) hd h')

end BlockPresence
