import BlockPresence.Proofs.Tree.Ancestors

/-!
# Replacing the subtree of a node

`Node.replace i s` puts the tree `s` in the place of the node `i`. Where no node occurs twice and `s` brings no node that
is elsewhere in the tree (`Node.Replaces`), no node occurs twice afterwards (`Replaces.distinct_replace`), every node
outside the replaced subtree keeps its line of ancestors, each of them changed as the node itself (`Replaces.line`), and
`s` has the line of the node that it replaces (`Replaces.line_new`).
-/

namespace BlockPresence

namespace Slot

variable {α β : Type} {x : Slot α} {f : α → β} {b : β} {s : String}

/-- Changes the node in a slot. -/
def map (f : α → β) : Slot α → Slot β
  | node n => node (f n)
  | text s => text s
  | empty => empty

@[simp] theorem node?_map : (x.map f).node? = x.node?.map f := by
  cases x <;> rfl

@[simp] theorem map_eq_text : x.map f = text s ↔ x = text s := by
  cases x <;> simp [map]

@[simp] theorem map_eq_empty : x.map f = empty ↔ x = empty := by
  cases x <;> simp [map]

theorem map_eq_node : x.map f = node b ↔ ∃ a, x = node a ∧ f a = b := by
  cases x <;> simp [map]

theorem map_map_eq_single {xs : List (Slot α)} : xs.map (map f) = [node b] ↔ ∃ a, xs = [node a] ∧ f a = b := by
  rw [List.map_eq_singleton_iff]
  constructor
  · rintro ⟨x, rfl, hx⟩
    obtain ⟨a, rfl, ha⟩ := map_eq_node.1 hx
    exact ⟨a, rfl, ha⟩
  · rintro ⟨a, rfl, rfl⟩
    exact ⟨_, rfl, rfl⟩

theorem map_map_eq_pair {xs : List (Slot α)} : xs.map (map f) = [empty, text s] ↔ xs = [empty, text s] := by
  constructor
  · intro h
    obtain ⟨x, ys, rfl, hx, hys⟩ := List.map_eq_cons_iff.1 h
    obtain ⟨y, rfl, hy⟩ := List.map_eq_singleton_iff.1 hys
    rw [map_eq_empty.1 hx, map_eq_text.1 hy]
  · rintro rfl
    rfl

end Slot

namespace Node

mutual

/-- The tree with `s` in the place of the node `i`. -/
def replace (i : Nat) (s : Node) : Node → Node
  | ⟨id, kind, slots, extent⟩ => if id = i then s else ⟨id, kind, replaceSlots i s slots, extent⟩

/-- The slots with `s` in the place of the node `i`. -/
def replaceSlots (i : Nat) (s : Node) : List (Slot Node) → List (Slot Node)
  | [] => []
  | .node n :: rest => .node (replace i s n) :: replaceSlots i s rest
  | .text w :: rest => .text w :: replaceSlots i s rest
  | .empty :: rest => .empty :: replaceSlots i s rest

end

section

variable {i k : Nat} {n s : Node}

theorem replaceSlots_eq (i : Nat) (s : Node) (slots : List (Slot Node)) :
    replaceSlots i s slots = slots.map (Slot.map (replace i s)) := by
  induction slots with
  | nil => rfl
  | cons x rest ih => cases x <;> simp [replaceSlots, Slot.map, ih]

theorem replace_of_eq (h : n.id = i) : replace i s n = s := by
  cases n
  exact if_pos h

theorem replace_of_ne (h : n.id ≠ i) : replace i s n = { n with slots := n.slots.map (Slot.map (replace i s)) } := by
  cases n
  rw [← replaceSlots_eq]
  exact if_neg h

theorem id_replace (h : n.id ≠ i) : (replace i s n).id = n.id := by rw [replace_of_ne h]

theorem kind_replace (h : n.id ≠ i) : (replace i s n).kind = n.kind := by rw [replace_of_ne h]

theorem extent_replace (h : n.id ≠ i) : (replace i s n).extent = n.extent := by rw [replace_of_ne h]

theorem slots_replace (h : n.id ≠ i) : (replace i s n).slots = n.slots.map (Slot.map (replace i s)) := by
  rw [replace_of_ne h]

theorem slot_eq_map {m : Node} {g : Node → Node} (h : m.slots = n.slots.map (Slot.map g)) (k : Nat) :
    m.slot k = (n.slot k).map g := by
  rw [slot, h, slot, List.getD_eq_getElem?_getD, List.getD_eq_getElem?_getD, List.getElem?_map]
  cases n.slots[k]? <;> rfl

theorem slot_replace (h : n.id ≠ i) : (replace i s n).slot k = (n.slot k).map (replace i s) :=
  slot_eq_map (slots_replace h) k

theorem childNodes_replace (h : n.id ≠ i) : (replace i s n).childNodes = n.childNodes.map (replace i s) := by
  rw [childNodes, slots_replace h, childNodes, List.filterMap_map, List.map_filterMap]
  exact List.filterMap_congr fun x _ => Slot.node?_map

end

/-! ## Parents -/

section

variable {root n x p q : Node}

theorem eq_or_size_lt (h : x ∈ n.preorder) : x = n ∨ x.size < n.size := by
  induction n using childInduction with
  | node n ih =>
    rcases mem_preorder.1 h with rfl | ⟨c, hc, hx⟩
    · exact .inl rfl
    · have hlt := size_lt_of_mem_childNodes hc
      rcases ih c hc hx with rfl | h
      · exact .inr hlt
      · exact .inr (by omega)

theorem eq_of_mem_preorder (h : x ∈ n.preorder) (h' : n ∈ x.preorder) : x = n := by
  rcases eq_or_size_lt h with h | h
  · exact h
  · rcases eq_or_size_lt h' with h' | h'
    · exact h'.symm
    · omega

theorem mem_descendants_iff : x ∈ n.descendants ↔ x ∈ n.preorder ∧ x ≠ n := by
  rw [preorder_eq_cons, List.mem_cons]
  refine ⟨fun h => ⟨.inr h, ?_⟩, fun h => h.1.resolve_left h.2⟩
  rintro rfl
  obtain ⟨c, hc, hx⟩ := mem_descendants.1 h
  have hlt := size_lt_of_mem_childNodes hc
  rcases eq_or_size_lt hx with rfl | h
  · omega
  · omega

theorem mem_descendants_of_mem_preorder (hn : n ∈ p.preorder) (hx : x ∈ n.descendants) : x ∈ p.descendants := by
  rw [mem_descendants_iff] at *
  refine ⟨mem_preorder_trans hx.1 hn, ?_⟩
  rintro rfl
  exact hx.2 (eq_of_mem_preorder hx.1 hn)

theorem eq_or_exists_parent (h : x ∈ n.preorder) : x = n ∨ ∃ p ∈ n.preorder, x ∈ p.childNodes := by
  obtain ⟨as, hl⟩ := exists_line h
  cases hl with
  | root => exact .inl rfl
  | child hp hc => exact .inr ⟨_, hp.mem_preorder, hc⟩

/-- A node has one parent only. -/
theorem Distinct.parent_unique (hd : root.Distinct) (hp : p ∈ root.preorder) (hq : q ∈ root.preorder)
    (hxp : x ∈ p.childNodes) (hxq : x ∈ q.childNodes) : p = q := by
  obtain ⟨as, ha⟩ := exists_line hp
  obtain ⟨bs, hb⟩ := exists_line hq
  exact (List.cons.inj ((Line.child ha hxp).unique hd (.child hb hxq))).1

/-- No node is above itself. -/
theorem Line.id_ne {as : List Node} {a : Node} (hc : Coherent root.preorder) (hl : Line root n as) (ha : a ∈ as) :
    a.id ≠ n.id := by
  intro he
  have hna : n ∈ a.descendants := by
    obtain ⟨bs, cs, rfl⟩ := List.append_of_mem ha
    exact mem_descendants.2 hl.exists_child
  exact (mem_descendants_iff.1 hna).2 (hc a (hl.mem_preorder_of_mem ha) n hl.mem_preorder he).symm

/-- A line without the node that is replaced leads from the changed node to the changed root. -/
theorem Line.replace {as : List Node} {i : Nat} {s : Node} (hl : Line root x as) (hx : ∀ a ∈ x :: as, a.id ≠ i) :
    Line (replace i s root) (replace i s x) (as.map (replace i s)) := by
  induction hl with
  | root => exact .root
  | child _ hc ih =>
    have has := List.forall_mem_cons.1 hx
    refine .child (ih has.2) ?_
    rw [childNodes_replace (has.2 _ List.mem_cons_self)]
    exact List.mem_map_of_mem hc

/-- A tree has no node twice if its branches have none, nor two of them the same, nor one of them its root. -/
theorem Distinct.of_children (hd : ∀ c ∈ n.childNodes, c.Distinct) (hp : n.childNodes.Pairwise Apart)
    (hn : ∀ c ∈ n.childNodes, ∀ x ∈ c.preorder, x.id ≠ n.id) : n.Distinct := by
  unfold Distinct
  rw [Distinct.ids_eq, List.nodup_cons, List.nodup_flatMap]
  refine ⟨fun h => ?_, hd, hp.imp fun hcd i hi hj => ?_⟩
  · obtain ⟨c, hc, hi⟩ := List.mem_flatMap.1 h
    obtain ⟨x, hx, he⟩ := List.mem_map.1 hi
    exact hn c hc x hx he
  · obtain ⟨x, hx, rfl⟩ := List.mem_map.1 hi
    obtain ⟨y, hy, he⟩ := List.mem_map.1 hj
    exact hcd x hx y hy he.symm

end

/-! ## Trees with one subtree replaced -/

/-- A node of the tree that is not in the subtree of `n`. -/
def Outside (root n x : Node) : Prop := x ∈ root.preorder ∧ x ∉ n.preorder

/-- In the tree below `root`, which has no node twice, `s` can take the place of `n`: it has no node twice, and none that
is in the tree outside `n`. -/
structure Replaces (root n s : Node) : Prop where
  distinct : root.Distinct
  mem : n ∈ root.preorder
  distinct_new : s.Distinct
  fresh : ∀ x, Outside root n x → ∀ y ∈ s.preorder, x.id ≠ y.id

theorem Outside.parent {root n x p : Node} (h : Outside root n x) (hp : p ∈ root.preorder) (hx : x ∈ p.childNodes) :
    Outside root n p :=
  ⟨hp, fun hn => h.2 (mem_preorder_trans (mem_preorder_of_mem_childNodes hx) hn)⟩

namespace Replaces

variable {root n s x y p q : Node} {as : List Node}

/-- A tree that shares no node with another one can take the place of any node of it. -/
theorem of_nodup (hn : n ∈ root.preorder) (h : ((root.preorder ++ s.preorder).map Node.id).Nodup) :
    root.Replaces n s := by
  rw [List.map_append, List.nodup_append] at h
  obtain ⟨hr, hs, hne⟩ := h
  exact ⟨hr, hn, hs, fun x hx y hy => hne _ (List.mem_map_of_mem hx.1) _ (List.mem_map_of_mem hy)⟩

theorem id_ne (h : root.Replaces n s) (hx : Outside root n x) : x.id ≠ n.id := by
  intro he
  rw [h.distinct.eq_of_id hx.1 h.mem he] at hx
  exact hx.2 n.self_mem_preorder

/-- Below a node outside `n`, a child is outside too, or it is `n`. -/
theorem outside_or_eq (h : root.Replaces n s) (hp : Outside root n p) (hx : x ∈ p.childNodes) :
    Outside root n x ∨ x = n := by
  by_cases hn : x ∈ n.preorder
  · rcases eq_or_exists_parent hn with rfl | ⟨q, hq, hxq⟩
    · exact .inr rfl
    · rw [h.distinct.parent_unique hp.1 (mem_preorder_trans hq h.mem) hx hxq] at hp
      exact absurd hq hp.2
  · exact .inl ⟨mem_preorder_trans (mem_preorder_of_mem_childNodes hx) hp.1, hn⟩

theorem outside_parent (h : root.Replaces n s) (hp : p ∈ root.preorder) (hn : n ∈ p.childNodes) :
    Outside root n p := by
  refine ⟨hp, fun hpn => ?_⟩
  have he := eq_of_mem_preorder hpn (mem_preorder_of_mem_childNodes hn)
  exact (h.distinct.of_mem hp).id_ne_of_child hn n.self_mem_preorder (congrArg Node.id he.symm)

theorem outside_of_above (h : root.Replaces n s) (hl : Line root n as) (hp : p ∈ as) : Outside root n p := by
  refine ⟨hl.mem_preorder_of_mem hp, fun hpn => hl.id_ne h.distinct.coherent hp ?_⟩
  rw [eq_of_mem_preorder hpn (hl.below_of_mem hp)]

theorem outside_of_mem_line (hl : Line root x as) (hx : Outside root n x) (hp : p ∈ as) : Outside root n p :=
  ⟨hl.mem_preorder_of_mem hp, fun hn => hx.2 (mem_preorder_trans (hl.below_of_mem hp) hn)⟩

theorem replace_inj (h : root.Replaces n s) (hx : Outside root n x) (hy : Outside root n y)
    (he : replace n.id s x = replace n.id s y) : x = y := by
  refine h.distinct.eq_of_id hx.1 hy.1 ?_
  rw [← id_replace (h.id_ne hx), he, id_replace (h.id_ne hy)]

/-! ### Nodes -/

/-- The nodes after a replacement: those outside the replaced subtree, changed, and those of the new one. -/
theorem mem_replace (h : root.Replaces n s) (hp : Outside root n p ∨ p = n) : y ∈ (replace n.id s p).preorder ↔
    (∃ x ∈ p.preorder, Outside root n x ∧ replace n.id s x = y) ∨ n ∈ p.preorder ∧ y ∈ s.preorder := by
  induction p using childInduction with
  | node p ih =>
    rcases hp with hp | rfl
    · have ihc : ∀ c ∈ p.childNodes, _ := fun c hc => ih c hc (h.outside_or_eq hp hc)
      have hpn : p ≠ n := fun he => hp.2 (he ▸ p.self_mem_preorder)
      rw [mem_preorder, childNodes_replace (h.id_ne hp)]
      constructor
      · rintro (rfl | ⟨c', hc', hy⟩)
        · exact .inl ⟨p, p.self_mem_preorder, hp, rfl⟩
        · obtain ⟨c, hc, rfl⟩ := List.mem_map.1 hc'
          rcases (ihc c hc).1 hy with ⟨x, hx, ho, rfl⟩ | ⟨hn, hy⟩
          · exact .inl ⟨x, mem_preorder_of_child hc hx, ho, rfl⟩
          · exact .inr ⟨mem_preorder_of_child hc hn, hy⟩
      · rintro (⟨x, hx, ho, rfl⟩ | ⟨hn, hy⟩)
        · rcases mem_preorder.1 hx with rfl | ⟨c, hc, hx⟩
          · exact .inl rfl
          · exact .inr ⟨_, List.mem_map_of_mem hc, (ihc c hc).2 (.inl ⟨x, hx, ho, rfl⟩)⟩
        · rcases mem_preorder.1 hn with he | ⟨c, hc, hn⟩
          · exact absurd he.symm hpn
          · exact .inr ⟨_, List.mem_map_of_mem hc, (ihc c hc).2 (.inr ⟨hn, hy⟩)⟩
    · rw [replace_of_eq rfl]
      constructor
      · exact fun hy => .inr ⟨p.self_mem_preorder, hy⟩
      · rintro (⟨x, hx, ho, -⟩ | ⟨-, hy⟩)
        · exact absurd hx ho.2
        · exact hy

/-- What is below a node outside is outside too, or below `n`. -/
theorem outside_or_below (h : root.Replaces n s) (hp : Outside root n p ∨ p = n) (hx : x ∈ p.preorder) :
    Outside root n x ∨ n ∈ p.preorder ∧ x ∈ n.preorder := by
  induction p using childInduction with
  | node p ih =>
    rcases hp with hp | rfl
    · rcases mem_preorder.1 hx with rfl | ⟨c, hc, hx⟩
      · exact .inl hp
      · exact (ih c hc (h.outside_or_eq hp hc) hx).imp_right fun hn => ⟨mem_preorder_of_child hc hn.1, hn.2⟩
    · exact .inr ⟨p.self_mem_preorder, hx⟩

theorem root_outside_or_eq (h : root.Replaces n s) : Outside root n root ∨ root = n := by
  by_cases hr : root ∈ n.preorder
  · exact .inr (eq_of_mem_preorder hr h.mem)
  · exact .inl ⟨root.self_mem_preorder, hr⟩

theorem mem_replace_root (h : root.Replaces n s) : y ∈ (replace n.id s root).preorder ↔
    (∃ x, Outside root n x ∧ replace n.id s x = y) ∨ y ∈ s.preorder := by
  rw [h.mem_replace h.root_outside_or_eq, and_iff_right h.mem]
  exact or_congr_left (exists_congr fun x => ⟨fun hx => hx.2, fun hx => ⟨hx.1.1, hx⟩⟩)

/-- A node outside stands below another one just if it did so before. -/
theorem replace_mem_iff (h : root.Replaces n s) (hp : Outside root n p ∨ p = n) (hx : Outside root n x) :
    replace n.id s x ∈ (replace n.id s p).preorder ↔ x ∈ p.preorder := by
  rw [h.mem_replace hp]
  constructor
  · rintro (⟨x', hx', ho, he⟩ | ⟨-, hs⟩)
    · rwa [h.replace_inj hx ho he.symm]
    · exact absurd (id_replace (h.id_ne hx)).symm (h.fresh x hx _ hs)
  · exact fun hxp => .inl ⟨x, hxp, hx, rfl⟩

theorem replace_mem_descendants_iff (h : root.Replaces n s) (hp : Outside root n p ∨ p = n) (hx : Outside root n x) :
    replace n.id s x ∈ (replace n.id s p).descendants ↔ x ∈ p.descendants := by
  rw [mem_descendants_iff, mem_descendants_iff, h.replace_mem_iff hp hx]
  refine and_congr_right fun hxp => not_congr ?_
  rcases hp with hp | rfl
  · exact ⟨h.replace_inj hx hp, fun he => by rw [he]⟩
  · exact absurd hxp hx.2

/-- Two branches that share no node share none afterwards. -/
theorem apart_replace (h : root.Replaces n s) (hp : Outside root n p ∨ p = n) (hq : Outside root n q ∨ q = n)
    (ha : Apart p q) : Apart (replace n.id s p) (replace n.id s q) := by
  intro a' ha' b' hb' he
  rcases (h.mem_replace hp).1 ha' with ⟨a, hap, hao, rfl⟩ | ⟨hnp, has⟩
  · rw [id_replace (h.id_ne hao)] at he
    rcases (h.mem_replace hq).1 hb' with ⟨b, hbq, hbo, rfl⟩ | ⟨-, hbs⟩
    · rw [id_replace (h.id_ne hbo)] at he
      exact ha a hap b hbq he
    · exact h.fresh a hao _ hbs he
  · rcases (h.mem_replace hq).1 hb' with ⟨b, -, hbo, rfl⟩ | ⟨hnq, -⟩
    · rw [id_replace (h.id_ne hbo)] at he
      exact h.fresh b hbo _ has he.symm
    · exact ha n hnp n hnq rfl

/-- A node outside is of the kind and has the name that it had. -/
theorem named_replace_iff (h : root.Replaces n s) (hx : Outside root n x) {K : Kind → Prop} {name : String} :
    K (replace n.id s x).kind ∧ (replace n.id s x).slot 0 = .text name ↔ K x.kind ∧ x.slot 0 = .text name := by
  rw [kind_replace (h.id_ne hx), slot_replace (h.id_ne hx), Slot.map_eq_text]

/-- Something that is said of nodes outside as before is said of a node somewhere below `p`, if it is said of nodes of both
subtrees or of neither. -/
theorem exists_mem_replace_iff (h : root.Replaces n s) {Q : Node → Prop}
    (hQ : ∀ x, Outside root n x → (Q (replace n.id s x) ↔ Q x)) (hs : (∃ y ∈ s.preorder, Q y) ↔ ∃ y ∈ n.preorder, Q y)
    (hp : Outside root n p ∨ p = n) : (∃ y ∈ (replace n.id s p).preorder, Q y) ↔ ∃ x ∈ p.preorder, Q x := by
  constructor
  · rintro ⟨y, hy, hq⟩
    rcases (h.mem_replace hp).1 hy with ⟨x, hx, ho, rfl⟩ | ⟨hn, hy⟩
    · exact ⟨x, hx, (hQ x ho).1 hq⟩
    · obtain ⟨x, hx, hq⟩ := hs.1 ⟨y, hy, hq⟩
      exact ⟨x, mem_preorder_trans hx hn, hq⟩
  · rintro ⟨x, hx, hq⟩
    rcases h.outside_or_below hp hx with ho | ⟨hn, hx'⟩
    · exact ⟨_, (h.mem_replace hp).2 (.inl ⟨x, hx, ho, rfl⟩), (hQ x ho).2 hq⟩
    · obtain ⟨y, hy, hq⟩ := hs.2 ⟨x, hx', hq⟩
      exact ⟨y, (h.mem_replace hp).2 (.inr ⟨hn, hy⟩), hq⟩

theorem exists_mem_descendants_replace_iff (h : root.Replaces n s) {Q : Node → Prop}
    (hQ : ∀ x, Outside root n x → (Q (replace n.id s x) ↔ Q x)) (hs : (∃ y ∈ s.preorder, Q y) ↔ ∃ y ∈ n.preorder, Q y)
    (hp : Outside root n p) : (∃ y ∈ (replace n.id s p).descendants, Q y) ↔ ∃ x ∈ p.descendants, Q x := by
  have hc : ∀ c ∈ p.childNodes, _ := fun c hc => h.exists_mem_replace_iff hQ hs (h.outside_or_eq hp hc)
  simp only [mem_descendants, childNodes_replace (h.id_ne hp), List.mem_map]
  constructor
  · rintro ⟨y, ⟨_, ⟨c, hcp, rfl⟩, hy⟩, hq⟩
    obtain ⟨x, hx, hq⟩ := (hc c hcp).1 ⟨y, hy, hq⟩
    exact ⟨x, ⟨c, hcp, hx⟩, hq⟩
  · rintro ⟨x, ⟨c, hcp, hx⟩, hq⟩
    obtain ⟨y, hy, hq⟩ := (hc c hcp).2 ⟨x, hx, hq⟩
    exact ⟨y, ⟨_, ⟨c, hcp, rfl⟩, hy⟩, hq⟩

/-- **After a replacement no node occurs twice.** -/
theorem distinct_replace (h : root.Replaces n s) : (replace n.id s root).Distinct := by
  have hall : ∀ p, Outside root n p ∨ p = n → (replace n.id s p).Distinct := by
    intro p hp
    induction p using childInduction with
    | node p ih =>
      rcases hp with hp | rfl
      · have hc : ∀ c ∈ p.childNodes, Outside root n c ∨ c = n := fun c hc => h.outside_or_eq hp hc
        refine .of_children ?_ ?_ ?_ <;> rw [childNodes_replace (h.id_ne hp)]
        · intro c' hc'
          obtain ⟨c, hcp, rfl⟩ := List.mem_map.1 hc'
          exact ih c hcp (hc c hcp)
        · rw [List.pairwise_map]
          exact (h.distinct.of_mem hp.1).pairwise_childNodes.imp_of_mem fun hcp hdp =>
            h.apart_replace (hc _ hcp) (hc _ hdp)
        · intro c' hc' y hy
          obtain ⟨c, hcp, rfl⟩ := List.mem_map.1 hc'
          rw [id_replace (h.id_ne hp)]
          rcases (h.mem_replace (hc c hcp)).1 hy with ⟨x, hx, ho, rfl⟩ | ⟨-, hys⟩
          · rw [id_replace (h.id_ne ho)]
            exact (h.distinct.of_mem hp.1).id_ne_of_child hcp hx
          · exact (h.fresh p hp y hys).symm
      · rw [replace_of_eq rfl]
        exact h.distinct_new
  exact hall root h.root_outside_or_eq

/-! ### Slots -/

theorem holds_replace (h : root.Replaces n s) (hp : Outside root n p) (hx : Outside root n x) :
    ((replace n.id s p).slot 0).holds (replace n.id s x) = (p.slot 0).holds x := by
  rw [slot_replace (h.id_ne hp)]
  cases hs : p.slot 0 with
  | text _ => rfl
  | empty => rfl
  | node c =>
    change ((replace n.id s c).id == (replace n.id s x).id) = (c.id == x.id)
    rw [id_replace (h.id_ne hx)]
    rcases h.outside_or_eq hp (mem_childNodes_of_slot hs) with hc | rfl
    · rw [id_replace (h.id_ne hc)]
    · rw [replace_of_eq rfl, beq_eq_false_iff_ne.2 (h.fresh x hx s s.self_mem_preorder).symm,
        beq_eq_false_iff_ne.2 (h.id_ne hx).symm]

/-- A slot that held the replaced subtree holds the new one, and no other slot does. -/
theorem holds_new (h : root.Replaces n s) (hp : Outside root n p) :
    ((replace n.id s p).slot 0).holds s = (p.slot 0).holds n := by
  rw [slot_replace (h.id_ne hp)]
  cases hs : p.slot 0 with
  | text _ => rfl
  | empty => rfl
  | node c =>
    change ((replace n.id s c).id == s.id) = (c.id == n.id)
    rcases h.outside_or_eq hp (mem_childNodes_of_slot hs) with hc | rfl
    · rw [id_replace (h.id_ne hc), beq_eq_false_iff_ne.2 (h.fresh c hc s s.self_mem_preorder),
        beq_eq_false_iff_ne.2 (h.id_ne hc)]
    · rw [replace_of_eq rfl, beq_self_eq_true, beq_self_eq_true]

/-! ### Lines -/

/-- **A node outside keeps its line.** -/
theorem line (h : root.Replaces n s) (hl : Line root x as) (hx : Outside root n x) :
    Line (replace n.id s root) (replace n.id s x) (as.map (replace n.id s)) :=
  hl.replace (List.forall_mem_cons.2 ⟨h.id_ne hx, fun _ ha => h.id_ne (outside_of_mem_line hl hx ha)⟩)

/-- **The new subtree** has the line of the one that it replaces. -/
theorem line_new (h : root.Replaces n s) (hl : Line root n as) :
    Line (replace n.id s root) s (as.map (replace n.id s)) := by
  cases hl with
  | root =>
    rw [replace_of_eq rfl]
    exact .root
  | child hl hc =>
    have hp := h.outside_parent hl.mem_preorder hc
    refine .child (h.line hl hp) ?_
    rw [childNodes_replace (h.id_ne hp)]
    exact List.mem_map.2 ⟨n, hc, replace_of_eq rfl⟩

end Replaces

end Node

namespace Tree

/-- The tree with `s` in the place of the node `n`. -/
def replace (t : Tree) (n s : Node) : Tree := ofRoot (Node.replace n.id s t.root) t.path

variable {t : Tree} {n s x : Node}

theorem mem_nodes_replace (h : t.root.Replaces n s) (hx : Node.Outside t.root n x) :
    Node.replace n.id s x ∈ (t.replace n s).nodes := by
  rw [nodes_eq]
  exact h.mem_replace_root.2 (.inl ⟨x, hx, rfl⟩)

theorem mem_nodes_replace_of_mem (h : t.root.Replaces n s) (hx : x ∈ s.preorder) : x ∈ (t.replace n s).nodes := by
  rw [nodes_eq]
  exact h.mem_replace_root.2 (.inr hx)

theorem mem_nodes_replace_new (h : t.root.Replaces n s) : s ∈ (t.replace n s).nodes :=
  mem_nodes_replace_of_mem h s.self_mem_preorder

end Tree

end BlockPresence
