import BlockPresence.Proofs.Tree.Replace
import Mathlib.Data.Finset.Dedup
import Mathlib.Data.Finset.Lattice.Fold

/-!
# The pre-order of a tree with a subtree replaced

Replacing a subtree cuts its nodes out of the pre-order and puts those of the new one in their place; the nodes before and
behind stay in their order (`Replaces.preorder_split`). So what is counted among the nodes changes by what the two subtrees
count (`Replaces.countP_replace`).

A tree without the node to be replaced stays as it is (`replace_eq_self`), and there are always fresh ids to be had
(`exists_fresh`).
-/

namespace BlockPresence

namespace Slot

theorem map_eq_self {α : Type} {x : Slot α} {f : α → α} (h : ∀ n, x = node n → f n = n) : x.map f = x := by
  cases x with
  | node n => exact congrArg node (h n rfl)
  | text _ => rfl
  | empty => rfl

end Slot

namespace Node

variable {root n s p x : Node} {i : Nat}

theorem replace_eq_self (h : ∀ x ∈ p.preorder, x.id ≠ i) : replace i s p = p := by
  induction p using childInduction with
  | node p ih =>
    have hslots : ∀ x ∈ p.slots, x.map (replace i s) = x := fun x hx => Slot.map_eq_self fun c hc => by
      have hcp := mem_childNodes_of_mem_slots (hc ▸ hx)
      exact ih c hcp fun y hy => h y (mem_preorder_of_child hcp hy)
    rw [replace_of_ne (h p p.self_mem_preorder), List.map_congr_left hslots, List.map_id']
    cases p
    rfl

/-- Branches that do not hold the node stay as they are. -/
theorem map_replace_eq_self {ps : List Node} (h : ∀ p ∈ ps, ∀ x ∈ p.preorder, x.id ≠ i) : ps.map (replace i s) = ps :=
  (List.map_congr_left fun p hp => replace_eq_self (h p hp)).trans ps.map_id

/-- So does every node of such branches. -/
theorem map_replace_flatMap {ps : List Node} (h : ∀ p ∈ ps, ∀ x ∈ p.preorder, x.id ≠ i) :
    (ps.flatMap preorder).map (replace i s) = ps.flatMap preorder := by
  refine map_replace_eq_self fun y hy x hx => ?_
  obtain ⟨p, hp, hy⟩ := List.mem_flatMap.1 hy
  exact h p hp x (mem_preorder_trans hx hy)

namespace Replaces

/-- **The pre-order after a replacement**: the nodes of the new subtree stand where those of the old one stood. -/
theorem preorder_split (h : root.Replaces n s) (hp : Outside root n p ∨ p = n) (hn : n ∈ p.preorder) :
    ∃ ls rs, p.preorder = ls ++ n.preorder ++ rs ∧
      (replace n.id s p).preorder = ls.map (replace n.id s) ++ s.preorder ++ rs.map (replace n.id s) := by
  induction p using childInduction with
  | node p ih =>
    rcases hp with hp | rfl
    · have hpn : n ≠ p := fun he => hp.2 (he ▸ n.self_mem_preorder)
      obtain ⟨c, hc, hnc⟩ := (mem_preorder.1 hn).resolve_left hpn
      obtain ⟨ls, rs, he, he'⟩ := ih c hc (h.outside_or_eq hp hc) hnc
      -- of the branches of `p` only `c` holds `n`
      obtain ⟨as, bs, hs⟩ := List.append_of_mem hc
      have hpw := hs ▸ (h.distinct.of_mem hp.1).pairwise_childNodes
      obtain ⟨-, hcb, hac⟩ := List.pairwise_append.1 hpw
      have has : ∀ a ∈ as, ∀ x ∈ a.preorder, x.id ≠ n.id := fun a ha x hx =>
        hac a ha c List.mem_cons_self x hx n hnc
      have hbs : ∀ b ∈ bs, ∀ x ∈ b.preorder, x.id ≠ n.id := fun b hb x hx =>
        ((List.pairwise_cons.1 hcb).1 b hb n hnc x hx).symm
      refine ⟨p :: as.flatMap preorder ++ ls, rs ++ bs.flatMap preorder, ?_, ?_⟩
      · rw [preorder_eq, hs, List.flatMap_append, List.flatMap_cons, he]
        simp only [List.cons_append, List.append_assoc]
      · rw [preorder_eq, childNodes_replace (h.id_ne hp), hs, List.map_append, List.map_cons,
          map_replace_eq_self has, map_replace_eq_self hbs, List.flatMap_append, List.flatMap_cons, he',
          List.map_append, List.map_append, List.map_cons, map_replace_flatMap has, map_replace_flatMap hbs]
        simp only [List.cons_append, List.append_assoc]
    · exact ⟨[], [], by simp, by simp [replace_of_eq]⟩

/-- What is counted among the nodes, and is counted of nodes outside as before, changes by what the subtrees count. -/
theorem countP_replace (h : root.Replaces n s) {q : Node → Bool} (hq : ∀ x, Outside root n x → q (replace n.id s x) = q x) :
    (replace n.id s root).preorder.countP q + n.preorder.countP q = root.preorder.countP q + s.preorder.countP q := by
  obtain ⟨ls, rs, he, he'⟩ := h.preorder_split h.root_outside_or_eq h.mem
  have hnd : (ls ++ n.preorder ++ rs).Nodup := he ▸ h.distinct.of_map _
  have hls : ∀ x ∈ ls, Outside root n x := fun x hx =>
    ⟨he ▸ by simp [hx], fun hn => List.disjoint_of_nodup_append hnd.of_append_left hx hn⟩
  have hrs : ∀ x ∈ rs, Outside root n x := fun x hx =>
    ⟨he ▸ by simp [hx], fun hn => List.disjoint_of_nodup_append hnd (List.mem_append_right ls hn) hx⟩
  have hmap : ∀ xs : List Node, (∀ x ∈ xs, Outside root n x) → (xs.map (replace n.id s)).countP q = xs.countP q :=
    fun xs hxs => by
      rw [List.countP_map]
      exact List.countP_congr fun x hx => by rw [Function.comp_apply, hq x (hxs x hx)]
  rw [he, he', List.countP_append, List.countP_append, List.countP_append, List.countP_append, hmap ls hls, hmap rs hrs]
  omega

end Replaces

theorem exists_fresh (root : Node) : ∃ k, ∀ x ∈ root.preorder, x.id < k := by
  refine ⟨(root.preorder.map Node.id).toFinset.sup (fun i => i) + 1, fun x hx => Nat.lt_succ_of_le ?_⟩
  exact Finset.le_sup (f := fun i => i) (List.mem_toFinset.2 (List.mem_map_of_mem hx))

end Node

end BlockPresence
