import BlockPresence.Lint.Rule
import BlockPresence.Proofs.Tree.Line

/-!
# Extents in a tree

A parser lays out the nodes of a tree over the source text (`Node.LaidOut`): what is below a node lies within its extent,
and the branches of a node lie apart. Of two nodes in pre-order the second is below the first one, or their extents lie
apart (`LaidOut.pairwise_preorder`).
-/

namespace BlockPresence

namespace Extent

/-- The extent covers the character at the offset `i`. -/
def Covers (e : Extent) (i : Nat) : Prop := e.start ≤ i ∧ i < e.stop

/-- No character is covered by both. -/
def Apart (e f : Extent) : Prop := ∀ i, e.Covers i → ¬ f.Covers i

/-- The extent lies within `f`. -/
def Within (e f : Extent) : Prop := f.start ≤ e.start ∧ e.stop ≤ f.stop

variable {e e' f f' : Extent}

theorem Within.refl (e : Extent) : e.Within e := ⟨Nat.le_refl _, Nat.le_refl _⟩

theorem Within.trans (h : e.Within e') (h' : e'.Within f) : e.Within f :=
  ⟨Nat.le_trans h'.1 h.1, Nat.le_trans h.2 h'.2⟩

theorem Apart.mono (h : e'.Apart f') (he : e.Within e') (hf : f.Within f') : e.Apart f := fun i hi hi' =>
  h i ⟨Nat.le_trans he.1 hi.1, Nat.lt_of_lt_of_le hi.2 he.2⟩ ⟨Nat.le_trans hf.1 hi'.1, Nat.lt_of_lt_of_le hi'.2 hf.2⟩

/-- Of two extents that lie apart and are not empty, one ends before the other one starts. -/
theorem Apart.stop_le (h : e.Apart f) (he : e.start < e.stop) (hf : f.start < f.stop) :
    e.stop ≤ f.start ∨ f.stop ≤ e.start := by
  by_contra hno
  rw [not_or, Nat.not_le, Nat.not_le] at hno
  have hmax : e.Covers (max e.start f.start) := ⟨by omega, by omega⟩
  exact h _ hmax ⟨by omega, by omega⟩

end Extent

namespace Node

/-- The extents are those that a parser gives the nodes below and including `root`: a child lies within its parent, the
children of a node lie apart, and what a rule looks at is not empty. -/
structure LaidOut (root : Node) : Prop where
  within : ∀ p ∈ root.preorder, ∀ c ∈ p.childNodes, c.extent.Within p.extent
  apart : ∀ p ∈ root.preorder, p.childNodes.Pairwise fun c d => c.extent.Apart d.extent
  nonempty : ∀ n ∈ root.preorder, Rule.concerns n.kind = true → n.extent.start < n.extent.stop

namespace LaidOut

variable {root n c x y : Node}

/-- It is enough if the children of each node stand one behind the other. -/
theorem of_ordered (h : ∀ p ∈ root.preorder,
    (∀ c ∈ p.childNodes, p.extent.start ≤ c.extent.start ∧ c.extent.stop ≤ p.extent.stop) ∧
    (p.childNodes.Pairwise fun c d => c.extent.stop ≤ d.extent.start) ∧
    (Rule.concerns p.kind = true → p.extent.start < p.extent.stop)) : root.LaidOut where
  within p hp := (h p hp).1
  apart p hp := (h p hp).2.1.imp fun hcd _ hi hi' => Nat.lt_irrefl _ (Nat.lt_of_lt_of_le hi.2 (Nat.le_trans hcd hi'.1))
  nonempty p hp := (h p hp).2.2

theorem of_mem (h : root.LaidOut) (hn : n ∈ root.preorder) : n.LaidOut where
  within p hp := h.within p (mem_preorder_trans hp hn)
  apart p hp := h.apart p (mem_preorder_trans hp hn)
  nonempty x hx := h.nonempty x (mem_preorder_trans hx hn)

/-- What is below a node lies within it. -/
theorem within_of_mem (h : root.LaidOut) (hx : x ∈ root.preorder) : x.extent.Within root.extent := by
  induction root using childInduction with
  | node root ih =>
    rcases mem_preorder.1 hx with rfl | ⟨c, hc, hx⟩
    · exact .refl _
    · have hcr := h.of_mem (mem_preorder_of_mem_childNodes hc)
      exact (ih c hc hcr hx).trans (h.within root root.self_mem_preorder c hc)

/-- **Two nodes in pre-order**: the second is below the first one, or they lie apart. -/
theorem pairwise_preorder (h : root.LaidOut) :
    root.preorder.Pairwise fun x y => y ∈ x.descendants ∨ x.extent.Apart y.extent := by
  induction root using childInduction with
  | node root ih =>
    have hchild : ∀ c ∈ root.childNodes, c.LaidOut := fun c hc => h.of_mem (mem_preorder_of_mem_childNodes hc)
    rw [preorder_eq_cons, List.pairwise_cons]
    refine ⟨fun y hy => .inl hy, ?_⟩
    rw [descendants_eq, List.pairwise_flatMap]
    refine ⟨fun c hc => ih c hc (hchild c hc), ?_⟩
    refine (h.apart root root.self_mem_preorder).imp_of_mem fun {c d} hc hd hcd x hx y hy => .inr ?_
    exact hcd.mono ((hchild c hc).within_of_mem hx) ((hchild d hd).within_of_mem hy)

end LaidOut

end Node

end BlockPresence
