import BlockPresence.Proofs.Idiom.Outcome
import BlockPresence.Proofs.Idiom.Swap
import BlockPresence.Proofs.Lint.Advice

/-!
# Corrections and control flow

A read of a block parameter is reported only where its value is tested (`Rule.isOnlyTested_of_check`). What is written in
its place may have another value, nil for false or some other true value, but is true just if the block parameter is. So
what decides on it decides as before (`Rule.keeps_decisions`), also if this is far up, beyond operators and parentheses,
whose own values may well change.
-/

namespace BlockPresence

open Node (Coherent Controls)

namespace Rule

variable {r : Rule} {t : Tree} {n : Node} {memo : Memo} {v : Violation}

/-- A read of a local variable that is reported is only tested. -/
theorem isOnlyTested_of_check (h : (r.check t n memo).1.result = .ok (some v)) (hk : n.kind = .localRead) :
    t.isOnlyTested n = true := by
  obtain ⟨m, param?, a, message, -, -, ha, -⟩ := exists_advice_of_violation h
  rcases adviceFor?_cases ha with ⟨e, text, he, -⟩ | ⟨p, text, -, ⟨-, -, ht, -⟩, -⟩
  · exact absurd hk (kind_ne_of_shape he).1
  · exact ht

/-- **Tested values keep decisions.** In whatever tree, the value of a node is only tested just if something above the
node decides on it; and this decides alike on any two values of the node that are both true or both not, whatever the
values of the other nodes. So where a read of a local variable is reported, what decides on it is there after the
correction, and decides as before if what the correction wrote is true just when the block parameter is, which is when a
block was passed. -/
theorem keeps_decisions (t : Tree) (n : Node) (hc : Coherent (n :: t.nodes)) :
    (t.isOnlyTested n = true ↔ ∃ q c, Controls q c n (t.ancestors n)) ∧
    (∀ q c, Controls q c n (t.ancestors n) → q ∈ t.nodes ∧ q.Tests c ∧ ∀ own v w, v.isTrue = w.isTrue →
      q.decision c (Node.value own n.id v) = q.decision c (Node.value own n.id w)) ∧
    ∀ (r : Rule) (memo : Memo) (violation : Violation) (correction : Correction) (s : Node),
      (r.check t n memo).1.result = .ok (some violation) → n.kind = .localRead →
      violation.correction = some correction → s.Spells r.preferred correction.replacement →
      (∀ y ∈ t.nodes, y.id ≠ s.id) →
      ∃ q c, Controls q c n (t.ancestors n) ∧
        Node.replace n.id s q ∈ (t.replace n s).nodes ∧ (Node.replace n.id s q).Tests (Node.replace n.id s c) ∧
        ∀ own passed v w, v.isTrue = passed → w.isTrue = passed →
          (Node.replace n.id s q).decision (Node.replace n.id s c) (Node.value own s.id w) =
            q.decision c (Node.value own n.id v) := by
  have hct : Coherent t.nodes := hc.mono fun _ hx => List.mem_cons_of_mem _ hx
  have hcr : Coherent t.root.preorder := t.nodes_eq ▸ hct
  have hline : t.ancestors n ≠ [] → t.root.Line n (t.ancestors n) := fun hne =>
    Tree.line_ancestors hct (Tree.mem_nodes_of_ancestors_ne_nil hc hne)
  have hiff : t.isOnlyTested n = true ↔ ∃ q c, Controls q c n (t.ancestors n) := by
    by_cases hnil : t.ancestors n = []
    · rw [Tree.isOnlyTested, hnil]
      refine iff_of_false (fun h => nomatch h) ?_
      rintro ⟨q, c, h⟩
      cases h.mem
    · exact Node.isOnlyTested_iff_controls hcr (hline hnil)
  refine ⟨hiff, fun q c h => ?_, fun r memo violation correction s hv hk _ _ hs => ?_⟩
  · have hl := hline (List.ne_nil_of_mem h.mem)
    have hq : q.id ≠ n.id := hl.id_ne hcr h.mem
    exact ⟨Tree.mem_nodes_of_mem_ancestors h.mem, h.tests, fun own v w hvw => h.tests.decision_congr hq hvw⟩
  · obtain ⟨q, c, h⟩ := hiff.1 (isOnlyTested_of_check hv hk)
    have hl := hline (List.ne_nil_of_mem h.mem)
    have hq : q.id ≠ n.id := hl.id_ne hcr h.mem
    refine ⟨q, c, h, ?_, h.tests.replace hq, fun own passed v w hv hw => ?_⟩
    · -- `q` and all that is above it are above `n`, so they stay in their places
      obtain ⟨bs, as, hsplit⟩ := List.append_of_mem h.mem
      rw [hsplit] at hl
      have hne : ∀ a ∈ q :: as, a.id ≠ n.id := fun a ha => hl.id_ne hcr (List.mem_append_right bs ha)
      rw [Tree.nodes_eq]
      exact (hl.tail.replace hne).mem_preorder
    · have hfresh : ∀ y ∈ q.preorder, y.id ≠ s.id := fun y hy => by
        refine hs y ?_
        rw [Tree.nodes_eq]
        exact Node.mem_preorder_trans hy (hl.mem_preorder_of_mem h.mem)
      exact h.tests.decision_replace hq hfresh (hw.trans hv.symm)

/-- In `def m(&block) = if (block && ready?)` the read of `block` is reported; whether a block was passed or not, the
conditional goes by what it would go by before, here with nil for false. -/
theorem keeps_decisions_conjunction :
    let r := uniform .call
    let n : Node := ⟨6, .localRead, [.text "block"], .origin⟩
    let ready : Node := ⟨7, .call, [.empty, .text "ready?"], .origin⟩
    let c : Node := ⟨4, .group, [.node ⟨5, .conj, [.node n, .node ready], .origin⟩], .origin⟩
    let t := Tree.ofRoot (Node.definition 0 ⟨3, .cond, [.node c], .origin⟩) "m.rb"
    let s := Node.blockGiven 8
    let correction : Correction := ⟨.origin, "block_given?"⟩
    Coherent (n :: t.nodes) ∧ t.isOnlyTested n = true ∧
      (r.check t n Memo.empty).1.result = .ok (some ⟨"Ask block.", "m.rb:1:0", n, some correction⟩) ∧
      s.Spells r.preferred correction.replacement ∧ (∀ y ∈ t.nodes, y.id ≠ s.id) ∧
      ∃ q c, Controls q c n (t.ancestors n) ∧ ∀ own,
        (Node.replace n.id s q).decision (Node.replace n.id s c) (Node.value own s.id .no) =
          q.decision c (Node.value own n.id .null) := by
  intro r n ready c t s correction
  have hd : t.root.Distinct := by unfold Node.Distinct; decide
  have hn : n ∈ t.nodes := by
    rw [Tree.nodes_eq]
    refine Node.mem_definition (Node.mem_preorder_of_child (Node.mem_childNodes_of_slot (i := 0) rfl) ?_)
    refine Node.mem_preorder_of_child (Node.mem_childNodes_of_slot (i := 0) rfl) ?_
    exact Node.mem_preorder_of_mem_childNodes (Node.mem_childNodes_of_slot (i := 0) rfl)
  have hc : Coherent (n :: t.nodes) := (Tree.coherent_nodes hd).mono (List.cons_subset.2 ⟨hn, List.Subset.refl _⟩)
  have hv : (r.check t n Memo.empty).1.result = .ok (some ⟨"Ask block.", "m.rb:1:0", n, some correction⟩) := by cbv
  have hs : s.Spells r.preferred correction.replacement := .call rfl rfl
  have hfresh : ∀ y ∈ t.nodes, y.id ≠ s.id := Tree.id_ne_of_not_mem_ids (by decide)
  obtain ⟨-, -, hall⟩ := keeps_decisions t n hc
  obtain ⟨q, c, hq, -, -, hkeep⟩ := hall r Memo.empty _ correction s hv rfl rfl hs hfresh
  exact ⟨hc, isOnlyTested_of_check hv rfl, hv, hs, hfresh, q, c, hq, fun own => hkeep own false .null .no rfl rfl⟩

end Rule

end BlockPresence
