import BlockPresence.Proofs.Lint.Advice

/-!
# Suggested names

Where truthiness is preferred, a check suggests the name of a block parameter in place of a call or a probe. It is the
name that the method around the node gives its block, and no block around the node hides it. Yet the method of a node is
found by going outward, whichever slot of the definition the node stands in. Only from the body does the name refer to
the block parameter (`Rule.suggestion_refersTo_iff`); a receiver and the defaults of parameters are no part of it.
-/

namespace BlockPresence

open Node (Coherent)

namespace Node

/-- The node `n` stands in the slot `i` of `m`. -/
def InSlot (n m : Node) (i : Nat) : Prop := ∃ c, m.slot i = .node c ∧ n ∈ c.preorder

/-- A read of the local variable `x` in the place of `n` refers to the block parameter of the method that `m` defines:
`n` stands in the body, the block parameter is called `x`, and none of the nodes between, `inner`, is a block that hides the
name. -/
structure RefersTo (n m : Node) (inner : List Node) (x : String) : Prop where
  inBody : n.InSlot m m.bodySlot
  named : m.NamesBlock x
  visible : ∀ b ∈ inner, ¬ b.Hides n x

end Node

namespace Rule

variable {r : Rule} {t : Tree} {n : Node} {memo : Memo} {v : Violation} {c : Correction}

/-- A name that is suggested is the one that the method gives its block, and not found hidden. -/
theorem exists_asks_of_suggestion (hp : r.preferred = .truthiness) (h : (r.check t n memo).1.result = .ok (some v))
    (hv : v.correction = some c) : ∃ method, Method.enclosing? t n = some method ∧
      r.Asks n method (some c.replacement) ∧ t.isHidden n c.replacement = false := by
  obtain ⟨method, param?, a, message, hm, hask, ha, rfl⟩ := exists_advice_of_violation h
  have hc : c.replacement = a.replacement := by
    rw [violation] at hv
    split at hv
    · cases hv
      rfl
    · cases hv
  rcases adviceFor?_cases ha with ⟨e, text, -, -, -, rfl, htruth⟩ | ⟨p, text, -, -, hi, -⟩
  · obtain ⟨hparam, hhidden⟩ := htruth hp
    rw [hc]
    exact ⟨method, hm, hparam ▸ hask, hhidden⟩
  · exact absurd hp hi

/-- **A suggested name** is that of the block parameter of the method around the node, and no block between the two hides
it. The node stands somewhere in the definition; a read of the name in its place refers to the block parameter just if
it stands in the body. -/
theorem suggestion_refersTo_iff (hc : Coherent (n :: t.nodes)) (hp : r.preferred = .truthiness)
    (h : (r.check t n memo).1.result = .ok (some v)) (hv : v.correction = some c) :
    ∃ m inner, Method.enclosing? t n = some (.ofDefinition m) ∧ t.Innermost n m inner ∧
      m.NamesBlock c.replacement ∧ (∀ b ∈ inner, ¬ b.Hides n c.replacement) ∧ (∃ i, n.InSlot m i) ∧
      (n.RefersTo m inner c.replacement ↔ n.InSlot m m.bodySlot) := by
  obtain ⟨method, hm, hask, hhidden⟩ := exists_asks_of_suggestion hp h hv
  have hne : t.ancestors n ≠ [] := fun hnil => by
    rw [Method.enclosing?, hnil] at hm
    cases hm
  have hn : n ∈ t.nodes := Tree.mem_nodes_of_ancestors_ne_nil hc hne
  have hct : Coherent t.nodes := hc.mono fun _ hx => List.mem_cons_of_mem _ hx
  obtain ⟨m, inner, hinner, rfl, htake⟩ := Method.exists_innermost hct hn hm
  have hnamed : m.NamesBlock c.replacement := hask.namesBlock
  have hvisible : ∀ b ∈ inner, ¬ b.Hides n c.replacement := by
    rw [← htake]
    exact Node.not_hides_of_isHidden (t.nodes_eq ▸ hct) (Tree.line_ancestors hct hn) n.self_mem_preorder hhidden
  obtain ⟨outer, hline⟩ := hinner.1
  obtain ⟨d, hd, hnd⟩ := hline.exists_child
  obtain ⟨i, hi⟩ := Node.exists_slot_of_mem_childNodes hd
  exact ⟨m, inner, hm, hinner, hnamed, hvisible, ⟨i, d, hi, hnd⟩, fun hr => hr.inBody, fun hb => ⟨hb, hnamed, hvisible⟩⟩

/-- In `def m(&block) = block_given?` the call stands in the body. -/
theorem suggestion_refersTo_iff_body :
    let t := Tree.ofRoot (Node.definition 0 (Node.blockGiven 3)) "m.rb"
    let n := Node.blockGiven 3
    Coherent (n :: t.nodes) ∧ ∃ v c, ((uniform .truthiness).check t n Memo.empty).1.result = .ok (some v) ∧
      v.correction = some c ∧
      ∃ m inner, Method.enclosing? t n = some (.ofDefinition m) ∧ n.RefersTo m inner c.replacement := by
  intro t n
  have hd : t.root.Distinct := by unfold Node.Distinct; decide
  have hn : n ∈ t.nodes := by
    rw [Tree.nodes_eq]
    exact Node.mem_definition n.self_mem_preorder
  have hc : Coherent (n :: t.nodes) := (Tree.coherent_nodes hd).mono (List.cons_subset.2 ⟨hn, List.Subset.refl _⟩)
  have hcheck : ((uniform .truthiness).check t n Memo.empty).1.result =
      .ok (some ⟨"Ask block.", "m.rb:1:0", n, some ⟨.origin, "block"⟩⟩) := by cbv
  have hroot : Method.enclosing? t n = some (.ofDefinition t.root) :=
    (Method.enclosing?_eq_some_iff hd hn).2 ⟨_, _, Tree.innermost_definition _, rfl⟩
  obtain ⟨m, inner, hm, -, -, -, -, hiff⟩ := suggestion_refersTo_iff hc rfl hcheck rfl
  obtain rfl : m = t.root := congrArg Method.node (Option.some.inj (hm.symm.trans hroot))
  exact ⟨hc, _, _, hcheck, rfl, _, _, hm, hiff.2 ⟨n, rfl, n.self_mem_preorder⟩⟩

/-! ## Calls in the head of a definition -/

namespace HeadCalls

/-- The tree of `def (block_given?).m(a = block_given?, &block)`, `end`. -/
def tree : Tree :=
  let receiver : Node := ⟨1, .group, [.node (.blockGiven 2)], .origin⟩
  let optional : Node := ⟨4, .param .optional, [.text "a", .node (.blockGiven 5)], .origin⟩
  let block : Node := ⟨6, .param .block, [.text "block"], .origin⟩
  let params : Node := ⟨3, .args, [.node optional, .node block], .origin⟩
  .ofRoot ⟨0, .singletonMethod, [.node receiver, .text "m", .node params, .empty], .origin⟩ "m.rb"

/-- The name that is suggested at the node `n` of `tree` does not refer to the block parameter in its place. -/
def Misnamed (n : Node) : Prop :=
  n ∈ tree.nodes ∧ ∃ v c m, ((uniform .truthiness).check tree n Memo.empty).1.result = .ok (some v) ∧
    v.correction = some c ∧ Method.enclosing? tree n = some (.ofDefinition m) ∧ ∀ inner, ¬ n.RefersTo m inner c.replacement

theorem misnamed {n : Node} (hn : n ∈ tree.nodes)
    (hcheck : ((uniform .truthiness).check tree n Memo.empty).1.result =
      .ok (some ⟨"Ask block.", "m.rb:1:0", n, some ⟨.origin, "block"⟩⟩))
    (hm : Method.enclosing? tree n = some (.ofDefinition tree.root)) : Misnamed n := by
  refine ⟨hn, _, _, _, hcheck, rfl, hm, ?_⟩
  rintro inner ⟨⟨body, hbody, -⟩, -, -⟩
  cases hbody

end HeadCalls

/-- The name is suggested for the call in the receiver and for the one in the default of a parameter, and refers to the
block parameter in neither place. -/
theorem suggestion_out_of_scope :
    HeadCalls.Misnamed (Node.blockGiven 2) ∧ HeadCalls.Misnamed (Node.blockGiven 5) := by
  obtain ⟨a, b, c, d, e, hnodes⟩ : ∃ a b c d e : Node,
      HeadCalls.tree.root.preorder = [a, b, .blockGiven 2, c, d, .blockGiven 5, e] := ⟨_, _, _, _, _, rfl⟩
  constructor
  · exact HeadCalls.misnamed (by rw [Tree.nodes_eq, hnodes]; simp) (by cbv) (by cbv)
  · exact HeadCalls.misnamed (by rw [Tree.nodes_eq, hnodes]; simp) (by cbv) (by cbv)

end Rule

end BlockPresence
