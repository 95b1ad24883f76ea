import BlockPresence.Proofs.Idiom.Position
import BlockPresence.Proofs.Tree.Replace

/-!
# Shapes of idioms

The calls and the probes are told by the shape of a node alone (`Node.Shape`), the reads of a block parameter by the place
of a node too. The recogniser finds just these (`Occurrence.of?_eq_some_iff`). A change of a tree that keeps kinds and structure
keeps shapes (`Node.shape_map_iff`).
-/

namespace BlockPresence

namespace Node

/-- A call of the passed block, possibly in parentheses. -/
inductive Yields : Node → Prop
  | bare {n : Node} : n.kind = .yielding → Yields n
  | parenthesised {n m : Node} : n.kind = .group → n.slots = [.node m] → Yields m → Yields n

theorem soleYields_iff {slots : List (Slot Node)} :
    soleYields slots = true ↔ ∃ m, slots = [.node m] ∧ m.yields = true := by
  unfold soleYields
  split
  · simp
  · rename_i hno
    simp only [Bool.false_eq_true, false_iff]
    rintro ⟨m, rfl, -⟩
    exact hno m rfl

theorem yields_eq_true_iff {n : Node} :
    n.yields = true ↔ n.kind = .yielding ∨ n.kind = .group ∧ ∃ m, n.slots = [.node m] ∧ m.yields = true := by
  cases n
  simp [yields, soleYields_iff]

theorem yields_iff {n : Node} : n.yields = true ↔ n.Yields := by
  induction n using childInduction with
  | node n ih =>
    rw [yields_eq_true_iff]
    constructor
    · rintro (hk | ⟨hk, m, hs, hm⟩)
      · exact .bare hk
      · exact .parenthesised hk hs ((ih m (mem_childNodes_of_mem_slots (hs ▸ List.mem_cons_self))).1 hm)
    · intro h
      cases h with
      | bare hk => exact .inl hk
      | @parenthesised _ m hk hs hm =>
        exact .inr ⟨hk, m, hs, (ih m (mem_childNodes_of_mem_slots (hs ▸ List.mem_cons_self))).2 hm⟩

/-- The idiom that a node is by its shape alone: a call of `block_given?` without receiver and arguments, or the query
whether a call of the passed block is defined. -/
inductive Shape (n : Node) : Idiom → Prop
  | call : n.kind = .call → n.slots = [.empty, .text "block_given?"] → Shape n .call
  | probe {operand : Node} : n.kind = .definedQuery → n.slot 0 = .node operand → operand.Yields → Shape n .probe

/-! ### Nodes that are changed -/

section

variable {g : Node → Node} {n : Node} {e : Idiom}

/-- A change keeps what is a call of the passed block. Going down from a node, it has to keep kinds and structure until it
comes to nodes of which this is known. -/
theorem yields_map_iff {P : Node → Prop} (hP : ∀ x, P x → ((g x).Yields ↔ x.Yields) ∨ (g x).kind = x.kind ∧
    (x.kind = .group → (g x).slots = x.slots.map (Slot.map g)) ∧ ∀ c ∈ x.childNodes, P c) (hn : P n) :
    (g n).Yields ↔ n.Yields := by
  induction n using childInduction with
  | node n ih =>
    rcases hP n hn with hy | ⟨hk, hs, hc⟩
    · exact hy
    constructor
    · intro hy
      cases hy with
      | bare hb => exact .bare (hk ▸ hb)
      | parenthesised hg hm hy =>
        rw [hk] at hg
        obtain ⟨m, hm', rfl⟩ := Slot.map_map_eq_single.1 ((hs hg).symm.trans hm)
        have hmc := mem_childNodes_of_mem_slots (hm' ▸ List.mem_cons_self)
        exact .parenthesised hg hm' ((ih m hmc (hc m hmc)).1 hy)
    · intro hy
      cases hy with
      | bare hb => exact .bare (hk.trans hb)
      | @parenthesised _ m hg hm hy =>
        have hmc := mem_childNodes_of_mem_slots (hm ▸ List.mem_cons_self)
        refine .parenthesised (hk.trans hg) ?_ ((ih m hmc (hc m hmc)).2 hy)
        rw [hs hg]
        exact Slot.map_map_eq_single.2 ⟨m, hm, rfl⟩

/-- A change keeps a shape if it keeps kind and structure, and what is a call of the passed block in the first slot. -/
theorem shape_map_iff (hk : (g n).kind = n.kind)
    (hs : n.kind = .call ∨ n.kind = .definedQuery → (g n).slots = n.slots.map (Slot.map g))
    (hy : ∀ c, n.slot 0 = .node c → ((g c).Yields ↔ c.Yields)) : (g n).Shape e ↔ n.Shape e := by
  constructor
  · intro he
    cases he with
    | call hc hl =>
      rw [hk] at hc
      exact .call hc (Slot.map_map_eq_pair.1 ((hs (.inl hc)).symm.trans hl))
    | probe hd h0 hyield =>
      rw [hk] at hd
      rw [slot_eq_map (hs (.inr hd))] at h0
      obtain ⟨c, hc, rfl⟩ := Slot.map_eq_node.1 h0
      exact .probe hd hc ((hy c hc).1 hyield)
  · intro he
    cases he with
    | call hc hl => exact .call (hk.trans hc) ((hs (.inl hc)).trans (Slot.map_map_eq_pair.2 hl))
    | @probe c hd h0 hyield =>
      refine .probe (hk.trans hd) ?_ ((hy c h0).2 hyield)
      rw [slot_eq_map (hs (.inr hd)), h0]
      rfl

end

/-- A read of the local variable `p`, as the only use of its value a condition, where no block hides the name. -/
def TestsParam (n : Node) (t : Tree) (p : String) : Prop :=
  n.kind = .localRead ∧ n.slot 0 = .text p ∧ t.isOnlyTested n = true ∧ t.isHidden n p = false

end Node

namespace Occurrence

variable {t : Tree} {n : Node} {param? : Option String} {o : Occurrence}

theorem call?_eq_some_iff (hk : n.kind = .call) : call? n = some o ↔ ∃ e, n.Shape e ∧ o = ⟨n, e, none⟩ := by
  have hs : (n.kind = .call && n.slots.length == 2 && (n.slot 0).isEmpty && (n.slot 1).isText callName) = true ↔
      n.slots = [.empty, .text "block_given?"] := by
    simp only [hk, decide_true, Bool.true_and, Bool.and_eq_true, beq_iff_eq, Slot.isEmpty_iff, Slot.isText_iff]
    constructor
    · rintro ⟨⟨hl, h0⟩, h1⟩
      exact Node.slots_eq_pair hl h0 h1
    · intro h
      simp [Node.slot, h, callName]
  unfold call?
  constructor
  · intro h
    split at h
    · rename_i hc
      cases h
      exact ⟨.call, .call hk (hs.1 hc), rfl⟩
    · cases h
  · rintro ⟨e, he, rfl⟩
    cases he with
    | call _ hs' => rw [if_pos (hs.2 hs')]
    | probe hk' _ _ => rw [hk] at hk'; cases hk'

theorem probe?_eq_some_iff (hk : n.kind = .definedQuery) :
    probe? n = some o ↔ ∃ e, n.Shape e ∧ o = ⟨n, e, none⟩ := by
  have hs : (n.slot 0).node?.any Node.yields = true ↔ ∃ operand, n.slot 0 = .node operand ∧ operand.Yields := by
    simp [Option.any_eq_true, Node.yields_iff]
  simp only [probe?, hk, decide_true, Bool.true_and]
  constructor
  · intro h
    split at h
    · cases h
      obtain ⟨operand, h0, hy⟩ := hs.1 ‹_›
      exact ⟨.probe, .probe hk h0 hy, rfl⟩
    · cases h
  · rintro ⟨e, he, rfl⟩
    cases he with
    | call hk' _ => rw [hk] at hk'; cases hk'
    | probe _ h0 hy => rw [if_pos (hs.2 ⟨_, h0, hy⟩)]

theorem truthiness?_eq_some_iff :
    truthiness? t n param? = some o ↔ ∃ p, param? = some p ∧ n.TestsParam t p ∧ o = ⟨n, .truthiness, some p⟩ := by
  cases param? with
  | none => simp [truthiness?]
  | some p =>
    simp only [truthiness?, Node.TestsParam, Option.some.injEq, exists_eq_left']
    constructor
    · intro h
      split at h
      · rename_i hc
        cases h
        simp only [Bool.and_eq_true, decide_eq_true_eq, Slot.isText_iff, Bool.not_eq_true'] at hc
        exact ⟨⟨hc.1.1.1, hc.1.1.2, hc.1.2, hc.2⟩, rfl⟩
      · cases h
    · rintro ⟨⟨hk, h0, ht, hh⟩, rfl⟩
      simp [hk, h0, ht, hh, Slot.isText]

/-- **What is recognised**: a call or a probe by its shape, or a read of the usable block parameter as a condition. -/
theorem of?_eq_some_iff : of? t n param? = some o ↔
    (∃ e, n.Shape e ∧ o = ⟨n, e, none⟩) ∨
      ∃ p, param? = some p ∧ n.TestsParam t p ∧ o = ⟨n, .truthiness, some p⟩ := by
  have hshape : ∀ {e}, n.Shape e → n.kind = .call ∨ n.kind = .definedQuery := fun h => by
    cases h with
    | call hk _ => exact .inl hk
    | probe hk _ _ => exact .inr hk
  rw [of?]
  split
  case h_1 hk => simp [call?_eq_some_iff hk, Node.TestsParam, hk]
  case h_2 hk => simp [probe?_eq_some_iff hk, Node.TestsParam, hk]
  case h_3 hk =>
    have hno : ¬ ∃ e, n.Shape e ∧ o = ⟨n, e, none⟩ := by
      rintro ⟨e, he, -⟩
      rcases hshape he with h | h
      · rw [hk] at h; cases h
      · rw [hk] at h; cases h
    rw [truthiness?_eq_some_iff, or_iff_right hno]
  case h_4 h1 h2 h3 =>
    have hno : ∀ e, ¬ n.Shape e := fun e he => (hshape he).elim h1 h2
    have hlocal : ∀ p, ¬ n.TestsParam t p := fun p hp => h3 hp.1
    simp [hno, hlocal]

end Occurrence

end BlockPresence
