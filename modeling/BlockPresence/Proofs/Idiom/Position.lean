import BlockPresence.Idiom.Occurrence
import BlockPresence.Proofs.Method.Innermost

/-!
# Positions

What the place of a node says about it, said of the tree and not of a line of ancestors.

* `Tested`: the value of a node decides a condition and is used for nothing else (`Tree.isOnlyTested_iff`);
* `Node.Hides`: a block that does not stand around its own call declares a name (`Tree.Innermost.isHidden_iff`).
-/

namespace BlockPresence

open Node (Line Distinct Coherent)

/-! ## Conditions -/

/-- The value of a node is only ever used as a condition: it is the condition of a conditional or a loop, or it is
negated, or it is an operand of something that is itself only used so. -/
inductive Tested (root : Node) : Node → Prop
  | condition {q n : Node} : q ∈ root.preorder → (q.kind = .cond ∨ ∃ l, q.kind = .loop l) → q.slot 0 = .node n →
      Tested root n
  | negated {q n : Node} : q ∈ root.preorder → q.kind = .call → q.slots = [.node n, .text "!"] → Tested root n
  | operand {q n : Node} : q.kind = .conj ∨ q.kind = .disj → n ∈ q.childNodes → Tested root q → Tested root n
  | parenthesised {q n : Node} : q.kind = .group → q.slots = [.node n] → Tested root q → Tested root n

theorem Tested.mem_preorder {root n : Node} (h : Tested root n) : n ∈ root.preorder := by
  induction h with
  | condition hq _ hs =>
    exact Node.mem_preorder_trans (Node.mem_preorder_of_mem_childNodes (Node.mem_childNodes_of_slot hs)) hq
  | negated hq _ hs =>
    have hc := Node.mem_childNodes_of_mem_slots (hs ▸ List.mem_cons_self)
    exact Node.mem_preorder_trans (Node.mem_preorder_of_mem_childNodes hc) hq
  | operand _ hc _ ih => exact Node.mem_preorder_trans (Node.mem_preorder_of_mem_childNodes hc) ih
  | parenthesised _ hs _ ih =>
    have hc := Node.mem_childNodes_of_mem_slots (hs ▸ List.mem_cons_self)
    exact Node.mem_preorder_trans (Node.mem_preorder_of_mem_childNodes hc) ih

namespace Node

variable {root n p q : Node}

theorem eq_of_holds (hc : Coherent root.preorder) (hp : p ∈ root.preorder) (hn : n ∈ root.preorder) {i : Nat}
    (h : (p.slot i).holds n = true) : p.slot i = .node n := by
  obtain ⟨m, hs, he⟩ := Slot.holds_iff.1 h
  have hm := mem_preorder_trans (mem_preorder_of_mem_childNodes (mem_childNodes_of_slot hs)) hp
  rw [hs, hc m hm n hn he]

theorem holds_self (h : q.slot 0 = .node n) : (q.slot 0).holds n = true := Slot.holds_iff.2 ⟨n, h, rfl⟩

/-- The slots of a call with two slots, of which both are known. -/
theorem slots_eq_pair {s s' : Slot Node} (hl : q.slots.length = 2) (h₀ : q.slot 0 = s) (h₁ : q.slot 1 = s') :
    q.slots = [s, s'] := by
  obtain ⟨a, b, hab⟩ := List.length_eq_two.1 hl
  simp only [slot, hab, List.getD_cons_zero, List.getD_cons_succ] at h₀ h₁
  rw [hab, h₀, h₁]

theorem slots_eq_single (hl : q.slots.length = 1) (hc : n ∈ q.childNodes) : q.slots = [.node n] := by
  obtain ⟨s, hs⟩ := List.length_eq_one_iff.1 hl
  obtain ⟨s', hm, he⟩ := List.mem_filterMap.1 hc
  rw [hs, List.mem_singleton] at hm
  subst hm
  rw [hs, Slot.node?_eq_some_iff.1 he]

/-- The value of `c` decides `q`: it is the condition of a conditional or a loop, or what is negated. -/
inductive Tests (q c : Node) : Prop
  | condition : (q.kind = .cond ∨ ∃ l, q.kind = .loop l) → q.slot 0 = .node c → Tests q c
  | negated : q.kind = .call → q.slots = [.node c, .text "!"] → Tests q c

/-- Whether the value of `q` is true hangs on whether those of its operands are, and on nothing else. -/
def PassesOn (q : Node) : Prop := q.kind = .conj ∨ q.kind = .disj ∨ q.kind = .group ∧ q.slots.length = 1

/-- A node is tested by its parent, or else by what tests its parent. -/
theorem isOnlyTested_cons_iff {as : List Node} (hc : Coherent root.preorder) (hp : p ∈ root.preorder)
    (hn : n ∈ p.childNodes) :
    n.isOnlyTested (p :: as) = true ↔ p.Tests n ∨ p.PassesOn ∧ p.isOnlyTested as = true := by
  have hnr : n ∈ root.preorder := mem_preorder_trans (mem_preorder_of_mem_childNodes hn) hp
  rw [isOnlyTested]
  constructor
  · intro h
    split at h
    case h_1 hk => exact .inl (.condition (.inl hk) (eq_of_holds hc hp hnr h))
    case h_2 l hk => exact .inl (.condition (.inr ⟨l, hk⟩) (eq_of_holds hc hp hnr h))
    case h_3 hk =>
      simp only [Bool.and_eq_true, beq_iff_eq, Slot.isText_iff] at h
      obtain ⟨⟨h2, h0⟩, h1⟩ := h
      exact .inl (.negated hk (slots_eq_pair h2 (eq_of_holds hc hp hnr h0) h1))
    case h_4 hk => exact .inr ⟨.inl hk, h⟩
    case h_5 hk => exact .inr ⟨.inr (.inl hk), h⟩
    case h_6 hk =>
      simp only [Bool.and_eq_true, beq_iff_eq] at h
      exact .inr ⟨.inr (.inr ⟨hk, h.1⟩), h.2⟩
    case h_7 => cases h
  · rintro (ht | ⟨hp, ho⟩)
    · cases ht with
      | condition hk hs =>
        rcases hk with hk | ⟨l, hk⟩
        · rw [hk]; exact holds_self hs
        · rw [hk]; exact holds_self hs
      | negated hk hs => simp [hk, slot, hs, Slot.holds, Slot.isText]
    · rcases hp with hk | hk | ⟨hk, hl⟩
      · rw [hk]; exact ho
      · rw [hk]; exact ho
      · simp [hk, hl, ho]

theorem tested_of_isOnlyTested {as : List Node} (hd : root.Distinct) (hl : Line root n as)
    (h : n.isOnlyTested as = true) : Tested root n := by
  induction hl with
  | root => cases h
  | @child p n as hl hc ih =>
    have hp := hl.mem_preorder
    rcases (isOnlyTested_cons_iff hd.coherent hp hc).1 h with ht | ⟨hk | hk | ⟨hk, hlen⟩, ho⟩
    · cases ht with
      | condition hk hs => exact .condition hp hk hs
      | negated hk hs => exact .negated hp hk hs
    · exact .operand (.inl hk) hc (ih ho)
    · exact .operand (.inr hk) hc (ih ho)
    · exact .parenthesised hk (slots_eq_single hlen hc) (ih ho)

theorem isOnlyTested_of_tested (hd : root.Distinct) (h : Tested root n) :
    ∀ {as : List Node}, Line root n as → n.isOnlyTested as = true := by
  -- the line of `n` goes on from the node that it is tested through
  have hstep : ∀ {q n : Node} {as : List Node}, q ∈ root.preorder → n ∈ q.childNodes → Line root n as →
      (∀ bs, Line root q bs → q.Tests n ∨ q.PassesOn ∧ q.isOnlyTested bs = true) → n.isOnlyTested as = true := by
    intro q n as hq hn hl h
    obtain ⟨bs, hb⟩ := exists_line hq
    rw [hl.unique hd (.child hb hn)]
    exact (isOnlyTested_cons_iff hd.coherent hq hn).2 (h bs hb)
  induction h with
  | condition hq hk hs =>
    intro as hl
    exact hstep hq (mem_childNodes_of_slot hs) hl fun _ _ => .inl (.condition hk hs)
  | negated hq hk hs =>
    intro as hl
    exact hstep hq (mem_childNodes_of_mem_slots (hs ▸ List.mem_cons_self)) hl fun _ _ => .inl (.negated hk hs)
  | operand hk hn hq ih =>
    intro as hl
    exact hstep hq.mem_preorder hn hl fun _ hb => .inr ⟨hk.imp_right .inl, ih hb⟩
  | parenthesised hk hs hq ih =>
    intro as hl
    exact hstep hq.mem_preorder (mem_childNodes_of_mem_slots (hs ▸ List.mem_cons_self)) hl fun _ hb =>
      .inr ⟨.inr (.inr ⟨hk, by rw [hs]; rfl⟩), ih hb⟩

/-! ## Hidden names -/

/-- Somewhere in the parameter list of the block `b` a parameter `p` is declared. -/
def Declares (b : Node) (p : String) : Prop :=
  ∃ params q, b.slot 1 = .node params ∧ q ∈ params.descendants ∧ q.kind.isParam = true ∧ q.slot 0 = .text p

/-- The block `b` hides the name `p` from `n`: it declares a parameter of that name, and `n` is not in the call that the
block is passed to. -/
def Hides (b n : Node) (p : String) : Prop :=
  b.kind = .block ∧ (∀ call, b.slot 0 = .node call → n ∉ call.preorder) ∧ b.Declares p

theorem declares_iff {b : Node} {s : String} : b.declares s = true ↔ b.Declares s := by
  unfold declares Declares
  cases hs : b.slot 1 with
  | node params => simp [Slot.node?]
  | text _ => simp [Slot.node?]
  | empty => simp [Slot.node?]

/-- The child of `q` that has `x` below it is the one in the first slot just if that slot has `x` below it. -/
theorem holds_iff_below {x : Node} (hd : root.Distinct) (hq : q ∈ root.preorder) (hn : n ∈ q.childNodes)
    (hx : x ∈ n.preorder) : (q.slot 0).holds n = true ↔ ∃ call, q.slot 0 = .node call ∧ x ∈ call.preorder := by
  constructor
  · intro h
    exact ⟨n, eq_of_holds hd.coherent hq (mem_preorder_trans (mem_preorder_of_mem_childNodes hn) hq) h, hx⟩
  · rintro ⟨call, hs, hc⟩
    rw [(hd.of_mem hq).child_unique hn (mem_childNodes_of_slot hs) hx hc rfl]
    exact holds_self hs

theorem isHidden_iff (hd : root.Distinct) {x : Node} {s : String} : ∀ {n : Node} {as : List Node}, Line root n as →
    x ∈ n.preorder →
    (n.isHidden s as = true ↔ ∃ b ∈ as.takeWhile (fun a => !a.kind.isDefinition), b.Hides x s)
  | _, [], _, _ => by simp [isHidden]
  | n, a :: as, .child hl hc, hx => by
    have ih := isHidden_iff hd hl (mem_preorder_of_child hc hx) (s := s)
    rw [isHidden]
    by_cases ha : a.kind.isDefinition = true
    · simp [ha]
    · have hh : (a.kind = .block && !(a.slot 0).holds n && a.declares s) = true ↔ a.Hides x s := by
        simp only [Bool.and_eq_true, decide_eq_true_eq, Bool.not_eq_true', declares_iff, Hides, and_assoc,
          ← Bool.not_eq_true, holds_iff_below hd hl.mem_preorder hc hx]
        simp
      rw [Bool.not_eq_true] at ha
      rw [List.takeWhile_cons_of_pos (by simp [ha]), List.exists_mem_cons_iff, ← ih, ← hh]
      by_cases hb : (a.kind = .block && !(a.slot 0).holds n && a.declares s) = true
      · simp [ha, hb]
      · simp [ha, hb]

/-- What is not found hidden is not hidden, be it that nodes occur twice. -/
theorem not_hides_of_isHidden (hcoh : Coherent root.preorder) {x : Node} {s : String} : ∀ {n : Node} {as : List Node},
    Line root n as → x ∈ n.preorder → n.isHidden s as = false →
    ∀ b ∈ as.takeWhile (fun a => !a.kind.isDefinition), ¬ b.Hides x s
  | _, [], _, _, _, b, hb => nomatch hb
  | n, a :: as, .child hl hc, hx, h, b, hb => by
    rw [isHidden] at h
    by_cases ha : a.kind.isDefinition = true
    · simp [ha] at hb
    rw [if_neg ha] at h
    split at h
    · cases h
    · rename_i hno
      rw [Bool.not_eq_true] at ha
      rw [List.takeWhile_cons_of_pos (by simp [ha])] at hb
      rcases List.mem_cons.1 hb with rfl | hb
      · rintro ⟨hk, hcall, hdecl⟩
        refine hno ?_
        have hholds : (b.slot 0).holds n = false := by
          rw [Bool.eq_false_iff]
          intro hh
          have hn := mem_preorder_trans (mem_preorder_of_mem_childNodes hc) hl.mem_preorder
          exact hcall n (eq_of_holds hcoh hl.mem_preorder hn hh) hx
        simp [hk, hholds, declares_iff.2 hdecl]
      · exact not_hides_of_isHidden hcoh hl (mem_preorder_of_child hc hx) h b hb

end Node

theorem Tree.isOnlyTested_iff {t : Tree} {n : Node} (hd : t.root.Distinct) (hn : n ∈ t.nodes) :
    t.isOnlyTested n = true ↔ Tested t.root n :=
  ⟨Node.tested_of_isOnlyTested hd (line_ancestors (coherent_nodes hd) hn),
    fun h => Node.isOnlyTested_of_tested hd h (line_ancestors (coherent_nodes hd) hn)⟩

/-- A name is hidden from a node just if a block between the node and its method hides it. -/
theorem Tree.Innermost.isHidden_iff {t : Tree} {n m : Node} {inner : List Node} {p : String} (hd : t.root.Distinct)
    (h : t.Innermost n m inner) : t.isHidden n p = true ↔ ∃ b ∈ inner, b.Hides n p := by
  obtain ⟨outer, hl⟩ := h.1
  rw [isHidden, Node.isHidden_iff hd (ancestors_eq_of_line hd hl ▸ hl) n.self_mem_preorder, h.takeWhile_ancestors hd]

end BlockPresence
