import BlockPresence.Method.Memo
import BlockPresence.Proofs.Tree.Ancestors

/-!
# The method around a node

`Tree.Innermost t n m inner` says that `m` is the definition next above `n`. The method that is found around a node is the
one that this definition gives (`Method.enclosing?_eq_some_iff`). Its block parameter can be used if it is named
(`Node.NamesBlock`) and the body does not write to it (`Node.BodyWrites`).
-/

namespace BlockPresence

open Node (Line Distinct Coherent)

/-- `m` is the innermost definition around `n`, and `inner` are the nodes between the two, from the parent of `n`
outward. -/
def Tree.Innermost (t : Tree) (n m : Node) (inner : List Node) : Prop :=
  (∃ outer, Line t.root n (inner ++ m :: outer)) ∧ m.kind.isDefinition = true ∧
    ∀ a ∈ inner, a.kind.isDefinition = false

namespace Node

/-- The slot of a definition that holds its parameters. -/
def paramsSlot (m : Node) : Nat := if m.kind = .singletonMethod then 2 else 1

/-- The slot of a definition that holds its body. -/
def bodySlot (m : Node) : Nat := if m.kind = .singletonMethod then 3 else 2

/-- The first block parameter in the parameter list of the definition `m` is called `p`. -/
def NamesBlock (m : Node) (p : String) : Prop :=
  ∃ params before q after, m.slot m.paramsSlot = .node params ∧ params.childNodes = before ++ q :: after ∧
    (∀ b ∈ before, b.kind ≠ .param .block) ∧ q.kind = .param .block ∧ q.slot 0 = .text p ∧ p ≠ ""

/-- Something in the body of the definition `m` writes to the local variable `p`. -/
def BodyWrites (m : Node) (p : String) : Prop :=
  ∃ body w, m.slot m.bodySlot = .node body ∧ w ∈ body.preorder ∧ w.kind = .localWrite ∧ w.slot 0 = .text p

/-- The block parameter of the definition `m` is called `p`, and the body does not write to it. -/
def UsableParam (m : Node) (p : String) : Prop := m.NamesBlock p ∧ ¬ m.BodyWrites p

theorem NamesBlock.ne_empty {m : Node} {p : String} (h : m.NamesBlock p) : p ≠ "" := by
  obtain ⟨_, _, _, _, _, _, _, _, _, hp⟩ := h
  exact hp

theorem UsableParam.ne_empty {m : Node} {p : String} (h : m.UsableParam p) : p ≠ "" := h.1.ne_empty

end Node

namespace Tree.Innermost

variable {t : Tree} {n m : Node} {inner : List Node}

theorem ancestors_eq (h : t.Innermost n m inner) (hd : t.root.Distinct) :
    ∃ outer, t.ancestors n = inner ++ m :: outer := by
  obtain ⟨⟨outer, hl⟩, -⟩ := h
  exact ⟨outer, ancestors_eq_of_line hd hl⟩

theorem takeWhile_ancestors (h : t.Innermost n m inner) (hd : t.root.Distinct) :
    (t.ancestors n).takeWhile (fun a => !a.kind.isDefinition) = inner := by
  obtain ⟨outer, he⟩ := h.ancestors_eq hd
  obtain ⟨-, hm, hi⟩ := h
  rw [he, List.takeWhile_append_of_pos fun a ha => by simp [hi a ha], List.takeWhile_cons_of_neg (by simp [hm]),
    List.append_nil]

theorem unique {m' : Node} {inner' : List Node} (h : t.Innermost n m inner) (h' : t.Innermost n m' inner')
    (hd : t.root.Distinct) : m = m' ∧ inner = inner' := by
  have hi : inner = inner' := by rw [← h.takeWhile_ancestors hd, h'.takeWhile_ancestors hd]
  obtain ⟨outer, he⟩ := h.ancestors_eq hd
  obtain ⟨outer', he'⟩ := h'.ancestors_eq hd
  rw [he, hi] at he'
  exact ⟨(List.cons.inj (List.append_cancel_left he')).1, hi⟩

end Tree.Innermost

namespace Method

/-- The body that comes with a method, or something in it, writes to the local variable `name`. -/
def Writes (method : Method) (name : String) : Prop :=
  ∃ body w, method.body = some body ∧ w ∈ body.preorder ∧ w.kind = .localWrite ∧ w.slot 0 = .text name

theorem assigns_iff {method : Method} {name : String} : method.assigns name = true ↔ method.Writes name := by
  rw [assigns, Writes]
  cases method.body with
  | none => simp
  | some body => simp [← Node.preorder_eq_cons]

instance (method : Method) (name : String) : Decidable (method.Writes name) := decidable_of_iff _ assigns_iff

variable {m : Node} {p : String}

theorem nameSlot_add_one (m : Node) : nameSlot m + 1 = m.paramsSlot := by
  unfold nameSlot Node.paramsSlot
  split <;> rfl

theorem nameSlot_add_two (m : Node) : nameSlot m + 2 = m.bodySlot := by
  unfold nameSlot Node.bodySlot
  split <;> rfl

theorem blockParamOf_eq_some_iff {ps : List Node} :
    blockParamOf ps = some p ↔ ∃ before q after, ps = before ++ q :: after ∧
      (∀ b ∈ before, b.kind ≠ .param .block) ∧ q.kind = .param .block ∧ q.slot 0 = .text p ∧ p ≠ "" := by
  constructor
  · intro h
    obtain ⟨q, hq, h⟩ := Option.bind_eq_some_iff.1 h
    obtain ⟨s, hs, h⟩ := Option.bind_eq_some_iff.1 h
    split at h
    · cases h
    · rename_i he
      cases h
      obtain ⟨hk, before, after, rfl, hb⟩ := List.find?_eq_some_iff_append.1 hq
      refine ⟨before, q, after, rfl, fun b hm => by simpa using hb b hm, by simpa using hk, ?_, by simpa using he⟩
      exact Slot.text?_eq_some_iff.1 hs
  · rintro ⟨before, q, after, rfl, hb, hk, hs, hp⟩
    have hq : (before ++ q :: after).find? (fun p => p.kind = .param .block) = some q :=
      List.find?_eq_some_iff_append.2 ⟨by simp [hk], before, after, rfl, fun b hm => by simp [hb b hm]⟩
    simp [blockParamOf, hq, hs, Slot.text?, hp]

theorem blockParam_ofDefinition : (ofDefinition m).blockParam = some p ↔ m.NamesBlock p := by
  simp only [ofDefinition, nameSlot_add_one, Node.NamesBlock]
  cases hs : m.slot m.paramsSlot with
  | node params => simp [Slot.node?, blockParamOf_eq_some_iff]
  | text s => simp [Slot.node?, blockParamOf_eq_some_iff]
  | empty => simp [Slot.node?, blockParamOf_eq_some_iff]

theorem assigns_ofDefinition : (ofDefinition m).assigns p = true ↔ m.BodyWrites p := by
  rw [assigns_iff]
  simp only [Writes, ofDefinition, nameSlot_add_two, Node.BodyWrites]
  cases m.slot m.bodySlot <;> simp [Slot.node?]

theorem usableParam?_ofDefinition : (ofDefinition m).usableParam? = some p ↔ m.UsableParam p := by
  rw [usableParam?, Option.filter_eq_some_iff, blockParam_ofDefinition, Node.UsableParam, ← assigns_ofDefinition]
  simp

section

variable {t : Tree} {n : Node} {method : Method}

/-- The method that is found around a node is given by the next definition on the line that the index holds. -/
theorem exists_innermost (hc : Coherent t.nodes) (hn : n ∈ t.nodes) (h : enclosing? t n = some method) :
    ∃ m inner, t.Innermost n m inner ∧ ofDefinition m = method ∧
      (t.ancestors n).takeWhile (fun a => !a.kind.isDefinition) = inner := by
  obtain ⟨m, hf, rfl⟩ := Option.map_eq_some_iff.1 h
  obtain ⟨hm, inner, outer, he, hi⟩ := List.find?_eq_some_iff_append.1 hf
  refine ⟨m, inner, ⟨⟨outer, he ▸ Tree.line_ancestors hc hn⟩, hm, fun a ha => by simpa using hi a ha⟩, rfl, ?_⟩
  rw [he, List.takeWhile_append_of_pos hi, List.takeWhile_cons_of_neg (by simp [hm]), List.append_nil]

/-- **The method around a node** is the one that the definition next above it gives. -/
theorem enclosing?_eq_some_iff (hd : t.root.Distinct) (hn : n ∈ t.nodes) :
    enclosing? t n = some method ↔ ∃ m inner, t.Innermost n m inner ∧ ofDefinition m = method := by
  constructor
  · intro h
    obtain ⟨m, inner, hm, he, -⟩ := exists_innermost (Tree.coherent_nodes hd) hn h
    exact ⟨m, inner, hm, he⟩
  · rintro ⟨m, inner, h, rfl⟩
    rw [enclosing?, Option.map_eq_some_iff]
    obtain ⟨outer, he⟩ := h.ancestors_eq hd
    refine ⟨m, ?_, rfl⟩
    rw [he]
    exact List.find?_eq_some_iff_append.2 ⟨h.2.1, inner, outer, rfl, fun a ha => by simp [h.2.2 a ha]⟩

end

end Method

end BlockPresence
