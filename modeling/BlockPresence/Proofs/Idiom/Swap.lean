import BlockPresence.Lint.Rule
import BlockPresence.Proofs.Idiom.Parallel
import BlockPresence.Proofs.Idiom.Shape

/-!
# Swapping one idiom for another

`s` swaps for `n` (`Node.Swaps`) if both are of kinds that a rule looks at and `s` has nothing but a call of the passed
block below it. What nodes outside `n` are, and whether they are tested, stays as it was (`Swaps.shape_replace`,
`Swaps.isOnlyTested_replace`). Names are another matter, as something below `n` may declare them or write to them, and is
gone afterwards: see `Swaps.declares_iff` and `Swaps.bodyWrites_iff`.
-/

namespace BlockPresence

namespace Node

/-- The node `s` is what the text `text` of the idiom `i` denotes. -/
inductive Spells (s : Node) : Idiom → String → Prop
  | call : s.kind = .call → s.slots = [.empty, .text "block_given?"] → Spells s .call "block_given?"
  | probe {operand : Node} : s.kind = .definedQuery → s.slots = [.node operand] → operand.kind = .yielding →
      operand.slots = [] → Spells s .probe "defined?(yield)"
  | name {p : String} : s.kind = .localRead → s.slots = [.text p] → Spells s .truthiness p

/-- `s` can take the place of `n`, both are of kinds that a rule looks at, and below `s` there are calls of the passed
block at most. -/
structure Swaps (root n s : Node) : Prop extends Replaces root n s where
  old : Rule.concerns n.kind = true
  new : Rule.concerns s.kind = true
  below_new : ∀ y ∈ s.descendants, y.kind = .yielding

/-- What a text denotes swaps for a node that a rule looks at. -/
theorem Replaces.swaps {root n s : Node} {i : Idiom} {text : String} (h : root.Replaces n s)
    (hn : Rule.concerns n.kind = true) (hs : s.Spells i text) : root.Swaps n s := by
  have hno : ∀ y ∈ s.descendants, s.childNodes = [] → y.kind = .yielding := fun y hy he => by
    rw [descendants_eq, he] at hy
    cases hy
  cases hs with
  | call hk hs => exact ⟨h, hn, by rw [hk]; rfl, fun y hy => hno y hy (by rw [childNodes, hs]; rfl)⟩
  | @probe operand hk hs ho hos =>
    refine ⟨h, hn, by rw [hk]; rfl, fun y hy => ?_⟩
    have hc : s.childNodes = [operand] := by rw [childNodes, hs]; rfl
    have hco : operand.childNodes = [] := by rw [childNodes, hos]; rfl
    rw [descendants_eq, hc, List.flatMap_singleton, preorder_eq, hco, List.flatMap_nil, List.mem_singleton] at hy
    rw [hy, ho]
  | name hk hs => exact ⟨h, hn, by rw [hk]; rfl, fun y hy => hno y hy (by rw [childNodes, hs]; rfl)⟩

theorem not_yields_of_concerns {n : Node} (h : Rule.concerns n.kind = true) : ¬ n.Yields := by
  intro hy
  cases hy with
  | bare hk => rw [hk] at h; cases h
  | parenthesised hk _ _ => rw [hk] at h; cases h

/-! ## Shapes -/

namespace Replaces

variable {root n s x p : Node}

theorem yields_replace (h : root.Replaces n s) (hsn : s.Yields ↔ n.Yields) (hp : Outside root n p ∨ p = n) :
    (replace n.id s p).Yields ↔ p.Yields := by
  refine yields_map_iff (P := fun x => Outside root n x ∨ x = n) (fun x hx => ?_) hp
  rcases hx with hx | rfl
  · exact .inr ⟨kind_replace (h.id_ne hx), fun _ => slots_replace (h.id_ne hx), fun _ hc => h.outside_or_eq hx hc⟩
  · rw [replace_of_eq rfl]
    exact .inl hsn

/-- **A node outside** is the idiom that it was, if both subtrees are calls of the passed block, or neither is. -/
theorem shape_replace (h : root.Replaces n s) (hsn : s.Yields ↔ n.Yields) (hx : Outside root n x) {e : Idiom} :
    (replace n.id s x).Shape e ↔ x.Shape e :=
  shape_map_iff (kind_replace (h.id_ne hx)) (fun _ => slots_replace (h.id_ne hx)) fun _ hc =>
    h.yields_replace hsn (h.outside_or_eq hx (mem_childNodes_of_slot hc))

end Replaces

namespace Swaps

variable {root n s x p b m : Node} {as : List Node} {name : String}

theorem yields_iff_new (h : root.Swaps n s) : s.Yields ↔ n.Yields :=
  iff_of_false (not_yields_of_concerns h.new) (not_yields_of_concerns h.old)

/-- **A node outside** is the idiom that it was. -/
theorem shape_replace (h : root.Swaps n s) (hx : Outside root n x) {e : Idiom} :
    (replace n.id s x).Shape e ↔ x.Shape e :=
  h.toReplaces.shape_replace h.yields_iff_new hx

/-! ## Conditions -/

/-- **A node outside** is tested as it was. -/
theorem isOnlyTested_replace (h : root.Swaps n s) (hl : Line root x as) (hx : Outside root n x) :
    (replace n.id s x).isOnlyTested (as.map (replace n.id s)) = x.isOnlyTested as :=
  (h.parallel_of_outside (fun _ hp => h.sameForm hp) hl hx).isOnlyTested_eq

theorem tested_replace (h : root.Swaps n s) (hx : Outside root n x) :
    Tested (replace n.id s root) (replace n.id s x) ↔ Tested root x := by
  obtain ⟨as, hl⟩ := exists_line hx.1
  have hl' := h.line hl hx
  constructor
  · intro ht
    refine tested_of_isOnlyTested h.distinct hl ?_
    rw [← h.isOnlyTested_replace hl hx]
    exact isOnlyTested_of_tested h.distinct_replace ht hl'
  · intro ht
    refine tested_of_isOnlyTested h.distinct_replace hl' ?_
    rw [h.isOnlyTested_replace hl hx]
    exact isOnlyTested_of_tested h.distinct ht hl

end Swaps

/-! ## Names -/

/-- In the parameter list of the block `b`, below the node `n`, a parameter `p` is declared. -/
def DeclaresBelow (b n : Node) (p : String) : Prop :=
  ∃ params, b.slot 1 = .node params ∧ n ∈ params.preorder ∧
    ∃ q ∈ n.descendants, q.kind.isParam = true ∧ q.slot 0 = .text p

/-- In the body of the definition `m`, below the node `n`, something writes to the local variable `p`. -/
def WritesBelow (m n : Node) (p : String) : Prop :=
  ∃ body, m.slot m.bodySlot = .node body ∧ n ∈ body.preorder ∧
    ∃ w ∈ n.descendants, w.kind = .localWrite ∧ w.slot 0 = .text p

theorem slot_paramsSlot_replace {i : Nat} {m s : Node} (h : m.id ≠ i) :
    (replace i s m).slot (replace i s m).paramsSlot = (m.slot m.paramsSlot).map (replace i s) := by
  rw [paramsSlot, kind_replace h, slot_replace h, paramsSlot]

theorem slot_bodySlot_replace {i : Nat} {m s : Node} (h : m.id ≠ i) :
    (replace i s m).slot (replace i s m).bodySlot = (m.slot m.bodySlot).map (replace i s) := by
  rw [bodySlot, kind_replace h, slot_replace h, bodySlot]

theorem not_isParam_of_concerns {k : Kind} (h : Rule.concerns k = true) : k.isParam = false := by
  cases k with
  | param _ => cases h
  | _ => rfl

namespace Swaps

variable {root n s x p b m : Node} {name : String}

/-- A node of a kind in `K` that carries a name is below `p` after the swap, or it was below `n`. -/
theorem exists_descendant_iff (h : root.Swaps n s) (name : String) (hp : Outside root n p ∨ p = n) {K : Kind → Prop}
    (hn : ¬ K n.kind) (hs : ∀ y ∈ s.preorder, ¬ K y.kind) :
    (∃ q ∈ p.descendants, K q.kind ∧ q.slot 0 = .text name) ↔
      (∃ q ∈ (replace n.id s p).descendants, K q.kind ∧ q.slot 0 = .text name) ∨
        n ∈ p.preorder ∧ ∃ q ∈ n.descendants, K q.kind ∧ q.slot 0 = .text name := by
  constructor
  · rintro ⟨q, hq, hk, h0⟩
    rcases h.outside_or_below hp (mem_descendants_iff.1 hq).1 with ho | ⟨hnp, hqn⟩
    · exact .inl ⟨replace n.id s q, (h.replace_mem_descendants_iff hp ho).2 hq, (h.named_replace_iff ho).2 ⟨hk, h0⟩⟩
    · refine .inr ⟨hnp, q, mem_descendants_iff.2 ⟨hqn, ?_⟩, hk, h0⟩
      rintro rfl
      exact hn hk
  · rintro (⟨q', hq', hk, h0⟩ | ⟨hnp, q, hq, hqk⟩)
    · rcases (h.mem_replace hp).1 (mem_descendants_iff.1 hq').1 with ⟨q, -, ho, rfl⟩ | ⟨-, hqs⟩
      · exact ⟨q, (h.replace_mem_descendants_iff hp ho).1 hq', (h.named_replace_iff ho).1 ⟨hk, h0⟩⟩
      · exact absurd hk (hs q' hqs)
    · exact ⟨q, mem_descendants_of_mem_preorder hnp hq, hqk⟩

theorem exists_mem_iff (h : root.Swaps n s) (name : String) (hp : Outside root n p ∨ p = n) {K : Kind → Prop}
    (hn : ¬ K n.kind) (hs : ∀ y ∈ s.preorder, ¬ K y.kind) :
    (∃ q ∈ p.preorder, K q.kind ∧ q.slot 0 = .text name) ↔
      (∃ q ∈ (replace n.id s p).preorder, K q.kind ∧ q.slot 0 = .text name) ∨
        n ∈ p.preorder ∧ ∃ q ∈ n.descendants, K q.kind ∧ q.slot 0 = .text name := by
  have hself : (K p.kind ∧ p.slot 0 = .text name) ↔
      (K (replace n.id s p).kind ∧ (replace n.id s p).slot 0 = .text name) := by
    rcases hp with ho | rfl
    · exact (h.named_replace_iff ho).symm
    · rw [replace_of_eq rfl]
      exact iff_of_false (fun hk => hn hk.1) fun hk => hs s s.self_mem_preorder hk.1
  rw [preorder_eq_cons p, preorder_eq_cons (replace n.id s p), List.exists_mem_cons_iff, List.exists_mem_cons_iff,
    hself, h.exists_descendant_iff name hp hn hs, or_assoc, ← preorder_eq_cons]

theorem kind_of_mem_new (h : root.Swaps n s) {y : Node} (hy : y ∈ s.preorder) :
    Rule.concerns y.kind = true ∨ y.kind = .yielding := by
  rw [preorder_eq_cons, List.mem_cons] at hy
  rcases hy with rfl | hy
  · exact .inl h.new
  · exact .inr (h.below_new y hy)

theorem not_isParam_new (h : root.Swaps n s) {y : Node} (hy : y ∈ s.preorder) : ¬ y.kind.isParam = true := by
  rcases h.kind_of_mem_new hy with hk | hk
  · simp [not_isParam_of_concerns hk]
  · simp [hk, Kind.isParam]

theorem ne_localWrite_new (h : root.Swaps n s) {y : Node} (hy : y ∈ s.preorder) : y.kind ≠ .localWrite := by
  intro he
  rcases h.kind_of_mem_new hy with hk | hk
  · rw [he] at hk; cases hk
  · rw [he] at hk; cases hk

/-- **What a block declares** it declares after the swap, or below `n`. -/
theorem declares_iff (h : root.Swaps n s) (hb : Outside root n b) :
    b.Declares name ↔ (replace n.id s b).Declares name ∨ b.DeclaresBelow n name := by
  have hn : ¬ n.kind.isParam = true := by simp [not_isParam_of_concerns h.old]
  have key : ∀ params, b.slot 1 = .node params → _ := fun params hs =>
    h.exists_descendant_iff name (h.outside_or_eq hb (mem_childNodes_of_slot hs)) (K := fun k => k.isParam = true) hn
      fun y hy => h.not_isParam_new hy
  unfold Declares DeclaresBelow
  rw [slot_replace (h.id_ne hb)]
  constructor
  · rintro ⟨params, q, hs, hq⟩
    rcases (key params hs).1 ⟨q, hq⟩ with ⟨q', hq'⟩ | hq
    · exact .inl ⟨_, q', Slot.map_eq_node.2 ⟨params, hs, rfl⟩, hq'⟩
    · exact .inr ⟨params, hs, hq⟩
  · rintro (⟨params', q', hs', hq'⟩ | ⟨params, hs, hq⟩)
    · obtain ⟨params, hs, rfl⟩ := Slot.map_eq_node.1 hs'
      obtain ⟨q, hq⟩ := (key params hs).2 (.inl ⟨q', hq'⟩)
      exact ⟨params, q, hs, hq⟩
    · obtain ⟨q, hq⟩ := (key params hs).2 (.inr hq)
      exact ⟨params, q, hs, hq⟩

/-- **What a block hides** from a node outside it hides after the swap, or it declares it below `n`. -/
theorem hides_iff (h : root.Swaps n s) (hb : Outside root n b) (hx : Outside root n x) :
    b.Hides x name ↔ (replace n.id s b).Hides (replace n.id s x) name ∨ b.Hides x name ∧ b.DeclaresBelow n name := by
  have hcall : (∀ call, b.slot 0 = .node call → x ∉ call.preorder) ↔
      ∀ call, (replace n.id s b).slot 0 = .node call → replace n.id s x ∉ call.preorder := by
    rw [slot_replace (h.id_ne hb)]
    constructor
    · intro hc call' hs hxc
      obtain ⟨call, h0, rfl⟩ := Slot.map_eq_node.1 hs
      exact hc call h0 ((h.replace_mem_iff (h.outside_or_eq hb (mem_childNodes_of_slot h0)) hx).1 hxc)
    · intro hc call h0 hxc
      refine hc _ (Slot.map_eq_node.2 ⟨call, h0, rfl⟩) ?_
      exact (h.replace_mem_iff (h.outside_or_eq hb (mem_childNodes_of_slot h0)) hx).2 hxc
  have hd : b.Declares name ↔ _ := h.declares_iff hb
  unfold Hides
  rw [kind_replace (h.id_ne hb), ← hcall]
  constructor
  · rintro ⟨hk, hc, hdecl⟩
    exact (hd.1 hdecl).imp (fun hd' => ⟨hk, hc, hd'⟩) fun hbelow => ⟨⟨hk, hc, hdecl⟩, hbelow⟩
  · rintro (⟨hk, hc, hd'⟩ | ⟨hh, -⟩)
    · exact ⟨hk, hc, hd.2 (.inl hd')⟩
    · exact hh

/-- **What a body writes to** it writes to after the swap, or below `n`. -/
theorem bodyWrites_iff (h : root.Swaps n s) (hm : Outside root n m) :
    m.BodyWrites name ↔ (replace n.id s m).BodyWrites name ∨ m.WritesBelow n name := by
  have hn : n.kind ≠ .localWrite := fun he => by
    have hk := h.old
    rw [he] at hk
    cases hk
  have key : ∀ body, m.slot m.bodySlot = .node body → _ := fun body hs =>
    h.exists_mem_iff name (h.outside_or_eq hm (mem_childNodes_of_slot hs)) (K := fun k => k = .localWrite) hn
      fun y hy => h.ne_localWrite_new hy
  unfold BodyWrites WritesBelow
  rw [slot_bodySlot_replace (h.id_ne hm)]
  constructor
  · rintro ⟨body, w, hs, hw⟩
    rcases (key body hs).1 ⟨w, hw⟩ with ⟨w', hw'⟩ | hw
    · exact .inl ⟨_, w', Slot.map_eq_node.2 ⟨body, hs, rfl⟩, hw'⟩
    · exact .inr ⟨body, hs, hw⟩
  · rintro (⟨body', w', hs', hw'⟩ | ⟨body, hs, hw⟩)
    · obtain ⟨body, hs, rfl⟩ := Slot.map_eq_node.1 hs'
      obtain ⟨w, hw⟩ := (key body hs).2 (.inl ⟨w', hw'⟩)
      exact ⟨body, w, hs, hw⟩
    · obtain ⟨w, hw⟩ := (key body hs).2 (.inr hw)
      exact ⟨body, w, hs, hw⟩

theorem ne_block_old (h : root.Swaps n s) : n.kind ≠ .param .block := fun he => by
  have hk := not_isParam_of_concerns h.old
  rw [he] at hk
  cases hk

theorem ne_block_new (h : root.Swaps n s) {y : Node} (hy : y ∈ s.preorder) : y.kind ≠ .param .block := fun he =>
  h.not_isParam_new hy (by rw [he]; rfl)

theorem kind_eq_block_iff (h : root.Swaps n s) (hp : Outside root n p ∨ p = n) :
    (replace n.id s p).kind = .param .block ↔ p.kind = .param .block := by
  rcases hp with hp | rfl
  · rw [kind_replace (h.id_ne hp)]
  · rw [replace_of_eq rfl]
    exact iff_of_false (h.ne_block_new s.self_mem_preorder) h.ne_block_old

theorem outside_of_block (h : root.Swaps n s) (hp : Outside root n p ∨ p = n) (hk : p.kind = .param .block) :
    Outside root n p := by
  refine hp.resolve_right ?_
  rintro rfl
  exact h.ne_block_old hk

theorem namesBlock_of_replace (h : root.Swaps n s) (hm : Outside root n m) (hb : (replace n.id s m).NamesBlock name) :
    m.NamesBlock name ∧ m.slot m.paramsSlot ≠ .node n := by
  obtain ⟨params', before', q', after', hs', hcs, hbefore, hk, h0, hp⟩ := hb
  rw [slot_paramsSlot_replace (h.id_ne hm)] at hs'
  obtain ⟨params, hs, rfl⟩ := Slot.map_eq_node.1 hs'
  rcases h.outside_or_eq hm (mem_childNodes_of_slot hs) with ho | rfl
  · rw [childNodes_replace (h.id_ne ho)] at hcs
    obtain ⟨before, rest, hl, rfl, hr⟩ := List.map_eq_append_iff.1 hcs
    obtain ⟨q, after, rfl, rfl, rfl⟩ := List.map_eq_cons_iff.1 hr
    have hc : ∀ c ∈ before ++ q :: after, Outside root n c ∨ c = n := fun c hc => h.outside_or_eq ho (hl ▸ hc)
    have hq := hc q (by simp)
    have hqk : q.kind = .param .block := (h.kind_eq_block_iff hq).1 hk
    rw [slot_replace (h.id_ne (h.outside_of_block hq hqk)), Slot.map_eq_text] at h0
    refine ⟨⟨params, before, q, after, hs, hl, fun b hb hbk => ?_, hqk, h0, hp⟩, fun he => ?_⟩
    · exact hbefore _ (List.mem_map_of_mem hb) ((h.kind_eq_block_iff (hc b (by simp [hb]))).2 hbk)
    · rw [hs] at he
      cases he
      exact ho.2 (self_mem_preorder _)
  · -- what took the place of the parameter list declares nothing
    rw [replace_of_eq rfl] at hcs
    have hq : q' ∈ s.childNodes := by rw [hcs]; simp
    exact absurd hk (h.ne_block_new (mem_preorder_of_mem_childNodes hq))

theorem namesBlock_replace (h : root.Swaps n s) (hm : Outside root n m) (hb : m.NamesBlock name)
    (hne : m.slot m.paramsSlot ≠ .node n) : (replace n.id s m).NamesBlock name := by
  obtain ⟨params, before, q, after, hs, hcs, hbefore, hk, h0, hp⟩ := hb
  have ho : Outside root n params := by
    refine (h.outside_or_eq hm (mem_childNodes_of_slot hs)).resolve_right ?_
    rintro rfl
    exact hne hs
  have hc : ∀ c ∈ before ++ q :: after, Outside root n c ∨ c = n := fun c hc => h.outside_or_eq ho (hcs ▸ hc)
  have hqo := h.outside_of_block (hc q (by simp)) hk
  refine ⟨replace n.id s params, before.map (replace n.id s), replace n.id s q, after.map (replace n.id s), ?_, ?_,
    fun b' hb' hbk => ?_, (kind_replace (h.id_ne hqo)).trans hk, ?_, hp⟩
  · rw [slot_paramsSlot_replace (h.id_ne hm), hs]
    rfl
  · rw [childNodes_replace (h.id_ne ho), hcs, List.map_append, List.map_cons]
  · obtain ⟨b, hb, rfl⟩ := List.mem_map.1 hb'
    exact hbefore b hb ((h.kind_eq_block_iff (hc b (by simp [hb]))).1 hbk)
  · rw [slot_replace (h.id_ne hqo), h0]
    rfl

/-- **The block parameter** keeps its name unless the parameter list is what is swapped. -/
theorem namesBlock_iff (h : root.Swaps n s) (hm : Outside root n m) :
    (replace n.id s m).NamesBlock name ↔ m.NamesBlock name ∧ m.slot m.paramsSlot ≠ .node n :=
  ⟨h.namesBlock_of_replace hm, fun ⟨hb, hne⟩ => h.namesBlock_replace hm hb hne⟩

end Swaps

end Node

end BlockPresence
