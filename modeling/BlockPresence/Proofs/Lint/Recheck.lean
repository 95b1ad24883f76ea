import BlockPresence.Proofs.Idiom.Shadowing
import BlockPresence.Proofs.Idiom.Swap

/-!
# Checking again after a correction

A correction puts another idiom in the place of the node that was reported. Of what a check of some other node reads, this
can change one thing only, whether the block parameter of its method can be asked (`Tree.Offers`), and this in three ways
(`Node.Swaps.offers_iff`). The reported node was the parameter list. Or it spoiled the parameter (`Tree.Spoils`), either
by a write to it below the reported node, which the search for writes counts although it is never evaluated there, or by a
stray parameter there (`Node.StraysBelow`), which the search for hidden names takes for one of the block around it. What
spoils a parameter goes with the code that the correction throws away.

So the node that a correction wrote is not reported, and the other nodes are reported as before but for these three cases
(`Rule.check_replace`), of which the last two do occur (`Rule.check_replace_frees_param`).
-/

namespace BlockPresence

open Node (Line Outside Replaces Swaps replace)

/-! ## The method around a node -/

namespace Tree.Innermost

variable {t : Tree} {n s x m : Node} {inner : List Node}

theorem outside (hm : t.Innermost x m inner) (hx : Outside t.root n x) :
    Outside t.root n m ∧ ∀ a ∈ inner, Outside t.root n a := by
  obtain ⟨⟨outer, hl⟩, -⟩ := hm
  have ho : ∀ a ∈ inner ++ m :: outer, Outside t.root n a := fun a ha => Replaces.outside_of_mem_line hl hx ha
  exact ⟨ho m (by simp), fun a ha => ho a (by simp [ha])⟩

/-- The method around a node outside stays around it. -/
theorem replace (h : t.root.Replaces n s) (hx : Outside t.root n x) (hm : t.Innermost x m inner) :
    (t.replace n s).Innermost (Node.replace n.id s x) (Node.replace n.id s m) (inner.map (Node.replace n.id s)) := by
  obtain ⟨hmo, hio⟩ := hm.outside hx
  obtain ⟨⟨outer, hl⟩, hd, hi⟩ := hm
  refine ⟨⟨outer.map (Node.replace n.id s), ?_⟩, ?_, fun a' ha' => ?_⟩
  · have hl' := h.line hl hx
    rw [List.map_append, List.map_cons] at hl'
    exact hl'
  · rwa [Node.kind_replace (h.id_ne hmo)]
  · obtain ⟨a, ha, rfl⟩ := List.mem_map.1 ha'
    rw [Node.kind_replace (h.id_ne (hio a ha))]
    exact hi a ha

/-- The method around a node outside was around it before. -/
theorem of_replace {m' : Node} {inner' : List Node} (h : t.root.Replaces n s) (hx : Outside t.root n x)
    (hm : (t.replace n s).Innermost (Node.replace n.id s x) m' inner') : ∃ m inner, t.Innermost x m inner ∧
      Node.replace n.id s m = m' ∧ inner.map (Node.replace n.id s) = inner' := by
  obtain ⟨⟨outer', hl'⟩, hd, hi⟩ := hm
  obtain ⟨as, hl⟩ := Node.exists_line hx.1
  obtain ⟨inner, rest, rfl, rfl, hr⟩ := List.map_eq_append_iff.1 ((h.line hl hx).unique h.distinct_replace hl')
  obtain ⟨m, outer, rfl, rfl, rfl⟩ := List.map_eq_cons_iff.1 hr
  have ho : ∀ a ∈ inner ++ m :: outer, Outside t.root n a := fun a ha => Replaces.outside_of_mem_line hl hx ha
  refine ⟨m, inner, ⟨⟨outer, hl⟩, ?_, fun a ha => ?_⟩, rfl, rfl⟩
  · rwa [Node.kind_replace (h.id_ne (ho m (by simp)))] at hd
  · have ha' := hi _ (List.mem_map_of_mem ha)
    rwa [Node.kind_replace (h.id_ne (ho a (by simp [ha])))] at ha'

end Tree.Innermost

/-! ## The block parameter that can be asked -/

namespace Tree

variable {t : Tree} {n s x m : Node} {inner : List Node} {p : String}

/-- The block parameter `p` of the method around `x` can be asked at `x`: it can be used, and no block hides it. -/
def Offers (t : Tree) (x : Node) (p : String) : Prop :=
  ∃ m inner, t.Innermost x m inner ∧ m.UsableParam p ∧ ∀ b ∈ inner, ¬ b.Hides x p

/-- `n` is the parameter list of the method around `x`. -/
def ListsParams (t : Tree) (n x : Node) : Prop := ∃ m inner, t.Innermost x m inner ∧ m.slot m.paramsSlot = .node n

/-- `n` spoils the block parameter `p` for `x`: below `n` the body of the method around `x` writes to `p`, or a parameter
`p` strays into the list of a block that hides `p` from `x`, or `n` is this list. -/
def Spoils (t : Tree) (n x : Node) (p : String) : Prop :=
  ∃ m inner, t.Innermost x m inner ∧
    (m.WritesBelow n p ∨ ∃ b ∈ inner, b.Hides x p ∧ (b.StraysBelow n p ∨ b.slot 1 = .node n))

theorem exists_innermost_iff (hd : t.root.Distinct) (hm : t.Innermost x m inner) {P : Node → List Node → Prop} :
    (∃ m inner, t.Innermost x m inner ∧ P m inner) ↔ P m inner := by
  constructor
  · rintro ⟨m', inner', hm', h⟩
    obtain ⟨rfl, rfl⟩ := hm.unique hm' hd
    exact h
  · exact fun h => ⟨m, inner, hm, h⟩

end Tree

namespace Node

variable {b n : Node} {p : String}

theorem not_holdsParams_of_concerns {k : Kind} (h : Rule.concerns k = true) : k.holdsParams = false := by
  cases k with
  | call => rfl
  | definedQuery => rfl
  | localRead => rfl
  | _ => cases h

/-- What is declared below a node that is neither a parameter nor a group strays, but where the node is the parameter list
itself. -/
theorem declaresBelow_iff (hn : n.kind.holdsParams = false) :
    b.DeclaresBelow n p ↔ b.StraysBelow n p ∨ b.slot 1 = .node n ∧ b.Declares p := by
  constructor
  · rintro ⟨params, hs, hnp, q, hq, hk, h0⟩
    by_cases he : n = params
    · subst he
      exact .inr ⟨hs, n, q, hs, hq, hk, h0⟩
    · exact .inl ⟨params, q, hs, mem_descendants_iff.2 ⟨hnp, he⟩, hn, hq, hk, h0⟩
  · rintro (⟨params, q, hs, hnp, -, hq, hk, h0⟩ | ⟨hs, params, q, hs', hq, hk, h0⟩)
    · exact ⟨params, hs, (mem_descendants_iff.1 hnp).1, q, hq, hk, h0⟩
    · obtain rfl : params = n := Slot.node.inj (hs'.symm.trans hs)
      exact ⟨params, hs, params.self_mem_preorder, q, hq, hk, h0⟩

end Node

namespace Node.Swaps

variable {t : Tree} {n s x m : Node} {inner : List Node} {p : String}

theorem usableParam_iff (h : t.root.Swaps n s) (hm : Outside t.root n m) :
    m.UsableParam p ∧ m.slot m.paramsSlot ≠ .node n ↔
      (replace n.id s m).UsableParam p ∧ ¬ m.WritesBelow n p := by
  rw [UsableParam, UsableParam, h.namesBlock_iff hm, h.bodyWrites_iff hm, not_or]
  constructor
  · rintro ⟨⟨hn, hw, hb⟩, hp⟩
    exact ⟨⟨⟨hn, hp⟩, hw⟩, hb⟩
  · rintro ⟨⟨⟨hn, hp⟩, hw⟩, hb⟩
    exact ⟨⟨hn, hw, hb⟩, hp⟩

/-- **What a block hides** from a node outside it hides after the swap, or by a stray parameter below `n`, or by a list that
is `n`. -/
theorem hides_iff_strays {b : Node} (h : t.root.Swaps n s) (hb : Outside t.root n b) (hx : Outside t.root n x) :
    b.Hides x p ↔ (replace n.id s b).Hides (replace n.id s x) p ∨
      b.Hides x p ∧ (b.StraysBelow n p ∨ b.slot 1 = .node n) := by
  have hbelow := declaresBelow_iff (b := b) (p := p) (not_holdsParams_of_concerns h.old)
  constructor
  · intro hh
    rcases (h.hides_iff hb hx).1 hh with hh' | ⟨-, hd⟩
    · exact .inl hh'
    · exact .inr ⟨hh, (hbelow.1 hd).imp_right fun hs => hs.1⟩
  · rintro (hh' | ⟨hh, -⟩)
    · exact (h.hides_iff hb hx).2 (.inl hh')
    · exact hh

theorem not_hides_iff (h : t.root.Swaps n s) (hx : Outside t.root n x) (hi : ∀ b ∈ inner, Outside t.root n b) :
    (∀ b ∈ inner, ¬ b.Hides x p) ↔ (∀ b' ∈ inner.map (replace n.id s), ¬ b'.Hides (replace n.id s x) p) ∧
      ¬ ∃ b ∈ inner, b.Hides x p ∧ (b.StraysBelow n p ∨ b.slot 1 = .node n) := by
  constructor
  · intro hh
    refine ⟨fun b' hb' => ?_, fun ⟨b, hb, hbx, _⟩ => hh b hb hbx⟩
    obtain ⟨b, hb, rfl⟩ := List.mem_map.1 hb'
    exact fun hbx => hh b hb ((h.hides_iff (hi b hb) hx).2 (.inl hbx))
  · rintro ⟨hh, hb⟩ b hbi hbx
    rcases (h.hides_iff_strays (hi b hbi) hx).1 hbx with hbx' | hbelow
    · exact hh _ (List.mem_map_of_mem hbi) hbx'
    · exact hb ⟨b, hbi, hbelow⟩

/-- **When a block parameter can be asked** before and after: the swap takes it away where it swaps the parameter list,
and frees it where all that spoils it is below the node that is swapped. -/
theorem offers_iff (h : t.root.Swaps n s) (hx : Outside t.root n x) :
    t.Offers x p ∧ ¬ t.ListsParams n x ↔
      (t.replace n s).Offers (replace n.id s x) p ∧ ¬ t.Spoils n x p := by
  by_cases hm : ∃ m inner, t.Innermost x m inner
  · obtain ⟨m, inner, hm⟩ := hm
    obtain ⟨hmo, hio⟩ := hm.outside hx
    have hm' := hm.replace h.toReplaces hx
    rw [Tree.Offers, Tree.exists_innermost_iff h.distinct hm, Tree.ListsParams, Tree.exists_innermost_iff h.distinct hm,
      Tree.Offers, Tree.exists_innermost_iff h.distinct_replace hm', Tree.Spoils,
      Tree.exists_innermost_iff h.distinct hm, h.not_hides_iff hx hio, not_or]
    have hu := h.usableParam_iff hmo (p := p)
    constructor
    · rintro ⟨⟨hp, hh, hb⟩, hl⟩
      obtain ⟨hp', hw⟩ := hu.1 ⟨hp, hl⟩
      exact ⟨⟨hp', hh⟩, hw, hb⟩
    · rintro ⟨⟨hp', hh⟩, hw, hb⟩
      obtain ⟨hp, hl⟩ := hu.2 ⟨hp', hw⟩
      exact ⟨⟨hp, hh, hb⟩, hl⟩
  · constructor
    · rintro ⟨⟨m, inner, hi, -⟩, -⟩
      exact absurd ⟨m, inner, hi⟩ hm
    · rintro ⟨⟨m', inner', hi', -⟩, -⟩
      obtain ⟨m, inner, hi, -⟩ := hi'.of_replace h.toReplaces hx
      exact absurd ⟨m, inner, hi⟩ hm

theorem not_spoils_of_offers (h : t.root.Swaps n s) (hx : Outside t.root n x) (ho : t.Offers x p) :
    ¬ t.Spoils n x p := by
  obtain ⟨m, inner, hm, ⟨-, hw⟩, hh⟩ := ho
  rw [Tree.Spoils, Tree.exists_innermost_iff h.distinct hm]
  rintro (hb | ⟨b, hb, hbx, -⟩)
  · exact hw ((h.bodyWrites_iff (hm.outside hx).1).2 (.inr hb))
  · exact hh b hb hbx

end Node.Swaps

/-! ## What is reported -/

namespace Rule

variable {r : Rule} {t : Tree} {n s x : Node} {a : Advice}

/-- A check reports the node, and with the advice `a`. -/
def Flags (r : Rule) (t : Tree) (n : Node) (a : Advice) : Prop :=
  r.advice? t n = some a ∧ ∃ v, (r.check t n Memo.empty).1.result = .ok (some v)

theorem flags_iff (hd : t.root.Distinct) (hn : n ∈ t.nodes) :
    r.Flags t n a ↔ r.Objection t n a ∧ ∃ message, r.templates.message a = .ok message := by
  rw [Flags, check_result, advice?_eq_some_iff hd hn]
  refine and_congr_right fun ho => ?_
  rw [(advice?_eq_some_iff hd hn).2 ho, outcome]
  cases r.templates.message a with
  | error f => simp [Except.map]
  | ok message => simp [Except.map]

theorem Objection.offers {p : String} (ho : r.Objection t n a) (hp : a.param = some p) : t.Offers n p := by
  cases ho with
  | respelled _ _ _ _ _ => cases hp
  | named hm _ _ hu hh => cases hp; exact ⟨_, _, hm, hu, hh⟩
  | unnamed hm _ _ hu _ hh _ _ => cases hp; exact ⟨_, _, hm, hu, hh⟩

/-- An objection to a node outside stands if its block parameter can still be asked. -/
theorem Objection.replace (h : t.root.Swaps n s) (hx : Outside t.root n x) (ho : r.Objection t x a)
    (hp : ∀ p, a.param = some p → (t.replace n s).Offers (Node.replace n.id s x) p) :
    r.Objection (t.replace n s) (Node.replace n.id s x) a := by
  cases ho with
  | respelled hm he hne hi htext =>
    exact .respelled (hm.replace h.toReplaces hx) ((h.shape_replace hx).2 he) hne hi htext
  | named _ he hi _ _ =>
    obtain ⟨m', inner', hm', hu', hh'⟩ := hp _ rfl
    exact .named hm' ((h.shape_replace hx).2 he) hi hu' hh'
  | unnamed _ hk h0 _ ht _ hi htext =>
    obtain ⟨m', inner', hm', hu', hh'⟩ := hp _ rfl
    refine .unnamed hm' ((Node.kind_replace (h.id_ne hx)).trans hk) ?_ hu' ((h.tested_replace hx).2 ht) hh' hi htext
    rw [Node.slot_replace (h.id_ne hx), h0]
    rfl

/-- An objection to a node outside stood before if its block parameter could be asked. -/
theorem Objection.of_replace (h : t.root.Swaps n s) (hx : Outside t.root n x)
    (ho : r.Objection (t.replace n s) (Node.replace n.id s x) a) (hp : ∀ p, a.param = some p → t.Offers x p) :
    r.Objection t x a := by
  cases ho with
  | respelled hm he hne hi htext =>
    obtain ⟨m, inner, hm, -⟩ := hm.of_replace h.toReplaces hx
    exact .respelled hm ((h.shape_replace hx).1 he) hne hi htext
  | named _ he hi _ _ =>
    obtain ⟨m, inner, hm, hu, hh⟩ := hp _ rfl
    exact .named hm ((h.shape_replace hx).1 he) hi hu hh
  | unnamed _ hk h0 _ ht _ hi htext =>
    obtain ⟨m, inner, hm, hu, hh⟩ := hp _ rfl
    rw [Node.kind_replace (h.id_ne hx)] at hk
    rw [Node.slot_replace (h.id_ne hx), Slot.map_eq_text] at h0
    exact .unnamed hm hk h0 hu ((h.tested_replace hx).1 ht) hh hi htext

/-- The rule does not object to what its style prefers. -/
theorem not_objection_of_spells {text : String} (hs : s.Spells r.preferred text) : ¬ r.Objection t s a := by
  intro ho
  cases ho with
  | respelled _ he hne hi _ =>
    generalize r.preferred = i at hs hne hi
    cases he with
    | call hk _ => cases hs with
      | call _ _ => exact hne rfl
      | probe hk' _ _ _ => rw [hk] at hk'; cases hk'
      | name _ _ => exact hi rfl
    | probe hk _ _ => cases hs with
      | call hk' _ => rw [hk] at hk'; cases hk'
      | probe _ _ _ _ => exact hne rfl
      | name _ _ => exact hi rfl
  | named _ he hi _ _ =>
    rw [hi] at hs
    cases hs with
    | name hk _ => exact (kind_ne_of_shape he).1 hk
  | unnamed _ hk _ _ _ _ hi _ =>
    generalize r.preferred = i at hs hi
    cases hs with
    | call hk' _ => rw [hk] at hk'; cases hk'
    | probe hk' _ _ _ => rw [hk] at hk'; cases hk'
    | name _ _ => exact hi rfl

theorem concerns_of_check {v : Violation} (hv : (r.check t n Memo.empty).1.result = .ok (some v)) :
    concerns n.kind = true := by
  by_contra hk
  rw [check, if_neg hk] at hv
  cases hv

/-- **Checking again after a correction.** Let a check report `n`, and let `s` be what its correction denotes. After the
correction `s` is not reported. A node outside `n` that was reported is reported again and with the same advice, unless
that names a block parameter and `n` is the list that it stands in; and a node outside that is reported was reported
before and with the same advice, unless that names a block parameter which `n` spoiled. -/
theorem check_replace (r : Rule) (t : Tree) (n s : Node) (v : Violation) (h : t.root.Replaces n s)
    (hv : (r.check t n Memo.empty).1.result = .ok (some v))
    (hs : ∃ c, v.correction = some c ∧ s.Spells r.preferred c.replacement) :
    (r.check (t.replace n s) s Memo.empty).1.result = .ok none ∧
    ∀ x, Outside t.root n x → ∀ a,
      (r.Flags t x a → (r.Flags (t.replace n s) (Node.replace n.id s x) a ↔
        ¬ (a.param ≠ none ∧ t.ListsParams n x))) ∧
      (r.Flags (t.replace n s) (Node.replace n.id s x) a → (r.Flags t x a ↔
        ∀ p, a.param = some p → ¬ t.Spoils n x p)) := by
  obtain ⟨c, -, hs⟩ := hs
  have hsw : t.root.Swaps n s := h.swaps (concerns_of_check hv) hs
  have hd : (t.replace n s).root.Distinct := h.distinct_replace
  constructor
  · rw [check_result]
    cases ha : r.advice? (t.replace n s) s with
    | none => rfl
    | some a =>
      have ho := (advice?_eq_some_iff hd (Tree.mem_nodes_replace_new h)).1 ha
      exact absurd ho (not_objection_of_spells hs)
  intro x hx a
  have hxn : x ∈ t.nodes := t.nodes_eq ▸ hx.1
  rw [flags_iff h.distinct hxn, flags_iff hd (Tree.mem_nodes_replace h hx)]
  constructor
  · rintro ⟨ho, hmsg⟩
    rw [and_iff_left hmsg]
    constructor
    · rintro ho' ⟨hp, hl⟩
      obtain ⟨p, hp⟩ := Option.ne_none_iff_exists'.1 hp
      have hsp := hsw.not_spoils_of_offers hx (ho.offers hp)
      exact ((hsw.offers_iff hx).2 ⟨ho'.offers hp, hsp⟩).2 hl
    · refine fun hl => ho.replace hsw hx fun p hp => ?_
      have hne : a.param ≠ none := by rw [hp]; simp
      exact ((hsw.offers_iff hx).1 ⟨ho.offers hp, fun hlp => hl ⟨hne, hlp⟩⟩).1
  · rintro ⟨ho', hmsg⟩
    rw [and_iff_left hmsg]
    constructor
    · exact fun ho p hp => hsw.not_spoils_of_offers hx (ho.offers hp)
    · exact fun hsp => ho'.of_replace hsw hx fun p hp => ((hsw.offers_iff hx).2 ⟨ho'.offers hp, hsp p hp⟩).1

/-- In `def m(&block) = (block_given?; block_given?)` the first call is corrected, and the second one is reported again. -/
theorem check_replace_first_call :
    let r := uniform .truthiness
    let n := Node.blockGiven 4
    let x := Node.blockGiven 5
    let t := Tree.ofRoot (Node.definition 0 ⟨3, .group, [.node n, .node x], .origin⟩) "m.rb"
    let s : Node := ⟨9, .localRead, [.text "block"], .origin⟩
    let v : Violation := ⟨"Ask block.", "m.rb:1:0", n, some ⟨.origin, "block"⟩⟩
    let a : Advice := ⟨⟨.call, .truthiness⟩, "block", some "block"⟩
    t.root.Replaces n s ∧ (r.check t n Memo.empty).1.result = .ok (some v) ∧
      (∃ c, v.correction = some c ∧ s.Spells r.preferred c.replacement) ∧ Outside t.root n x ∧
      (r.check (t.replace n s) s Memo.empty).1.result = .ok none ∧ r.Flags t x a ∧
      (r.Flags (t.replace n s) (Node.replace n.id s x) a ↔ ¬ (a.param ≠ none ∧ t.ListsParams n x)) := by
  intro r n x t s v a
  have hn : n ∈ t.root.preorder :=
    Node.mem_definition (Node.mem_preorder_of_mem_childNodes (Node.mem_childNodes_of_slot (i := 0) rfl))
  have hx : x ∈ t.root.preorder :=
    Node.mem_definition (Node.mem_preorder_of_mem_childNodes (Node.mem_childNodes_of_slot (i := 1) rfl))
  have hxn : x ∉ n.preorder := fun h => absurd (List.mem_map_of_mem (f := Node.id) h) (by decide)
  have h : t.root.Replaces n s := .of_nodup hn (by decide)
  have hv : (r.check t n Memo.empty).1.result = .ok (some v) := by cbv
  have hs : ∃ c, v.correction = some c ∧ s.Spells r.preferred c.replacement := ⟨_, rfl, .name rfl rfl⟩
  have hf : r.Flags t x a := ⟨by cbv, ⟨"Ask block.", "m.rb:1:0", x, some ⟨.origin, "block"⟩⟩, by cbv⟩
  obtain ⟨hnew, hall⟩ := check_replace r t n s v h hv hs
  exact ⟨h, hv, hs, ⟨hx, hxn⟩, hnew, hf, (hall x ⟨hx, hxn⟩ a).1 hf⟩

/-- The correction of `n` to `s` brings up a report of `x`, which stands outside `n`. -/
structure Reveals (r : Rule) (t : Tree) (n s x : Node) : Prop where
  replaces : t.root.Replaces n s
  reported : ∃ v c, (r.check t n Memo.empty).1.result = .ok (some v) ∧ v.correction = some c ∧
    s.Spells r.preferred c.replacement
  outside : Outside t.root n x
  before : (r.check t x Memo.empty).1.result = .ok none
  after : ∃ v, (r.check (t.replace n s) (Node.replace n.id s x) Memo.empty).1.result = .ok (some v)

/-- The query `defined?(yield(block = ...))`. -/
def writingQuery : Node :=
  ⟨4, .definedQuery, [.node ⟨5, .yielding, [.node ⟨6, .localWrite, [.text "block"], .origin⟩], .origin⟩], .origin⟩

/-- The parameter `block` of another block. -/
def strayParam : Node := ⟨15, .param .required, [.text "block"], .origin⟩

/-- The query `defined?(yield(foo { |block| }))`. -/
def strayingQuery : Node :=
  let fooParams : Node := ⟨14, Kind.args, [.node strayParam], .origin⟩
  let foo : Node := ⟨12, .block, [.node ⟨13, .call, [.empty, .text "foo"], .origin⟩, .node fooParams, .empty], .origin⟩
  ⟨10, .definedQuery, [.node ⟨11, .yielding, [.node foo], .origin⟩], .origin⟩

/-- A read of `block`. -/
def blockRead : Node := ⟨8, .localRead, [.text "block"], .origin⟩

/-- The body `defined?(yield(block = ...)); if block ...`. -/
def writingBody : Node := ⟨3, .group, [.node writingQuery, .node ⟨7, .cond, [.node blockRead], .origin⟩], .origin⟩

/-- The parameter list `|a = defined?(yield(foo { |block| }))|`. -/
def strayingParams : Node :=
  ⟨16, Kind.args, [.node ⟨17, .param .optional, [.text "a", .node strayingQuery], .origin⟩], .origin⟩

/-- The block `each { |a = defined?(yield(foo { |block| }))| if block ... }`. -/
def strayingBlock : Node :=
  ⟨3, .block, [.node ⟨18, .call, [.empty, .text "each"], .origin⟩, .node strayingParams,
    .node ⟨7, .cond, [.node blockRead], .origin⟩], .origin⟩

theorem strayingQuery_mem_descendants : strayingQuery ∈ strayingParams.descendants :=
  Node.mem_descendants.2 ⟨_, Node.mem_childNodes_of_slot (i := 0) rfl,
    Node.mem_preorder_of_mem_childNodes (Node.mem_childNodes_of_slot (i := 1) rfl)⟩

theorem strayingBlock_strays : strayingBlock.Strays "block" := by
  refine Node.strays_iff.2
    ⟨strayingQuery, strayingParams, strayParam, rfl, strayingQuery_mem_descendants, rfl, ?_, rfl, rfl⟩
  refine Node.mem_descendants.2 ⟨_, Node.mem_childNodes_of_slot (i := 0) rfl, ?_⟩
  refine Node.mem_preorder_of_child (Node.mem_childNodes_of_slot (i := 0) rfl) ?_
  refine Node.mem_preorder_of_child (Node.mem_childNodes_of_slot (i := 1) rfl) ?_
  exact Node.mem_preorder_of_mem_childNodes (Node.mem_childNodes_of_slot (i := 0) rfl)

theorem writingQuery_reveals : (uniform .call).Reveals (.ofRoot (Node.definition 0 writingBody) "m.rb") writingQuery
    (Node.blockGiven 9) blockRead := by
  have hn : writingQuery ∈ (Node.definition 0 writingBody).preorder :=
    Node.mem_definition (Node.mem_preorder_of_mem_childNodes (Node.mem_childNodes_of_slot (i := 0) rfl))
  let c : Correction := ⟨.origin, "block_given?"⟩
  have hbefore : ((uniform .call).check (.ofRoot (Node.definition 0 writingBody) "m.rb") blockRead Memo.empty).1.result =
      .ok none := by cbv
  refine ⟨.of_nodup hn (by decide), ⟨⟨"Ask .", "m.rb:1:0", writingQuery, some c⟩, c, by cbv, rfl, .call rfl rfl⟩,
    ⟨?_, fun h => ?_⟩, hbefore, ⟨⟨"Ask block.", "m.rb:1:0", blockRead, some c⟩, by cbv⟩⟩
  · refine Node.mem_definition (Node.mem_preorder_of_child (Node.mem_childNodes_of_slot (i := 1) rfl) ?_)
    exact Node.mem_preorder_of_mem_childNodes (Node.mem_childNodes_of_slot (i := 0) rfl)
  · exact absurd (List.mem_map_of_mem (f := Node.id) h) (by decide)

theorem strayingQuery_reveals : (uniform .call).Reveals (.ofRoot (Node.definition 0 strayingBlock) "m.rb") strayingQuery
    (Node.blockGiven 9) blockRead := by
  have hn : strayingQuery ∈ (Node.definition 0 strayingBlock).preorder := by
    refine Node.mem_definition (Node.mem_preorder_of_child (Node.mem_childNodes_of_slot (i := 1) rfl) ?_)
    exact (Node.mem_descendants_iff.1 strayingQuery_mem_descendants).1
  let c : Correction := ⟨.origin, "block_given?"⟩
  have hbefore : ((uniform .call).check (.ofRoot (Node.definition 0 strayingBlock) "m.rb") blockRead
      Memo.empty).1.result = .ok none := by cbv
  refine ⟨.of_nodup hn (by decide), ⟨⟨"Ask .", "m.rb:1:0", strayingQuery, some c⟩, c, by cbv, rfl, .call rfl rfl⟩,
    ⟨?_, fun h => ?_⟩, hbefore, ⟨⟨"Ask block.", "m.rb:1:0", blockRead, some c⟩, by cbv⟩⟩
  · refine Node.mem_definition (Node.mem_preorder_of_child (Node.mem_childNodes_of_slot (i := 2) rfl) ?_)
    exact Node.mem_preorder_of_mem_childNodes (Node.mem_childNodes_of_slot (i := 0) rfl)
  · exact absurd (List.mem_map_of_mem (f := Node.id) h) (by decide)

/-- In `def m(&block) = (defined?(yield(block = ...)); if block ...)` the read of `block` is not reported, as `block` is
written to, and in `def m(&block) = each { |a = defined?(yield(foo { |block| }))| if block ... }` it is not, as the
parameter of the block of `foo` strays into the list of the block around. After the correction of the query it is. -/
theorem check_replace_frees_param :
    let r := uniform .call
    let s := Node.blockGiven 9
    r.Reveals (.ofRoot (Node.definition 0 writingBody) "m.rb") writingQuery s blockRead ∧
      r.Reveals (.ofRoot (Node.definition 0 strayingBlock) "m.rb") strayingQuery s blockRead ∧
      strayingBlock.Strays "block" :=
  ⟨writingQuery_reveals, strayingQuery_reveals, strayingBlock_strays⟩

end Rule

end BlockPresence
