import BlockPresence.Proofs.Idiom.Outcome
import BlockPresence.Proofs.Lint.Rounds
import BlockPresence.Proofs.Tree.Rename

/-!
# Corrections that undo each other

Under one style a call of `block_given?` is corrected to a read of the block parameter, under another one the read to the
call. Where both are conditions, either correction is offered just where the other one was made, so that each gives back
the tree that the other one started from, but for identities and places (`Rule.corrections_undo`).

What has to be seen is that the node a correction wrote stands as the replaced one stood: it is tested (`Swaps.tested_new`),
and the block parameter of its method can still be asked (`Swaps.offers_new`).
-/

namespace BlockPresence

open Node (Outside Replaces Swaps)

/-! ## Looks -/

namespace Node

variable {root n s s' p : Node}

/-- **Replaced and replaced back**, a tree looks as before. -/
theorem Replaces.look_replace_replace (h : root.Replaces n s) (hs : s'.look = n.look) (hp : Outside root n p ∨ p = n) :
    (replace s.id s' (replace n.id s p)).look = p.look := by
  induction p using childInduction with
  | node p ih =>
    rcases hp with hp | rfl
    · have hid : (replace n.id s p).id ≠ s.id := by
        rw [id_replace (h.id_ne hp)]
        exact h.fresh p hp s s.self_mem_preorder
      rw [look_eq, kind_replace hid, slots_replace hid, kind_replace (h.id_ne hp), slots_replace (h.id_ne hp), look_eq p,
        List.map_map, List.map_map]
      congr 1
      refine List.map_congr_left fun x hx => ?_
      cases x with
      | text _ => rfl
      | empty => rfl
      | node c =>
        have hc := mem_childNodes_of_mem_slots hx
        exact congrArg Slot.node (ih c hc (h.outside_or_eq hp hc))
    · rw [replace_of_eq rfl, replace_of_eq rfl, hs]

end Node

/-! ## The new node -/

/-- The method around the node that is replaced is around the new one. -/
theorem Tree.Innermost.replace_new {t : Tree} {n s m : Node} {inner : List Node} (h : t.root.Replaces n s)
    (hm : t.Innermost n m inner) :
    (t.replace n s).Innermost s (Node.replace n.id s m) (inner.map (Node.replace n.id s)) := by
  obtain ⟨⟨outer, hl⟩, hd, hi⟩ := hm
  have ho : ∀ a ∈ inner ++ m :: outer, Outside t.root n a := fun a ha => h.outside_of_above hl ha
  refine ⟨⟨outer.map (Node.replace n.id s), ?_⟩, ?_, fun a' ha' => ?_⟩
  · have hl' := h.line_new hl
    rw [List.map_append, List.map_cons] at hl'
    exact hl'
  · rwa [Node.kind_replace (h.id_ne (ho m (by simp)))]
  · obtain ⟨a, ha, rfl⟩ := List.mem_map.1 ha'
    rw [Node.kind_replace (h.id_ne (ho a (by simp [ha])))]
    exact hi a ha

/-- A node that is tested is not the parameter list of its method. -/
theorem Tree.not_listsParams_of_isOnlyTested {t : Tree} {n : Node} (hd : t.root.Distinct)
    (ht : t.isOnlyTested n = true) : ¬ t.ListsParams n n := by
  rintro ⟨m, inner, hm, hs⟩
  obtain ⟨outer, hl⟩ := hm.1
  have hmr : m ∈ t.root.preorder := hl.mem_preorder_of_mem (by simp)
  obtain ⟨as, ha⟩ := Node.exists_line hmr
  have hc : n ∈ m.childNodes := Node.mem_childNodes_of_slot hs
  rw [Tree.isOnlyTested, ancestors_eq_of_line hd (.child ha hc), Node.isOnlyTested_cons_iff hd.coherent hmr hc] at ht
  have hk := hm.2.1
  rcases ht with ht | ⟨hp, -⟩
  · cases ht with
    | condition hq _ =>
      rcases hq with hq | ⟨l, hq⟩
      · rw [hq] at hk; cases hk
      · rw [hq] at hk; cases hk
    | negated hq _ => rw [hq] at hk; cases hk
  · rcases hp with hq | hq | ⟨hq, -⟩
    · rw [hq] at hk; cases hk
    · rw [hq] at hk; cases hk
    · rw [hq] at hk; cases hk

namespace Node.Swaps

variable {t : Tree} {n s b : Node} {p : String}

/-- The new node is tested as the one that it replaces. -/
theorem tested_new (h : t.root.Swaps n s) (ht : t.isOnlyTested n = true) : Tested (t.replace n s).root s := by
  obtain ⟨as, hl⟩ := exists_line h.mem
  rw [Tree.isOnlyTested, Tree.ancestors_eq_of_line h.distinct hl] at ht
  obtain ⟨q, c, hq⟩ := (isOnlyTested_iff_controls h.distinct.coherent hl).1 ht
  have hq' := hq.replace (s := s) fun a ha => h.id_ne (h.outside_of_above hl ha)
  rw [replace_of_eq rfl] at hq'
  have hl' := h.line_new hl
  exact tested_of_isOnlyTested h.distinct_replace hl'
    ((isOnlyTested_iff_controls h.distinct_replace.coherent hl').2 ⟨_, _, hq'⟩)

/-- What a block hides from the new node it hid from the one that was replaced. -/
theorem hides_of_new (h : t.root.Swaps n s) (hb : Outside t.root n b) (hh : (replace n.id s b).Hides s p) :
    b.Hides n p := by
  obtain ⟨hk, hcall, hdecl⟩ := hh
  rw [kind_replace (h.id_ne hb)] at hk
  refine ⟨hk, fun call hs hn => ?_, (h.declares_iff hb).2 (.inl hdecl)⟩
  refine hcall (replace n.id s call) ?_ ?_
  · rw [slot_replace (h.id_ne hb), hs]
    rfl
  · exact (h.mem_replace (h.outside_or_eq hb (mem_childNodes_of_slot hs))).2 (.inr ⟨hn, s.self_mem_preorder⟩)

/-- **The block parameter** that could be asked where the replaced node stood can be asked where the new one stands. -/
theorem offers_new (h : t.root.Swaps n s) (ho : t.Offers n p) (hl : ¬ t.ListsParams n n) :
    (t.replace n s).Offers s p := by
  obtain ⟨m, inner, hm, hu, hh⟩ := ho
  obtain ⟨outer, hline⟩ := hm.1
  have hout : ∀ a ∈ inner ++ m :: outer, Outside t.root n a := fun a ha => h.outside_of_above hline ha
  have hmo : Outside t.root n m := hout m (by simp)
  have hparams : m.slot m.paramsSlot ≠ .node n := fun hs => hl ⟨m, inner, hm, hs⟩
  refine ⟨_, _, hm.replace_new h.toReplaces, ((h.usableParam_iff hmo).1 ⟨hu, hparams⟩).1, fun b' hb' hhides => ?_⟩
  obtain ⟨b, hb, rfl⟩ := List.mem_map.1 hb'
  exact hh b hb (h.hides_of_new (hout b (by simp [hb])) hhides)

end Node.Swaps

/-! ## There and back -/

namespace Rule

variable {r : Rule} {t : Tree} {n s : Node} {i : Idiom} {a : Advice} {text x : String}

/-- The same rule under the style that prefers the idiom `i`. -/
def under (r : Rule) (i : Idiom) : Rule := { r with config := { r.config with style := ⟨i⟩ } }

@[simp] theorem preferred_under : (r.under i).preferred = i := rfl

/-- A check reports the node, and its correction writes `text` in the place of the node. -/
def Suggests (r : Rule) (t : Tree) (n : Node) (text : String) : Prop :=
  ∃ v, (r.check t n Memo.empty).1.result = .ok (some v) ∧ v.correction = some ⟨n.extent, text⟩

/-- What a check suggests is what the objection to the node advises. -/
theorem Suggests.objection (hd : t.root.Distinct) (hn : n ∈ t.nodes) (h : r.Suggests t n text) :
    r.config.autocorrect = true ∧ ∃ a, r.Objection t n a ∧ a.replacement = text := by
  obtain ⟨v, hv, hc⟩ := h
  rw [check_result] at hv
  obtain ⟨a, message, ha, -, rfl⟩ := outcome_eq_ok_some_iff.1 hv
  rw [violation] at hc
  split at hc
  · rename_i hauto
    exact ⟨hauto, a, (advice?_eq_some_iff hd hn).1 ha, congrArg Correction.replacement (Option.some.inj hc)⟩
  · cases hc

theorem Objection.suggests (hd : t.root.Distinct) (hn : n ∈ t.nodes) (hts : r.templates.Complete)
    (ha : r.config.autocorrect = true) (h : r.Objection t n a) : r.Suggests t n a.replacement := by
  obtain ⟨message, hm⟩ := message_of_objection hts h
  refine ⟨r.violation t n a message, ?_, if_pos ha⟩
  rw [check_result, outcome_eq_ok_some_iff]
  exact ⟨a, message, (advice?_eq_some_iff hd hn).2 h, hm, rfl⟩

theorem Suggests.concerns (h : r.Suggests t n text) : concerns n.kind = true := by
  obtain ⟨v, hv, -⟩ := h
  exact concerns_of_check hv

/-- A name that is suggested is that of a block parameter that can be asked. -/
theorem Suggests.offers (hd : t.root.Distinct) (hn : n ∈ t.nodes) (h : (r.under .truthiness).Suggests t n x) :
    t.Offers n x ∧ ∃ e, n.Shape e := by
  obtain ⟨-, a, ho, rfl⟩ := h.objection hd hn
  cases ho with
  | respelled _ _ _ hi _ => exact absurd rfl hi
  | named hm he _ hu hh => exact ⟨⟨_, _, hm, hu, hh⟩, _, he⟩
  | unnamed _ _ _ _ _ _ hi _ => exact absurd rfl hi

/-- A read that is reported tests a block parameter that can be asked. -/
theorem Suggests.offers_of_read (hd : t.root.Distinct) (hn : n ∈ t.nodes) (h : r.Suggests t n text)
    (hk : n.kind = .localRead) (hx : n.slot 0 = .text x) : t.Offers n x ∧ t.isOnlyTested n = true := by
  obtain ⟨-, a, ho, -⟩ := h.objection hd hn
  cases ho with
  | respelled _ he _ _ _ => exact absurd hk (kind_ne_of_shape he).1
  | named _ he _ _ _ => exact absurd hk (kind_ne_of_shape he).1
  | unnamed hm _ h0 hu ht hh _ _ =>
    rw [hx] at h0
    cases h0
    exact ⟨⟨_, _, hm, hu, hh⟩, (Tree.isOnlyTested_iff hd hn).2 ht⟩

/-- A read of a block parameter that can be asked is corrected where it is tested. -/
theorem suggests_of_offers_read (hd : t.root.Distinct) (hn : n ∈ t.nodes) (hts : r.templates.Complete)
    (ha : r.config.autocorrect = true) (hs : n.Spells .truthiness x) (ht : Tested t.root n) (ho : t.Offers n x)
    (hi : r.preferred ≠ .truthiness) (htext : r.preferred.Wording text) : r.Suggests t n text := by
  obtain ⟨m, inner, hm, hu, hh⟩ := ho
  cases hs with
  | name hk hslots =>
    have h0 : n.slot 0 = .text x := by rw [Node.slot, hslots]; rfl
    exact Objection.suggests hd hn hts ha (.unnamed hm hk h0 hu ht hh hi htext)

/-- A call is corrected where the block parameter can be asked. -/
theorem suggests_of_offers_call (hd : t.root.Distinct) (hn : n ∈ t.nodes) (hts : r.templates.Complete)
    (ha : r.config.autocorrect = true) (he : n.Shape .call) (ho : t.Offers n x) (hi : r.preferred = .truthiness) :
    r.Suggests t n x := by
  obtain ⟨m, inner, hm, hu, hh⟩ := ho
  exact Objection.suggests hd hn hts ha (.named hm he hi hu hh)

/-- **Calls and tested reads undo each other.** Take a rule whose templates can be filled, and let `s` be the node that a
correction writes in the place of `n`. If under the style of truthiness the correction of a tested node wrote the name
`x`, then under the two other styles `x` is corrected to a call and to a probe; and if `n` was a call, the former
correction gives back the tree. If under the style of calls the correction of a read of `x` wrote a call, then under the
style of truthiness the call is corrected to `x`, and this gives back the tree. -/
theorem corrections_undo (r : Rule) (hts : r.templates.Complete) (t : Tree) (n s : Node) (h : t.root.Replaces n s) :
    (∀ x, (r.under .truthiness).Suggests t n x → t.isOnlyTested n = true → s.Spells .truthiness x →
      (r.under .call).Suggests (t.replace n s) s "block_given?" ∧
      (r.under .probe).Suggests (t.replace n s) s "defined?(yield)" ∧
      (n.kind = .call → ∀ s', s'.Spells .call "block_given?" →
        ((t.replace n s).replace s s').root.look = t.root.look)) ∧
    ∀ x, (r.under .call).Suggests t n "block_given?" → n.kind = .localRead → n.slots = [.text x] →
      s.Spells .call "block_given?" →
      (r.under .truthiness).Suggests (t.replace n s) s x ∧
      ∀ s', s'.Spells .truthiness x → ((t.replace n s).replace s s').root.look = t.root.look := by
  have hn : n ∈ t.nodes := t.nodes_eq ▸ h.mem
  have hd' : (t.replace n s).root.Distinct := h.distinct_replace
  have hs' : s ∈ (t.replace n s).nodes := Tree.mem_nodes_replace_new h
  refine ⟨fun x hsug ht hs => ?_, fun x hsug hk hslots hs => ?_⟩
  · have hsw : t.root.Swaps n s := h.swaps hsug.concerns hs
    obtain ⟨ho, e, he⟩ := hsug.offers h.distinct hn
    have ho' := hsw.offers_new ho (Tree.not_listsParams_of_isOnlyTested h.distinct ht)
    have ht' := hsw.tested_new ht
    have ha : r.config.autocorrect = true := (hsug.objection h.distinct hn).1
    refine ⟨suggests_of_offers_read hd' hs' hts ha hs ht' ho' (by simp) .call,
      suggests_of_offers_read hd' hs' hts ha hs ht' ho' (by simp) .probe, fun hk s' hs' => ?_⟩
    refine h.look_replace_replace ?_ h.root_outside_or_eq
    cases he with
    | probe hk' _ _ => rw [hk] at hk'; cases hk'
    | call _ hslots => cases hs' with
      | call hk' hslots' => exact Node.look_congr (hk'.trans hk.symm) (hslots'.trans hslots.symm)
  · have hsw : t.root.Swaps n s := h.swaps hsug.concerns hs
    have h0 : n.slot 0 = .text x := by rw [Node.slot, hslots]; rfl
    obtain ⟨ho, ht⟩ := hsug.offers_of_read h.distinct hn hk h0
    have ho' := hsw.offers_new ho (Tree.not_listsParams_of_isOnlyTested h.distinct ht)
    have ha : r.config.autocorrect = true := (hsug.objection h.distinct hn).1
    have he : s.Shape .call := by
      cases hs with
      | call hk' hslots' => exact .call hk' hslots'
    refine ⟨suggests_of_offers_call hd' hs' hts ha he ho' rfl, fun s' hs' => ?_⟩
    refine h.look_replace_replace ?_ h.root_outside_or_eq
    cases hs' with
    | name hk' hslots' => exact Node.look_congr (hk'.trans hk.symm) (hslots'.trans hslots.symm)

/-- In `def m(&block) = if block_given?` the call is corrected to `block` under one style, and `block` back to the call
under another one. -/
theorem corrections_undo_condition :
    let r := uniform .truthiness
    let n := Node.blockGiven 4
    let t := Tree.ofRoot (Node.definition 0 ⟨3, .cond, [.node n], .origin⟩) "m.rb"
    let s : Node := ⟨5, .localRead, [.text "block"], .origin⟩
    let s' := Node.blockGiven 6
    let s'' : Node := ⟨7, .localRead, [.text "block"], .origin⟩
    r.templates.Complete ∧ t.root.Replaces n s ∧ (r.under .truthiness).Suggests t n "block" ∧ t.isOnlyTested n = true ∧
      s.Spells .truthiness "block" ∧ (r.under .call).Suggests (t.replace n s) s "block_given?" ∧
      ((t.replace n s).replace s s').root.look = t.root.look ∧
      (r.under .truthiness).Suggests ((t.replace n s).replace s s') s' "block" ∧
      (((t.replace n s).replace s s').replace s' s'').root.look = (t.replace n s).root.look := by
  intro r n t s s' s''
  have hts : r.templates.Complete := uniform_complete .truthiness
  have hbody : ∀ (x : Node) (y : Node), y = ⟨3, .cond, [.node x], .origin⟩ →
      x ∈ (Node.definition 0 y).preorder := by
    rintro x y rfl
    exact Node.mem_definition (Node.mem_preorder_of_mem_childNodes (Node.mem_childNodes_of_slot (i := 0) rfl))
  have h : t.root.Replaces n s := .of_nodup (hbody n _ rfl) (by decide)
  have hsug : (r.under .truthiness).Suggests t n "block" :=
    ⟨⟨"Ask block.", "m.rb:1:0", n, some ⟨.origin, "block"⟩⟩, by cbv, rfl⟩
  have ht : t.isOnlyTested n = true := by cbv
  have hs : s.Spells .truthiness "block" := .name rfl rfl
  have hs' : s'.Spells .call "block_given?" := .call rfl rfl
  obtain ⟨hcall, -, hback⟩ := (corrections_undo r hts t n s h).1 "block" hsug ht hs
  have h' : (t.replace n s).root.Replaces s s' := .of_nodup (hbody s _ rfl) (by decide)
  obtain ⟨hname, hforth⟩ := (corrections_undo r hts (t.replace n s) s s' h').2 "block" hcall rfl rfl hs'
  exact ⟨hts, h, hsug, ht, hs, hcall, hback rfl s' hs', hname, hforth s'' (.name rfl rfl)⟩

end Rule

end BlockPresence
