import BlockPresence.Proofs.Idiom.Swap
import BlockPresence.Proofs.Lint.Mirror

/-!
# Parentheses

Parentheses around a node change nothing that is found out about the nodes of its tree: what a check returns, whether a
value is only tested, which names are hidden, and which method is around (`Rule.check_inParens`). The exception is a node
that is looked up at its very place, as the parameters of a definition or of a block are (`Node.Lists`).

Seen from a node that is not below the parentheses the line to the root is what it was, each node changed for itself.
From below it has the parentheses besides (`Tree.exists_keeps_inParens`).
-/

namespace BlockPresence

namespace Node

/-- The node `w` in parentheses. -/
def inParens (w : Node) (i : Nat) (e : Extent) : Node := ⟨i, .group, [.node w], e⟩

/-- The node `w` is the parameter list of the definition or the block `q`, or a parameter of the definition `q`. -/
inductive Lists (q w : Node) : Prop
  | list : q.kind.isDefinition = true ∨ q.kind = .block → q.slot q.paramsSlot = .node w → Lists q w
  | param {params : Node} : q.kind.isDefinition = true → q.slot q.paramsSlot = .node params → w ∈ params.childNodes →
      Lists q w

variable {root w p : Node} {i : Nat} {e : Extent} {name : String}

theorem preorder_inParens : (w.inParens i e).preorder = w.inParens i e :: w.preorder := by
  rw [preorder_eq]
  exact congrArg _ (List.flatMap_singleton _ _)

theorem not_isParam_inParens : ¬ (w.inParens i e).kind.isParam = true := Bool.false_ne_true

theorem ne_localWrite_inParens : (w.inParens i e).kind ≠ .localWrite := by
  rw [inParens]
  simp

theorem yields_inParens_iff : (w.inParens i e).Yields ↔ w.Yields := by
  constructor
  · intro h
    cases h with
    | bare hk => cases hk
    | parenthesised _ hs hy =>
      cases hs
      exact hy
  · exact .parenthesised rfl rfl

/-- What is not said of parentheses is said of a node in parentheses if it is said of the node. -/
theorem exists_mem_inParens_iff {Q : Node → Prop} (hQ : ¬ Q (w.inParens i e)) :
    (∃ y ∈ (w.inParens i e).preorder, Q y) ↔ ∃ y ∈ w.preorder, Q y := by
  rw [preorder_inParens, List.exists_mem_cons_iff, or_iff_right hQ]

theorem replaces_inParens (hd : root.Distinct) (hw : w ∈ root.preorder) (hi : ∀ x ∈ root.preorder, x.id ≠ i) :
    root.Replaces w (w.inParens i e) where
  distinct := hd
  mem := hw
  distinct_new := by
    unfold Distinct
    rw [preorder_inParens, List.map_cons, List.nodup_cons]
    refine ⟨fun hm => ?_, hd.of_mem hw⟩
    obtain ⟨x, hx, he⟩ := List.mem_map.1 hm
    exact hi x (mem_preorder_trans hx hw) he
  fresh := fun x hx y hy he => by
    rw [preorder_inParens] at hy
    rcases List.mem_cons.1 hy with rfl | hy
    · exact hi x hx.1 he
    · exact hx.2 (hd.eq_of_id hx.1 (mem_preorder_trans hy hw) he ▸ hy)

/-! ## What the nodes above say -/

namespace Replaces

variable {params : Node}

/-- A parameter list that is not what was put in parentheses is outside them. -/
theorem outside_params (h : root.Replaces w (w.inParens i e)) (hp : Outside root w p) (hl : ¬ p.Lists w)
    (hk : p.kind.isDefinition = true ∨ p.kind = .block) (hs : p.slot p.paramsSlot = .node params) :
    Outside root w params := by
  refine (h.outside_or_eq hp (mem_childNodes_of_slot hs)).resolve_right ?_
  rintro rfl
  exact hl (.list hk hs)

theorem declares_inParens (h : root.Replaces w (w.inParens i e)) (hp : Outside root w p) (hb : p.kind = .block)
    (hl : ¬ p.Lists w) : (replace w.id (w.inParens i e) p).declares name = p.declares name := by
  have hparams : p.paramsSlot = 1 := by rw [paramsSlot, hb]; rfl
  rw [Bool.eq_iff_iff, declares_iff, declares_iff, Declares, Declares, slot_replace (h.id_ne hp)]
  cases hs : p.slot 1 with
  | text _ => simp [Slot.map]
  | empty => simp [Slot.map]
  | node params =>
    have ho : Outside root w params := h.outside_params hp hl (.inr hb) (hparams ▸ hs)
    have hd := h.exists_mem_descendants_replace_iff (Q := fun q => q.kind.isParam = true ∧ q.slot 0 = .text name)
      (fun _ hx => h.named_replace_iff (K := fun k => k.isParam = true) hx)
      (exists_mem_inParens_iff fun hq => not_isParam_inParens hq.1) ho
    simpa [Slot.map] using hd

theorem bodyWrites_inParens (h : root.Replaces w (w.inParens i e)) (hp : Outside root w p) :
    (replace w.id (w.inParens i e) p).BodyWrites name ↔ p.BodyWrites name := by
  rw [BodyWrites, BodyWrites, slot_bodySlot_replace (h.id_ne hp)]
  cases hs : p.slot p.bodySlot with
  | text _ => simp [Slot.map]
  | empty => simp [Slot.map]
  | node body =>
    have hd := h.exists_mem_replace_iff (Q := fun q => q.kind = .localWrite ∧ q.slot 0 = .text name)
      (fun _ hx => h.named_replace_iff (K := fun k => k = .localWrite) hx)
      (exists_mem_inParens_iff fun hq => ne_localWrite_inParens hq.1) (h.outside_or_eq hp (mem_childNodes_of_slot hs))
    simpa [Slot.map] using hd

theorem renamed_inParens (h : root.Replaces w (w.inParens i e)) (hp : Outside root w p)
    (hd : p.kind.isDefinition = true) (hl : ¬ p.Lists w) :
    (Method.ofDefinition p).Renamed (fun name => name) (Method.ofDefinition (replace w.id (w.inParens i e) p)) where
  name := by
    simp only [Method.ofDefinition, Method.nameSlot, kind_replace (h.id_ne hp), slot_replace (h.id_ne hp)]
    cases p.slot _ <;> rfl
  assigns := fun name => by
    rw [Bool.eq_iff_iff, Method.assigns_ofDefinition, Method.assigns_ofDefinition, h.bodyWrites_inParens hp]
  blockParam := by
    simp only [Method.ofDefinition, Method.nameSlot_add_one, slot_paramsSlot_replace (h.id_ne hp)]
    cases hs : p.slot p.paramsSlot with
    | text _ => rfl
    | empty => rfl
    | node params =>
      have ho : Outside root w params := h.outside_params hp hl (.inl hd) hs
      have hc : ∀ c ∈ params.childNodes, Outside root w c := fun c hc => by
        refine (h.outside_or_eq ho hc).resolve_right ?_
        rintro rfl
        exact hl (.param hd hs hc)
      change Method.blockParamOf (replace w.id (w.inParens i e) params).childNodes =
        (Method.blockParamOf params.childNodes).map fun name => name
      rw [childNodes_replace (h.id_ne ho)]
      refine Method.blockParamOf_map (fun _ => Iff.rfl) (fun c hcp => kind_replace (h.id_ne (hc c hcp))) fun c hcp _ => ?_
      rw [slot_replace (h.id_ne (hc c hcp))]
      cases c.slot 0 <;> rfl

/-- A node above says of itself what it said without the parentheses. -/
theorem resembles_inParens (h : root.Replaces w (w.inParens i e)) (hp : Outside root w p) (hl : ¬ p.Lists w) :
    Resembles (fun name => name) p (replace w.id (w.inParens i e) p) where
  toSameForm := h.sameForm hp
  declares := fun hb _ => h.declares_inParens hp hb hl
  method := fun hd => h.renamed_inParens hp hd hl

end Replaces

end Node

/-! ## Checks -/

/-- The node `p'` is the node `p`, and says of itself what `p` says. -/
def Node.Remains (p p' : Node) : Prop := p'.id = p.id ∧ Resembles (fun name => name) p p'

namespace Tree

variable {t : Tree} {n n' w : Node} {i : Nat} {e : Extent}

/-- The node `n'` is the node `n` of the tree before, of the same shape and at the same place in the text, and the nodes
above are those that were above, each of which says of itself what it said. -/
structure Keeps (t t' : Tree) (n n' : Node) : Prop where
  mem : n' ∈ t'.nodes
  id : n'.id = n.id
  extent : n'.extent = n.extent
  kind : n'.kind = n.kind
  shape : ∀ e, n'.Shape e ↔ n.Shape e
  reads : ∀ p, n'.slot 0 = .text p ↔ n.slot 0 = .text p
  above : Parallel Node.Remains n (t.ancestors n) n' (t'.ancestors n')

theorem Keeps.mirrors {t' : Tree} (h : Keeps t t' n n') : Mirrors (fun name => name) t t' n n' where
  kind := h.kind
  shape := h.shape
  reads := fun _ => h.reads
  above := h.above.mono fun _ _ hp => hp.2

/-- **The method around** is given by the same definition. -/
theorem Keeps.enclosing? {t' : Tree} (h : Keeps t t' n n') :
    Option.Rel (fun m m' => m'.node.id = m.node.id ∧ m.Renamed (fun name => name) m') (Method.enclosing? t n)
      (Method.enclosing? t' n') :=
  h.above.enclosing? (fun _ _ hp => hp.2.kind) fun _ _ hp hd => ⟨hp.1, hp.2.method hd⟩

/-- **Every node** is still there when a node that is not looked up at its place has been put in parentheses. -/
theorem exists_keeps_inParens (hd : t.root.Distinct) (hw : w ∈ t.nodes) (hi : ∀ x ∈ t.nodes, x.id ≠ i)
    (hl : ∀ q ∈ t.nodes, ¬ q.Lists w) (hn : n ∈ t.nodes) : ∃ n', Keeps t (t.replace w (w.inParens i e)) n n' := by
  rw [nodes_eq] at hw hi hl hn
  have h : t.root.Replaces w (w.inParens i e) := Node.replaces_inParens hd hw hi
  have hR : ∀ p, Node.Outside t.root w p → p.Remains (Node.replace w.id (w.inParens i e) p) := fun p hp =>
    ⟨Node.id_replace (h.id_ne hp), h.resembles_inParens hp (hl p hp.1)⟩
  by_cases hnw : n ∈ w.preorder
  -- the line of a node below goes up to `w` as before, and then through the parentheses
  · obtain ⟨as, has⟩ := Node.exists_line hw
    obtain ⟨bs, hbs⟩ := Node.exists_line hnw
    have hnew := h.line_new has
    have hline := (Node.Line.child hnew (Node.mem_childNodes_of_slot (n := w.inParens i e) (i := 0) rfl)).trans hbs
    have hp : Parallel Node.Remains w as w (w.inParens i e :: as.map (Node.replace w.id (w.inParens i e))) :=
      .parenthesised rfl rfl (h.parallel_new hR has)
    have hmem : n ∈ (w.inParens i e).preorder := Node.preorder_inParens ▸ List.mem_cons_of_mem _ hnw
    refine ⟨n, mem_nodes_replace_of_mem h hmem, rfl, rfl, rfl, fun _ => Iff.rfl, fun _ => Iff.rfl, ?_⟩
    rw [ancestors_eq_of_line hd (has.trans hbs), ancestors_eq_of_line h.distinct_replace hline]
    exact Node.parallel_of_below (fun p => ⟨rfl, .refl p⟩) hbs hp
  · have hx : Node.Outside t.root w n := ⟨hn, hnw⟩
    obtain ⟨as, has⟩ := Node.exists_line hn
    refine ⟨_, mem_nodes_replace h hx, Node.id_replace (h.id_ne hx), Node.extent_replace (h.id_ne hx),
      Node.kind_replace (h.id_ne hx), fun _ => h.shape_replace Node.yields_inParens_iff hx, fun p => ?_, ?_⟩
    · rw [Node.slot_replace (h.id_ne hx), Slot.map_eq_text]
    · rw [ancestors_eq_of_line hd has, ancestors_eq_of_line h.distinct_replace (h.line has hx)]
      exact h.parallel_of_outside hR has hx

end Tree

namespace Rule

variable {r : Rule} {t t' : Tree} {n n' : Node}

/-- Of two nodes at the same place the same is said for the same advice. -/
theorem outcome_eq_map (hp : t'.path = t.path) (he : n'.extent = n.extent) (a? : Option Advice) :
    r.outcome t' n' a? = (r.outcome t n a?).map (Option.map fun v => { v with node := n' }) := by
  cases a? with
  | none => rfl
  | some a =>
    have hv : ∀ message, r.violation t' n' a message = { r.violation t n a message with node := n' } := fun message => by
      simp only [violation, Tree.location, Correction.ofNode, hp, he]
    rw [outcome, outcome]
    cases r.templates.message a with
    | error _ => rfl
    | ok message => exact congrArg (fun v => Except.ok (some v)) (hv message)

/-- **Parentheses change no verdict.** In a tree in which no node occurs twice, put parentheses around a node that is
neither the parameter list of a definition or of a block nor a parameter of a definition. Then every node of the tree is
still there, and a check returns for it what it returned before, with the same message, place and correction. Its value
is only tested if it was, the same names are hidden from it, and around it is the same method, with the same block
parameter and the same assignments. -/
theorem check_inParens (t : Tree) (w : Node) (i : Nat) (e : Extent) (hd : t.root.Distinct) (hw : w ∈ t.nodes)
    (hi : ∀ x ∈ t.nodes, x.id ≠ i) (hl : ∀ q ∈ t.nodes, ¬ q.Lists w) :
    let t' := t.replace w (w.inParens i e)
    t'.root.Distinct ∧ ∀ n ∈ t.nodes, ∃ n' ∈ t'.nodes, n'.id = n.id ∧
      (∀ r : Rule, (r.check t' n' Memo.empty).1.result =
        (r.check t n Memo.empty).1.result.map (Option.map fun v => { v with node := n' })) ∧
      t'.isOnlyTested n' = t.isOnlyTested n ∧
      (∀ name, t'.isHidden n' name = t.isHidden n name) ∧
      Option.Rel (fun m m' => m'.node.id = m.node.id ∧ m.Renamed (fun name => name) m') (Method.enclosing? t n)
        (Method.enclosing? t' n') := by
  intro t'
  have h : t.root.Replaces w (w.inParens i e) := Node.replaces_inParens hd (t.nodes_eq ▸ hw) (t.nodes_eq ▸ hi)
  refine ⟨h.distinct_replace, fun n hn => ?_⟩
  obtain ⟨n', hk⟩ := Tree.exists_keeps_inParens (e := e) hd hw hi hl hn
  have hm := hk.mirrors
  refine ⟨n', hk.mem, hk.id, fun r => ?_, hm.isOnlyTested_eq, hm.isHidden_eq, hk.enclosing?⟩
  rw [check_result, check_result, hm.advice?_eq (fun _ => Iff.rfl), Advice.map_rename_id]
  exact outcome_eq_map rfl hk.extent _

/-- In `def m(&block) = if block ...` the read of `block` is reported where calls are preferred, and it is reported in
parentheses. -/
theorem check_inParens_condition :
    let n : Node := ⟨4, .localRead, [.text "block"], .origin⟩
    let t := Tree.ofRoot (Node.definition 0 ⟨3, .cond, [.node n], .origin⟩) "m.rb"
    let t' := t.replace n (n.inParens 5 .origin)
    t.root.Distinct ∧ n ∈ t.nodes ∧ (∀ x ∈ t.nodes, x.id ≠ 5) ∧ (∀ q ∈ t.nodes, ¬ q.Lists n) ∧
      ∃ n' ∈ t'.nodes, n'.id = 4 ∧ ((uniform .call).check t' n' Memo.empty).1.result =
        .ok (some ⟨"Ask block.", "m.rb:1:0", n', some ⟨.origin, "block_given?"⟩⟩) := by
  intro n t t'
  have hd : t.root.Distinct := by unfold Node.Distinct; decide
  have hnodes : t.nodes = t.root.preorder := t.nodes_eq
  have hn : n ∈ t.nodes := by
    rw [hnodes]
    exact Node.mem_definition (Node.mem_preorder_of_mem_childNodes (Node.mem_childNodes_of_slot (i := 0) rfl))
  have hi : ∀ x ∈ t.nodes, x.id ≠ 5 := Tree.id_ne_of_not_mem_ids (by decide)
  have hl : ∀ q ∈ t.nodes, ¬ q.Lists n := by
    intro q hq hqn
    rw [hnodes] at hq
    simp only [t, n, Tree.ofRoot, Node.definition, Node.preorder, Node.preorderSlots, List.append_nil, List.mem_cons,
      List.cons_append, List.nil_append, List.not_mem_nil, or_false] at hq
    rcases hqn with ⟨hk, hs⟩ | ⟨hk, hs, hc⟩
    · rcases hq with rfl | rfl | rfl | rfl | rfl <;> simp [Node.paramsSlot, Node.slot, Kind.isDefinition, n] at hk hs
    · rcases hq with rfl | rfl | rfl | rfl | rfl <;> simp [Kind.isDefinition] at hk
      cases hs
      simp [Node.childNodes, Slot.node?, n] at hc
  obtain ⟨-, hkeeps⟩ := check_inParens t n 5 .origin hd hn hi hl
  obtain ⟨n', hn', hid, hcheck, -⟩ := hkeeps n hn
  have hv : ((uniform .call).check t n Memo.empty).1.result =
      .ok (some ⟨"Ask block.", "m.rb:1:0", n, some ⟨.origin, "block_given?"⟩⟩) := by cbv
  refine ⟨hd, hn, hi, hl, n', hn', hid, ?_⟩
  rw [hcheck, hv]
  rfl

end Rule

end BlockPresence
