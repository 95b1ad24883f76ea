import BlockPresence.Proofs.Lint.Mirror
import BlockPresence.Proofs.Tree.Rename

/-!
# Other names, other identities

A tree may get other identities, places and path, and other names for its local variables, given by a permutation of the
names: a check finds the same in it. It reports the node at the same place, for the same switch, and proposes the same text,
with the name changed where the text is a name (`Rule.check_rename`).

Whatever is asked of a node alone is the same after a relabelling (`Relabels.resembles`, `Relabels.shape_iff`). Two trees of
one look have nodes of one look at the same places, so they can be compared through it (`SamePlace.mirrors`).
-/

namespace BlockPresence

variable {f : String → String}

/-! ## What nodes say of themselves -/

namespace Kind

variable {k : Kind}

theorem namesLocal_of_isParam (h : k.isParam = true) : k.namesLocal = true := by
  cases k with
  | param _ => rfl
  | _ => cases h

theorem namesLocal_of_isDefinition (h : k.isDefinition = true) : k.namesLocal = false := by
  cases k with
  | method | singletonMethod => rfl
  | _ => cases h

end Kind

namespace Node.Relabels

variable {g : Node → Node} {n d b : Node}

theorem declares_eq (h : Relabels f g) (hf : f.Injective) (b : Node) (name : String) :
    (g b).declares (f name) = b.declares name := by
  have hq : ∀ q, ((g q).kind.isParam && ((g q).slot 0).isText (f name)) = (q.kind.isParam && (q.slot 0).isText name) :=
    fun q => by
      rw [h.kind]
      cases hq : q.kind.isParam with
      | true => rw [h.isText_slot_zero hf (Kind.namesLocal_of_isParam hq)]
      | false => rfl
  unfold declares
  rw [h.node?_slot]
  cases (b.slot 1).node? with
  | none => rfl
  | some params =>
    simp only [Option.map_some, h.descendants, List.any_map, Function.comp_def, hq]

theorem assigns_eq (h : Relabels f g) (hf : f.Injective) (d : Node) (name : String) :
    (Method.ofDefinition (g d)).assigns (f name) = (Method.ofDefinition d).assigns name := by
  have hw : ∀ w, (decide ((g w).kind = .localWrite) && ((g w).slot 0).isText (f name)) =
      (decide (w.kind = .localWrite) && (w.slot 0).isText name) := fun w => by
    rw [h.kind]
    by_cases hw : w.kind = .localWrite
    · rw [h.isText_slot_zero hf (by rw [hw]; rfl)]
    · simp only [hw, decide_false, Bool.false_and]
  simp only [Method.assigns, Method.ofDefinition, Method.nameSlot, h.kind, h.node?_slot]
  cases (d.slot _).node? with
  | none => rfl
  | some body =>
    simp only [Option.map_some, ← preorder_eq_cons, h.preorder, List.any_map, Function.comp_def, hw]

/-- **A method** is the method that it was, with the local names changed. -/
theorem renamed (h : Relabels f g) (hf : f.Injective) (he : ∀ p, f p = "" ↔ p = "") (hd : d.kind.isDefinition = true) :
    (Method.ofDefinition d).Renamed f (Method.ofDefinition (g d)) where
  name := by
    have hs := slot_eq_map (h.slots_of_not (Kind.namesLocal_of_isDefinition hd))
    simp only [Method.ofDefinition, Method.nameSlot, h.kind, hs, Slot.text?_map]
  blockParam := by
    simp only [Method.ofDefinition, Method.nameSlot, h.kind, h.node?_slot]
    cases (d.slot _).node? with
    | none => rfl
    | some params =>
      simp only [Option.map_some, Option.elim_some, h.childNodes]
      exact Method.blockParamOf_map he (fun c _ => h.kind c) fun c _ hb => h.text?_slot_zero (by rw [hb]; rfl)
  assigns := h.assigns_eq hf d

/-- **What a node says of itself** it says after a relabelling. -/
theorem resembles (h : Relabels f g) (hf : f.Injective) (he : ∀ p, f p = "" ↔ p = "") (n : Node) :
    Resembles f n (g n) where
  kind := h.kind n
  length := h.length n
  negates := by rw [h.slot_succ, Slot.isText_map]
  declares := fun _ => h.declares_eq hf n
  method := h.renamed hf he

theorem yields_iff (h : Relabels f g) (n : Node) : (g n).Yields ↔ n.Yields :=
  yields_map_iff (P := fun _ => True)
    (fun x _ => .inr ⟨h.kind x, fun hk => h.slots_of_not (by rw [hk]; rfl), fun _ _ => trivial⟩) trivial

theorem shape_iff (h : Relabels f g) (n : Node) {e : Idiom} : (g n).Shape e ↔ n.Shape e := by
  refine shape_map_iff (h.kind n) (fun hk => h.slots_of_not ?_) fun c _ => h.yields_iff c
  rcases hk with hk | hk
  · rw [hk]; rfl
  · rw [hk]; rfl

theorem reads_iff (h : Relabels f g) (hf : f.Injective) (hk : n.kind = .localRead) (p : String) :
    (g n).slot 0 = .text (f p) ↔ n.slot 0 = .text p := by
  rw [← Slot.isText_iff, h.isText_slot_zero hf (by rw [hk]; rfl), Slot.isText_iff]

end Node.Relabels

/-! ## Nodes at the same place -/

namespace Node.SamePlace

variable {t t' : Tree} {root root' n n' : Node} {g h : Node → Node}

/-- The lines above nodes at the same place go level. -/
theorem parallel (hg : Relabels f g) (hh : Relabels (fun s => s) h) (he : g root = h root') (hd : root.Distinct)
    (hd' : root'.Distinct) (hp : SamePlace root root' n n') :
    ∃ as as', Line root n as ∧ Line root' n' as' ∧ Parallel (fun p p' => g p = h p') n as n' as' := by
  induction hp with
  | root => exact ⟨[], [], .root, .root, .top⟩
  | @slot p p' c c' i hp hs hs' ih =>
    obtain ⟨as, as', hl, hl', hpar⟩ := ih
    have hdp := hd.of_mem hl.mem_preorder
    have hdp' := hd'.of_mem hl'.mem_preorder
    have h0 : (p'.slot 0).holds c' = (p.slot 0).holds c := by rw [hdp.holds_eq hs, hdp'.holds_eq hs']
    exact ⟨p :: as, p' :: as', .child hl (mem_childNodes_of_slot hs), .child hl' (mem_childNodes_of_slot hs'),
      .level (hp.relabels_eq hg hh he) h0 hpar⟩

/-- **Nodes at the same place** stand alike if their trees are the same after relabelling. -/
theorem mirrors (hg : Relabels f g) (hh : Relabels (fun s => s) h) (hf : f.Injective) (hempty : ∀ p, f p = "" ↔ p = "")
    (he : g t.root = h t'.root) (hd : t.root.Distinct) (hd' : t'.root.Distinct) (hp : SamePlace t.root t'.root n n') :
    Tree.Mirrors f t t' n n' := by
  have hn : g n = h n' := hp.relabels_eq hg hh he
  have hres : ∀ p p', g p = h p' → Resembles f p p' := fun p p' hpp =>
    (hg.resembles hf hempty p).cancel (hpp ▸ hh.resembles Function.injective_id (fun _ => Iff.rfl) p')
  obtain ⟨as, as', hl, hl', hpar⟩ := hp.parallel hg hh he hd hd'
  have hk : n'.kind = n.kind := (hres n n' hn).kind
  exact
    { kind := hk
      shape := fun e => by rw [← hh.shape_iff, ← hn, hg.shape_iff]
      reads := fun hread p => by
        rw [← hh.reads_iff Function.injective_id (hk.trans hread), ← hn, hg.reads_iff hf hread]
      above := by
        rw [Tree.ancestors_eq_of_line hd hl, Tree.ancestors_eq_of_line hd' hl']
        exact hpar.mono hres }

end Node.SamePlace

/-! ## Checks -/

namespace Rule

variable {r : Rule} {t : Tree} {n : Node} {s : Switch} {text : String}

/-- A check reports the node, for the switch `s` and in the words for it, and proposes the text `text`. -/
def Proposes (r : Rule) (t : Tree) (n : Node) (s : Switch) (text : String) : Prop :=
  ∃ a v, r.advice? t n = some a ∧ a.switch = s ∧ a.replacement = text ∧
    (r.check t n Memo.empty).1.result = .ok (some v) ∧ r.templates.message a = .ok v.message ∧
    v.correction = if r.config.autocorrect then some ⟨n.extent, text⟩ else none

/-- Where all templates can be filled a check reports what it decides to. -/
theorem proposes_iff (hd : t.root.Distinct) (hn : n ∈ t.nodes) (hts : r.templates.Complete) :
    r.Proposes t n s text ↔ ∃ a, r.advice? t n = some a ∧ a.switch = s ∧ a.replacement = text := by
  constructor
  · rintro ⟨a, _, ha, hs, ht, -⟩
    exact ⟨a, ha, hs, ht⟩
  · rintro ⟨a, ha, hs, rfl⟩
    obtain ⟨message, hm⟩ := message_of_objection hts ((advice?_eq_some_iff hd hn).1 ha)
    refine ⟨a, r.violation t n a message, ha, hs, rfl, ?_, hm, rfl⟩
    rw [check_result]
    exact outcome_eq_ok_some_iff.2 ⟨a, message, ha, hm, rfl⟩

theorem check_eq_none_iff : (r.check t n Memo.empty).1.result = .ok none ↔ r.advice? t n = none := by
  rw [check_result]
  cases r.advice? t n with
  | none => exact iff_of_true rfl rfl
  | some a =>
    rw [outcome]
    cases r.templates.message a <;> simp [Except.map]

theorem renameText_injective (f : Equiv.Perm String) (i : Idiom) : (i.renameText f).Injective := by
  unfold Idiom.renameText
  split
  · exact f.injective
  · exact Function.injective_id

/-- **Checks do not depend on identities and names.** Let `f` be a permutation of the names that keeps the empty one, and
let `t'` look as `t` does with the names of local variables changed by `f`, whatever its identities, places and path. Then
every node of `t` has a counterpart at its place in `t'`. A check reports nothing for the one just if it reports nothing
for the other. If all templates can be filled, it reports both for the same switch, and proposes the same text, changed
by `f` where truthiness is preferred and the text is a name. -/
theorem check_rename (f : Equiv.Perm String) (hf : f "" = "") (t t' : Tree) (hd : t.root.Distinct)
    (hd' : t'.root.Distinct) (hlook : t'.root.look = (t.root.rename f).look) :
    (∀ n ∈ t.nodes, ∃ n' ∈ t'.nodes, t.root.SamePlace t'.root n n') ∧
      ∀ n n', t.root.SamePlace t'.root n n' → ∀ r : Rule,
        ((r.check t' n' Memo.empty).1.result = .ok none ↔ (r.check t n Memo.empty).1.result = .ok none) ∧
        (r.templates.Complete → ∀ s text,
          (r.Proposes t' n' s (if s.preferred = .truthiness then f text else text) ↔ r.Proposes t n s text)) := by
  have hg := (Node.relabels_rename f).look
  have hh := Node.relabels_look
  have hempty : ∀ p, f p = "" ↔ p = "" := fun p => by rw [← f.injective.eq_iff (a := p), hf]
  refine ⟨fun n hn => ?_, fun n n' hp r => ?_⟩
  · obtain ⟨n', hp⟩ := Node.exists_samePlace hg hh hlook.symm (t.nodes_eq ▸ hn)
    exact ⟨n', t'.nodes_eq ▸ hp.mem_preorder.2, hp⟩
  · have ha := (hp.mirrors hg hh f.injective hempty hlook.symm hd hd').advice?_eq hempty r
    refine ⟨by rw [check_eq_none_iff, check_eq_none_iff, ha, Option.map_eq_none_iff], fun hts s text => ?_⟩
    have hn : n ∈ t.nodes := t.nodes_eq ▸ hp.mem_preorder.1
    have hn' : n' ∈ t'.nodes := t'.nodes_eq ▸ hp.mem_preorder.2
    rw [proposes_iff hd hn hts, proposes_iff hd' hn' hts, ha]
    constructor
    · rintro ⟨a', ha', rfl, ht⟩
      obtain ⟨a, ha, rfl⟩ := Option.map_eq_some_iff.1 ha'
      exact ⟨a, ha, rfl, renameText_injective f _ ht⟩
    · rintro ⟨a, ha, rfl, rfl⟩
      exact ⟨a.rename f, Option.map_eq_some_iff.2 ⟨a, ha, rfl⟩, rfl, rfl⟩

/-- In `def m(&block) = block_given?` the call is reported and `block` proposed, so in `def m(&blk) = block_given?` the
call is reported and `blk` proposed. -/
theorem check_rename_swap :
    let f := Equiv.swap "block" "blk"
    let t := Tree.ofRoot (Node.definition 0 (Node.blockGiven 3)) "m.rb"
    let param : Node := ⟨9, .param .block, [.text "blk"], .origin⟩
    let params : Node := ⟨8, Kind.args, [.node param], .origin⟩
    let t' := Tree.ofRoot ⟨7, .method, [.text "m", .node params, .node (Node.blockGiven 5)], .origin⟩ "n.rb"
    f "" = "" ∧ t.root.Distinct ∧ t'.root.Distinct ∧ t'.root.look = (t.root.rename f).look ∧
      t.root.SamePlace t'.root (Node.blockGiven 3) (Node.blockGiven 5) ∧ (uniform .truthiness).templates.Complete ∧
      (uniform .truthiness).Proposes t' (Node.blockGiven 5) ⟨.call, .truthiness⟩ "blk" := by
  intro f t param params t'
  have hf : f "" = "" := by decide
  have hd : t.root.Distinct := by unfold Node.Distinct; decide
  have hd' : t'.root.Distinct := by unfold Node.Distinct; decide
  have hlook : t'.root.look = (t.root.rename f).look := by rfl
  have hp : t.root.SamePlace t'.root (Node.blockGiven 3) (Node.blockGiven 5) := .slot (i := 2) .root rfl rfl
  have hts := uniform_complete .truthiness
  have ha : (uniform .truthiness).Proposes t (Node.blockGiven 3) ⟨.call, .truthiness⟩ "block" :=
    ⟨⟨⟨.call, .truthiness⟩, "block", some "block"⟩, ⟨"Ask block.", "m.rb:1:0", Node.blockGiven 3, some ⟨.origin, "block"⟩⟩,
      by cbv, rfl, rfl, by cbv, by cbv, by cbv⟩
  exact ⟨hf, hd, hd', hlook, hp, hts,
    (((check_rename f hf t t' hd hd' hlook).2 _ _ hp _).2 hts ⟨.call, .truthiness⟩ "block").2 ha⟩

end Rule

end BlockPresence
