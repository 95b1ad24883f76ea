import BlockPresence.Proofs.Advice.Edits
import BlockPresence.Proofs.Lint.Advice
import BlockPresence.Proofs.Lint.Walk
import BlockPresence.Proofs.Tree.Extents

/-!
# Corrections that overlap

The recognisers do not look at everything below a node: the arguments of a `yield` are of no account to a probe, nor is
anything that stands behind the slot they read (`Node.Overlooks`). Only there can another violation stand below a violation
(`Rule.overlooks_of_violations`). So the corrections of one walk lie apart but for these, and of such two the inner one
lies within the outer one. Where a host leaves the inner ones out, it can carry out corrections from right to left: each
finds the text before its end as it was (`Checker.lint_apart`).
-/

namespace BlockPresence

namespace Node

variable {n x y : Node}

/-! ## What a recogniser overlooks -/

/-- The node `n` is the call `y` of the passed block, possibly in parentheses. -/
inductive YieldsBy : Node → Node → Prop
  | bare {n : Node} : n.kind = .yielding → YieldsBy n n
  | parenthesised {n m y : Node} : n.kind = .group → n.slots = [.node m] → YieldsBy m y → YieldsBy n y

/-- The node `x` stands below `n` where the recogniser of `n` does not look: in the arguments of the `yield` of a probe, or
behind the first slot of a query or of a read of a local variable. -/
inductive Overlooks (n x : Node) : Prop
  | argument {operand y : Node} : n.kind = .definedQuery → n.slot 0 = .node operand → operand.YieldsBy y →
      x ∈ y.descendants → Overlooks n x
  | surplus {i : Nat} {c : Node} : n.kind = .definedQuery ∨ n.kind = .localRead → 0 < i → n.slot i = .node c →
      x ∈ c.preorder → Overlooks n x

/-- In a call of the passed block, what a rule looks at is below the call itself. -/
theorem Yields.exists_yieldsBy (h : n.Yields) (hx : x ∈ n.preorder) (hk : Rule.concerns x.kind = true) :
    ∃ y, n.YieldsBy y ∧ x ∈ y.descendants := by
  induction h with
  | @bare n hn =>
    refine ⟨n, .bare hn, ?_⟩
    rw [preorder_eq_cons, List.mem_cons] at hx
    refine hx.resolve_left ?_
    rintro rfl
    rw [hn] at hk
    cases hk
  | @parenthesised n m hn hs _ ih =>
    rcases mem_preorder.1 hx with rfl | ⟨c, hc, hx⟩
    · rw [hn] at hk
      cases hk
    · have hcm : c = m := by
        rw [childNodes, hs] at hc
        exact List.mem_singleton.1 hc
      obtain ⟨y, hy, hxy⟩ := ih (hcm ▸ hx)
      exact ⟨y, .parenthesised hn hs hy, hxy⟩

theorem Overlooks.mem_descendants (h : n.Overlooks x) : x ∈ n.descendants := by
  have hyields : ∀ {m y : Node}, m.YieldsBy y → y ∈ m.preorder := fun h => by
    induction h with
    | @bare n _ => exact n.self_mem_preorder
    | parenthesised _ hs _ ih => exact mem_preorder_of_child (mem_childNodes_of_mem_slots (hs ▸ List.mem_cons_self)) ih
  cases h with
  | argument _ h0 hy hx =>
    refine Node.mem_descendants.2 ⟨_, mem_childNodes_of_slot h0, mem_preorder_trans ?_ (hyields hy)⟩
    rw [preorder_eq_cons]
    exact List.mem_cons_of_mem _ hx
  | surplus _ _ hi hx => exact Node.mem_descendants.2 ⟨_, mem_childNodes_of_slot hi, hx⟩

end Node

namespace Rule

variable {r : Rule} {t : Tree} {x y : Node} {memo : Memo} {v : Violation}

/-- **Below a violation** another one is overlooked. -/
theorem overlooks_of_violations (hx : (r.check t x memo).1.result = .ok (some v)) (hy : Rule.concerns y.kind = true)
    (hyx : y ∈ x.descendants) : x.Overlooks y := by
  obtain ⟨m, param?, a, message, -, -, ha, -⟩ := exists_advice_of_violation hx
  obtain ⟨c, hc, hyc⟩ := Node.mem_descendants.1 hyx
  obtain ⟨i, hi⟩ := Node.exists_slot_of_mem_childNodes hc
  rcases adviceFor?_cases ha with ⟨e, text, he, -⟩ | ⟨p, text, -, ⟨hk, h0, -⟩, -⟩
  · cases he with
    | call _ hs =>
      rw [Node.childNodes, hs] at hc
      cases hc
    | @probe operand hk h0 hop =>
      rcases Nat.eq_zero_or_pos i with rfl | hpos
      · rw [h0] at hi
        cases hi
        obtain ⟨z, hz, hyz⟩ := hop.exists_yieldsBy hyc hy
        exact .argument hk h0 hz hyz
      · exact .surplus (.inl hk) hpos hi hyc
  · rcases Nat.eq_zero_or_pos i with rfl | hpos
    · rw [h0] at hi
      cases hi
    · exact .surplus (.inr hk) hpos hi hyc

end Rule

/-! ## Corrections of a walk -/

/-- Both violations come with corrections, of which one ends before the other one starts, unless the node of `v` overlooks
that of `w`. Then the correction of `w` lies within that of `v`. -/
def Violation.Apart (v w : Violation) : Prop :=
  ∃ c d, v.correction = some c ∧ w.correction = some d ∧
    ((c.extent.stop ≤ d.extent.start ∨ d.extent.stop ≤ c.extent.start) ∨
      v.node.Overlooks w.node ∧ d.extent.Within c.extent)

namespace Checker

variable {c : Checker} {t : Tree} {memo : Memo} {n : Node} {v w : Violation}

/-- The violation is that of a check of its own node, and corrects the text of this node. -/
structure Finds (c : Checker) (t : Tree) (v : Violation) : Prop where
  mem : v.node ∈ t.nodes
  check : (c.rule.check t v.node Memo.empty).1.result = .ok (some v)
  concerns : Rule.concerns v.node.kind = true
  correction : ∃ e, v.correction = some e ∧ e.extent = v.node.extent

theorem violationOf_eq_some_iff {found : Except Fault (Option Violation)} :
    violationOf found = some v ↔ found = .ok (some v) := by
  obtain _ | _ | w := found <;> simp [violationOf, Except.toOption]

theorem finds_of_plainCheck (ha : c.rule.config.autocorrect = true) (hn : n ∈ t.nodes)
    (h : violationOf (c.rule.plainCheck t n).result = some v) : v.node = n ∧ c.Finds t v := by
  have hv : (c.rule.check t n Memo.empty).1.result = .ok (some v) := by
    rw [Rule.check_empty]
    exact violationOf_eq_some_iff.1 h
  obtain ⟨i, hk, -⟩ := Rule.exists_idiom_of_violation hv
  obtain ⟨m, param?, a, message, -, -, -, rfl⟩ := Rule.exists_advice_of_violation hv
  have hcn : Rule.concerns n.kind = true := by rw [hk, i.concerns_kind]
  exact ⟨rfl, hn, hv, hcn, _, if_pos ha, rfl⟩

theorem violations_lint (hc : Node.Coherent t.nodes) (c : Checker) (memo : Memo) :
    (c.lint memo [t]).1.flatMap FileReport.violations =
      t.nodes.filterMap fun n => violationOf (c.rule.plainCheck t n).result := by
  rw [lint_eq_map c [t] memo fun t' ht' => List.mem_singleton.1 ht' ▸ hc]
  simp only [List.map_cons, List.map_nil, List.flatMap_cons, List.flatMap_nil, List.append_nil, violations_plainReport]

theorem apart_of_finds (hl : t.root.LaidOut) (hv : c.Finds t v) (hw : c.Finds t w)
    (h : w.node ∈ v.node.descendants ∨ v.node.extent.Apart w.node.extent) : v.Apart w := by
  obtain ⟨d, hvd, hd⟩ := hv.correction
  obtain ⟨e, hwe, he⟩ := hw.correction
  have hvr : v.node ∈ t.root.preorder := t.nodes_eq ▸ hv.mem
  have hwr : w.node ∈ t.root.preorder := t.nodes_eq ▸ hw.mem
  refine ⟨d, e, hvd, hwe, ?_⟩
  rw [hd, he]
  rcases h with h | h
  · refine .inr ⟨Rule.overlooks_of_violations hv.check hw.concerns h, (hl.of_mem hvr).within_of_mem ?_⟩
    rw [Node.preorder_eq_cons]
    exact List.mem_cons_of_mem _ h
  · exact .inl (h.stop_le (hl.nonempty _ hvr hv.concerns) (hl.nonempty _ hwr hw.concerns))

theorem pairwise_violations (hl : t.root.LaidOut) (ha : c.rule.config.autocorrect = true) :
    (t.nodes.filterMap fun n => violationOf (c.rule.plainCheck t n).result).Pairwise Violation.Apart := by
  rw [List.pairwise_filterMap, Tree.nodes_eq]
  refine hl.pairwise_preorder.imp_of_mem fun {x y} hx hy hxy v hv w hw => ?_
  obtain ⟨hvx, hv⟩ := finds_of_plainCheck ha (t.nodes_eq ▸ hx) hv
  obtain ⟨hwy, hw⟩ := finds_of_plainCheck ha (t.nodes_eq ▸ hy) hw
  exact apart_of_finds hl hv hw (by rwa [hvx, hwy])

/-- Of two corrections that lie apart, the one further to the left ends before the other one starts. -/
theorem stop_le_of_apart (hl : t.root.LaidOut) (hv : c.Finds t v) (hw : c.Finds t w) (h : v.Apart w ∨ w.Apart v)
    (hvw : ¬ v.node.Overlooks w.node ∧ ¬ w.node.Overlooks v.node) {d e : Correction} (hd : v.correction = some d)
    (he : w.correction = some e) (hle : e.extent.start ≤ d.extent.start) : e.extent.stop ≤ d.extent.start := by
  have hnonempty : ∀ {u : Violation} {f : Correction}, c.Finds t u → u.correction = some f →
      f.extent.start < f.extent.stop := fun {u f} hu hf => by
    obtain ⟨f', hf', hext⟩ := hu.correction
    cases hf.symm.trans hf'
    rw [hext]
    exact hl.nonempty _ (t.nodes_eq ▸ hu.mem) hu.concerns
  have hdn := hnonempty hv hd
  have hen := hnonempty hw he
  rcases h with ⟨d', e', hd', he', h⟩ | ⟨e', d', he', hd', h⟩
  · cases hd.symm.trans hd'
    cases he.symm.trans he'
    have := h.resolve_right fun ho => hvw.1 ho.1
    omega
  · cases hd.symm.trans hd'
    cases he.symm.trans he'
    have := h.resolve_right fun ho => hvw.2 ho.1
    omega

/-- **The corrections of one walk** lie apart, of a tree that a parser has laid out, unless one belongs to a probe or a
read whose recogniser overlooks the node of the other one. Then the other one lies within the first.

A host may choose from the violations some of which none is overlooked by another one, and carry out their corrections from
right to left. When the turn is on a correction, all of the text up to its end is still the source. -/
theorem lint_apart (c : Checker) (memo : Memo) (t : Tree) (hc : Node.Coherent t.nodes) (hl : t.root.LaidOut)
    (ha : c.rule.config.autocorrect = true) :
    ((c.lint memo [t]).1.flatMap FileReport.violations).Pairwise Violation.Apart ∧
    ∀ (source : String) (chosen : List Violation), t.root.extent.stop ≤ source.toList.length →
      chosen.Subperm ((c.lint memo [t]).1.flatMap FileReport.violations) →
      (chosen.Pairwise fun v w => ¬ v.node.Overlooks w.node ∧ ¬ w.node.Overlooks v.node) →
      (chosen.Pairwise fun v w => w.node.extent.start ≤ v.node.extent.start) →
      ∀ done v rest e, chosen = done ++ v :: rest → v.correction = some e →
        ∃ after, (Correction.applyAll (done.filterMap Violation.correction) source).toList =
          source.toList.take e.extent.stop ++ after := by
  rw [violations_lint hc]
  have hpw := pairwise_violations hl ha
  refine ⟨hpw, ?_⟩
  rintro source chosen hsource ⟨picked, hperm, hsub⟩ hover horder done v rest e rfl he
  have hfinds : ∀ w ∈ done ++ v :: rest, c.Finds t w := fun w hw => by
    obtain ⟨n, hn, hnw⟩ := List.mem_filterMap.1 (hsub.subset (hperm.mem_iff.2 hw))
    exact (finds_of_plainCheck ha hn hnw).2
  have hboth : (done ++ v :: rest).Pairwise fun v w => v.Apart w ∨ w.Apart v := by
    refine (hperm.pairwise_iff fun h => h.symm).1 ?_
    exact (hpw.sublist hsub).imp .inl
  have hv := hfinds v (by simp)
  obtain ⟨e', he', hext⟩ := hv.correction
  cases he.symm.trans he'
  have hvr : v.node ∈ t.root.preorder := t.nodes_eq ▸ hv.mem
  have hstop : e.extent.stop ≤ source.toList.length := by
    rw [hext]
    exact Nat.le_trans (hl.within_of_mem hvr).2 hsource
  refine Correction.toList_applyAll (List.take_append_drop e.extent.stop source.toList).symm fun d hd => ?_
  obtain ⟨w, hw, hwd⟩ := List.mem_filterMap.1 hd
  have hwf := hfinds w (by simp [hw])
  obtain ⟨d', hd', hdext⟩ := hwf.correction
  cases hwd.symm.trans hd'
  have hpair : ∀ {R : Violation → Violation → Prop}, (done ++ v :: rest).Pairwise R → R w v := fun h =>
    (List.pairwise_append.1 h).2.2 w hw v List.mem_cons_self
  have hle : e.extent.start ≤ d.extent.start := by
    rw [hext, hdext]
    exact hpair horder
  rw [List.length_take, Nat.min_eq_left hstop]
  exact stop_le_of_apart hl hwf hv (hpair hboth) (hpair hover) hwd he hle

/-! ## Nested calls -/

namespace NestedCalls

def source : String := "def m(&block)\n  block_given? && defined?(yield(block_given?))\nend\n"

/-- The first call in `source`. -/
def call : Node := ⟨4, .call, [.empty, .text "block_given?"], { start := 16, stop := 28 }⟩

/-- The call in the arguments of the `yield`. -/
def inner : Node := ⟨7, .call, [.empty, .text "block_given?"], { start := 47, stop := 59 }⟩

def probe : Node :=
  ⟨5, .definedQuery, [.node ⟨6, .yielding, [.node inner], { start := 41, stop := 60 }⟩], { start := 32, stop := 61 }⟩

/-- The tree of `source`. -/
def tree : Tree :=
  let param : Node := ⟨2, .param .block, [.text "block"], { start := 6, stop := 12 }⟩
  let params : Node := ⟨1, .args, [.node param], { start := 5, stop := 13 }⟩
  let body : Node := ⟨3, .conj, [.node call, .node probe], { start := 16, stop := 61 }⟩
  Tree.ofRoot ⟨0, .method, [.text "m", .node params, .node body], { start := 0, stop := 65 }⟩ "m.rb"

theorem distinct : tree.root.Distinct := by unfold Node.Distinct; decide

theorem laidOut : tree.root.LaidOut := by
  refine .of_ordered ?_
  decide

/-- What is reported at a node of `tree` where truthiness is preferred. -/
def askBlock (n : Node) : Violation := ⟨"Ask block.", "m.rb:1:0", n, some ⟨n.extent, "block"⟩⟩

theorem violations_lint_tree : ((⟨Rule.uniform .truthiness⟩ : Checker).lint Memo.empty [tree]).1.flatMap
    FileReport.violations = [askBlock call, askBlock probe, askBlock inner] := by
  have hcall : ((Rule.uniform .truthiness).plainCheck tree call).result = .ok (some (askBlock call)) := by cbv
  have hprobe : ((Rule.uniform .truthiness).plainCheck tree probe).result = .ok (some (askBlock probe)) := by cbv
  have hinner : ((Rule.uniform .truthiness).plainCheck tree inner).result = .ok (some (askBlock inner)) := by cbv
  have hsilent : ∀ n : Node, Rule.concerns n.kind = false →
      violationOf ((Rule.uniform .truthiness).plainCheck tree n).result = none := fun n hn => by
    rw [plainCheck_of_not_concerns _ _ (by rw [hn]; exact Bool.false_ne_true)]
    rfl
  obtain ⟨d, ps, p, b, y, hpre, hd, hps, hp, hb, hy⟩ : ∃ d ps p b y : Node,
      tree.root.preorder = [d, ps, p, b, call, probe, y, inner] ∧ Rule.concerns d.kind = false ∧
      Rule.concerns ps.kind = false ∧ Rule.concerns p.kind = false ∧ Rule.concerns b.kind = false ∧
      Rule.concerns y.kind = false := ⟨_, _, _, _, _, rfl, rfl, rfl, rfl, rfl, rfl⟩
  rw [violations_lint (Tree.coherent_nodes distinct), Tree.nodes_eq, hpre]
  simp only [List.filterMap_cons, List.filterMap_nil, hsilent d hd, hsilent ps hps, hsilent p hp, hsilent b hb,
    hsilent y hy, violationOf_eq_some_iff.2 hcall, violationOf_eq_some_iff.2 hprobe, violationOf_eq_some_iff.2 hinner]

theorem not_overlooks_call : ¬ probe.Overlooks call ∧ ¬ call.Overlooks probe := by
  have hfar : ∀ n m : Node, m.id ∉ n.preorder.map Node.id → ¬ n.Overlooks m := fun n m h ho => by
    rw [Node.preorder_eq_cons] at h
    exact h (List.mem_map_of_mem (List.mem_cons_of_mem _ ho.mem_descendants))
  exact ⟨hfar _ _ (by decide), hfar _ _ (by decide)⟩

end NestedCalls

/-- The first call and the probe lie apart: once the probe is replaced, the text up to the end of the call is that of the
source. -/
theorem lint_apart_nested_calls :
    let violations := ((⟨Rule.uniform .truthiness⟩ : Checker).lint Memo.empty [NestedCalls.tree]).1.flatMap
      FileReport.violations
    let chosen := [NestedCalls.askBlock NestedCalls.probe, NestedCalls.askBlock NestedCalls.call]
    Node.Coherent NestedCalls.tree.nodes ∧ NestedCalls.tree.root.LaidOut ∧ violations.Pairwise Violation.Apart ∧
    chosen.Subperm violations ∧
    ∃ after, (Correction.applyAll [⟨NestedCalls.probe.extent, "block"⟩] NestedCalls.source).toList =
      NestedCalls.source.toList.take 28 ++ after := by
  intro violations chosen
  have hc : Node.Coherent NestedCalls.tree.nodes := Tree.coherent_nodes NestedCalls.distinct
  obtain ⟨hapart, hhost⟩ := lint_apart ⟨Rule.uniform .truthiness⟩ Memo.empty NestedCalls.tree hc NestedCalls.laidOut rfl
  have hsub : chosen.Subperm violations := by
    rw [show violations = _ from NestedCalls.violations_lint_tree]
    exact ⟨[_, _], .swap _ _ _, .cons_cons _ (.cons_cons _ (List.nil_sublist _))⟩
  refine ⟨hc, NestedCalls.laidOut, hapart, hsub, ?_⟩
  refine hhost NestedCalls.source chosen (by decide) hsub ?_ ?_ [NestedCalls.askBlock NestedCalls.probe] _ [] _ rfl rfl
  · simpa [chosen, NestedCalls.askBlock] using NestedCalls.not_overlooks_call
  · simp [chosen, NestedCalls.askBlock, NestedCalls.probe, NestedCalls.call]

/-- In the same tree the correction of the inner call lies within that of the probe. A host that carries out all of them
loses the end of the text. -/
theorem lint_corrections_overlap :
    let violations := ((⟨Rule.uniform .truthiness⟩ : Checker).lint Memo.empty [NestedCalls.tree]).1.flatMap
      FileReport.violations
    NestedCalls.tree.root.LaidOut ∧ (Rule.uniform .truthiness).config.autocorrect = true ∧
    (∃ v ∈ violations, ∃ w ∈ violations, v.node.id ≠ w.node.id ∧ ∃ d e, v.correction = some d ∧
      w.correction = some e ∧ ¬ d.extent.Apart e.extent) ∧
    Correction.applyAll (violations.reverse.filterMap Violation.correction) NestedCalls.source =
      "def m(&block)\n  block && block" := by
  intro violations
  have hv : violations = _ := NestedCalls.violations_lint_tree
  rw [hv]
  refine ⟨NestedCalls.laidOut, rfl, ⟨_, .tail _ (.head _), _, .tail _ (.tail _ (.head _)), ?_, _, _, rfl, rfl, ?_⟩, ?_⟩
  · decide
  · intro h
    exact h 50 ⟨by decide, by decide⟩ ⟨by decide, by decide⟩
  · decide

end Checker

end BlockPresence
