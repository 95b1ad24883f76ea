import BlockPresence.Proofs.Lint.Objection
import BlockPresence.Proofs.Lint.Visit

/-!
# Walks and plain checks

The walk over a file picks visitors by name and shows a visitor not every call, and it keeps a memo. None of this is to be
seen in its report: it is what plain checks of all nodes find, in pre-order (`Checker.lint_eq`).

* Every node that the rule looks at has a visitor, and what the visitor keeps back is no violation
  (`Checker.visit_eq_announce`);
* so one visit finds what the plain check of its node finds (`Checker.visitNode_eq`), and so does the walk
  (`Checker.visitNodes_eq`).
-/

namespace BlockPresence

open Node (Coherent)

namespace Checker

variable {c : Checker} {t : Tree} {n : Node} {v : Visitor} {memo : Memo}

theorem announce_result (found : Traced (Option Violation)) : (announce found).result = found.result := by
  obtain ⟨log, _ | _ | v⟩ := found <;> rfl

/-! ## Visitors -/

theorem for?_of_concerns (h : Rule.concerns n.kind = true) : ∃ v, Visitor.for? n = some v ∧
    (v = .call → n.kind = .call) := by
  unfold Visitor.for?
  cases hk : n.kind with
  | call => exact ⟨.call, by decide, fun _ => rfl⟩
  | definedQuery => exact ⟨.definedQuery, by decide, fun h => (nomatch h)⟩
  | localRead => exact ⟨.localRead, by decide, fun h => (nomatch h)⟩
  | _ => rw [hk] at h; cases h

theorem plainCheck_of_not_concerns (r : Rule) (t : Tree) (h : ¬ Rule.concerns n.kind = true) :
    r.plainCheck t n = pure none := if_neg h

/-- A call of another method is no violation. -/
theorem plainCheck_of_call (r : Rule) (t : Tree) (hk : n.kind = .call) (h : (Visitor.call).handsOn n = false) :
    r.plainCheck t n = pure none := by
  have hno : ∀ param?, Occurrence.of? t n param? = none := fun param? => by
    refine Option.eq_none_iff_forall_ne_some.2 fun o ho => ?_
    rcases Occurrence.of?_eq_some_iff.1 ho with ⟨e, he, -⟩ | ⟨p, -, hp, -⟩
    · cases he with
      | call _ hs => simp [Visitor.handsOn, wantedCalls, Occurrence.callName, Node.slot, hs, Slot.isText] at h
      | probe hk' _ _ => rw [hk] at hk'; cases hk'
    · have hk' := hp.1
      rw [hk] at hk'
      cases hk'
  unfold Rule.plainCheck
  split
  · split
    · rfl
    · rw [Rule.judge, hno]
  · rfl

theorem handsOn_of_ne_call (h : v ≠ .call) : v.handsOn n = true := by
  cases v with
  | call => exact absurd rfl h
  | definedQuery => rfl
  | localRead => rfl

/-- What the visitor of a node keeps back is no violation. -/
theorem plainCheck_of_not_handsOn (r : Rule) (t : Tree) (hv : Visitor.for? n = some v) (h : v.handsOn n = false) :
    r.plainCheck t n = pure none := by
  have hcall : v = .call := by
    by_contra hne
    rw [handsOn_of_ne_call hne] at h
    cases h
  by_cases hk : Rule.concerns n.kind = true
  · obtain ⟨v', hv', hkind⟩ := for?_of_concerns hk
    rw [hv] at hv'
    cases hv'
    exact plainCheck_of_call r t (hkind hcall) (hcall ▸ h)
  · exact plainCheck_of_not_concerns r t hk

/-- **A visit is a plain check** whose violation is announced. -/
theorem visit_eq_announce (hm : memo.ScannedFrom t.nodes) (hc : Coherent t.nodes) (c : Checker)
    (hv : Visitor.for? n = some v) : (c.visit v t n memo).1 = announce (c.rule.plainCheck t n) ∧
      (c.visit v t n memo).2.ScannedFrom t.nodes := by
  rw [visit_eq]
  by_cases h : v.handsOn n = true
  · rw [if_pos h]
    obtain ⟨hf, hm'⟩ := Rule.check_of_scannedFrom hm hc c.rule n
    exact ⟨congrArg announce hf, hm'⟩
  · rw [if_neg h, plainCheck_of_not_handsOn c.rule t hv (Bool.eq_false_iff.2 h)]
    exact ⟨rfl, hm⟩

/-! ## Reports -/

/-- What the plain checks of some nodes find, in turn. -/
def plainReport (c : Checker) (t : Tree) (ns : List Node) : FileReport where
  findings := ns.flatMap fun n => findingsOf n (c.rule.plainCheck t n).result
  log := ns.flatMap fun n => (announce (c.rule.plainCheck t n)).log

/-- One step of a walk reports what the plain check of the node finds. -/
theorem visitNode_eq (hm : memo.ScannedFrom t.nodes) (hc : Coherent t.nodes) (c : Checker) (n : Node) :
    (c.visitNode t n memo).1 = c.plainReport t [n] ∧ (c.visitNode t n memo).2.ScannedFrom t.nodes := by
  simp only [plainReport, List.flatMap_singleton]
  unfold visitNode
  split
  · rename_i hv
    have hk : ¬ Rule.concerns n.kind = true := fun hk => by
      obtain ⟨v, hv', -⟩ := for?_of_concerns hk
      rw [hv] at hv'
      cases hv'
    rw [plainCheck_of_not_concerns c.rule t hk]
    exact ⟨rfl, hm⟩
  · rename_i v hv
    obtain ⟨hf, hm'⟩ := visit_eq_announce hm hc c hv
    simp only [hf, announce_result]
    exact ⟨trivial, hm'⟩

theorem plainReport_cons (c : Checker) (t : Tree) (n : Node) (ns : List Node) : c.plainReport t (n :: ns) =
    ⟨(c.plainReport t [n]).findings ++ (c.plainReport t ns).findings,
      (c.plainReport t [n]).log ++ (c.plainReport t ns).log⟩ := by
  simp only [plainReport, List.flatMap_cons, List.flatMap_nil, List.append_nil]

/-- A walk reports what the plain checks of its nodes find. -/
theorem visitNodes_eq (hc : Coherent t.nodes) (c : Checker) : ∀ (ns : List Node) {memo : Memo},
    memo.ScannedFrom t.nodes → (c.visitNodes t memo ns).1 = c.plainReport t ns
  | [], _, _ => rfl
  | n :: ns, memo, hm => by
    obtain ⟨hf, hm'⟩ := visitNode_eq hm hc c n
    rw [visitNodes, plainReport_cons, ← hf, ← visitNodes_eq hc c ns hm']

theorem lint_eq_map (c : Checker) : ∀ (files : List Tree) (memo : Memo), (∀ t ∈ files, Coherent t.nodes) →
    (c.lint memo files).1 = files.map fun t => c.plainReport t t.nodes
  | [], _, _ => rfl
  | t :: files, memo, h => by
    have ht := h t List.mem_cons_self
    rw [lint, openFile, List.map_cons, ← visitNodes_eq ht c t.nodes (Memo.empty_scannedFrom _),
      ← lint_eq_map c files (c.visitNodes t Memo.empty t.nodes).2 fun t' ht' => h t' (List.mem_cons_of_mem _ ht')]

end Checker

/-- What is delivered for a finding: a fault delivers nothing. -/
def Finding.delivered : Finding → Option Violation
  | .violation v => some v
  | .fault _ _ => none

/-- The violations that a report delivers, in turn. -/
def FileReport.violations (report : FileReport) : List Violation := report.findings.filterMap Finding.delivered

namespace Checker

/-- The violation that a computation ends with, if it does. -/
def violationOf (found : Except Fault (Option Violation)) : Option Violation := found.toOption.join

theorem filterMap_findingsOf (n : Node) (found : Except Fault (Option Violation)) :
    (findingsOf n found).filterMap Finding.delivered = (violationOf found).toList := by
  obtain _ | _ | v := found <;> rfl

theorem violations_plainReport (c : Checker) (t : Tree) (ns : List Node) :
    (c.plainReport t ns).violations = ns.filterMap fun n => violationOf (c.rule.plainCheck t n).result := by
  rw [FileReport.violations, plainReport, List.filterMap_flatMap]
  simp only [filterMap_findingsOf]
  exact (List.filterMap_eq_flatMap_toList _ _).symm

/-- **A walk loses nothing and adds nothing.** In every file let an id belong to one node only. Whatever the checker and
whatever its memo holds at first, linting files reports for each what the plain checks of all its nodes find, in
pre-order: the same violations, the same faults at the same nodes, and the same log. So it delivers the violations of
these checks and no others, and linting files together is linting each alone. -/
theorem lint_eq (c : Checker) (memo : Memo) (files : List Tree) (h : ∀ t ∈ files, Coherent t.nodes) :
    (c.lint memo files).1 = (files.map fun t => c.plainReport t t.root.preorder) ∧
    ((c.lint memo files).1.flatMap FileReport.violations) =
      (files.flatMap fun t => t.root.preorder.filterMap fun n => violationOf (c.rule.plainCheck t n).result) ∧
    (c.lint memo files).1 = files.flatMap fun t => (c.lint Memo.empty [t]).1 := by
  have hl : (c.lint memo files).1 = files.map fun t => c.plainReport t t.nodes := lint_eq_map c files memo h
  refine ⟨by simpa only [Tree.nodes_eq] using hl, ?_, ?_⟩
  · simp only [hl, List.flatMap_map, violations_plainReport, Tree.nodes_eq]
  · rw [hl, List.map_eq_flatMap]
    refine List.flatMap_congr fun t ht => ?_
    exact (lint_eq_map c [t] Memo.empty fun t' ht' => List.mem_singleton.1 ht' ▸ h t ht).symm

/-- Two files in which nodes of one id differ: the memo of the first says nothing about the second. -/
theorem lint_eq_two_files :
    let c : Checker := ⟨Rule.uniform .truthiness⟩
    let files := [Tree.ofRoot (Node.definition 0 (Node.blockGiven 3)) "m.rb",
      Tree.ofRoot (Node.definition 0 ⟨3, .localWrite, [.text "block"], .origin⟩) "n.rb"]
    (∀ t ∈ files, Coherent t.nodes) ∧
      ((c.lint Memo.empty files).1.flatMap FileReport.violations) =
        (files.flatMap fun t => t.root.preorder.filterMap fun n => violationOf (c.rule.plainCheck t n).result) := by
  intro c files
  have hc : ∀ t ∈ files, Coherent t.nodes := by
    intro t ht
    have hd : t.root.Distinct := by
      simp only [files, List.mem_cons, List.not_mem_nil, or_false] at ht
      rcases ht with rfl | rfl <;> (unfold Node.Distinct; decide)
    exact t.nodes_eq ▸ hd.coherent
  exact ⟨hc, (lint_eq c Memo.empty files hc).2.1⟩

end Checker

end BlockPresence
