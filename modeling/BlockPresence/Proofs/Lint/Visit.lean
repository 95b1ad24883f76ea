import BlockPresence.Lint.Walk
import BlockPresence.Proofs.Lint.Check

/-!
# Visits

A visit is a check whose violation is announced, or nothing at all (`Checker.visit_eq`). So a memo does to a visit what it
does to a check (`Checker.visit_of_remembers`).
-/

namespace BlockPresence

/-- Whether a visitor hands a node on to the rule. -/
def Visitor.handsOn (v : Visitor) (n : Node) : Bool :=
  match v with
  | .call => Checker.wantedCalls.any fun s => (n.slot 1).isText s
  | .definedQuery | .localRead => true

namespace Checker

variable {c : Checker} {v : Visitor} {t : Tree} {n : Node}

/-- Logs the violation that a check found. -/
def announce (found : Traced (Option Violation)) : Traced (Option Violation) := do
  let violation? ← found
  if let some v := violation? then Traced.record (.reported v.code v.location v.message)
  return violation?

theorem visit_eq (c : Checker) (v : Visitor) (t : Tree) (n : Node) (memo : Memo) : c.visit v t n memo =
    if v.handsOn n then (announce (c.rule.check t n memo).1, (c.rule.check t n memo).2) else (pure none, memo) := by
  cases v <;> rfl

/-- The questions that a visit of a node asks. -/
def questions (c : Checker) (v : Visitor) (t : Tree) (n : Node) : List Question :=
  if v.handsOn n then c.rule.questions t n else []

/-- The visit of a node that has its questions answered by `scan`. -/
def visitBy (c : Checker) (scan : Method → String → Bool) (v : Visitor) (t : Tree) (n : Node) :
    Traced (Option Violation) :=
  if v.handsOn n then announce (c.rule.checkBy scan t n) else pure none

theorem fromDefinition_of_mem_questions {q : Question} (h : q ∈ c.questions v t n) : q.FromDefinition t.nodes := by
  unfold questions at h
  split at h
  · exact Rule.fromDefinition_of_mem_questions h
  · cases h

theorem visitBy_congr {scan scan' : Method → String → Bool}
    (h : ∀ q ∈ c.questions v t n, scan q.method q.name = scan' q.method q.name) :
    c.visitBy scan v t n = c.visitBy scan' v t n := by
  unfold visitBy
  by_cases hv : v.handsOn n = true
  · rw [questions, if_pos hv] at h
    rw [Rule.checkBy_congr h]
  · rw [if_neg hv, if_neg hv]

/-- **A visit with a memo** is the visit with its questions answered from memory, and they are remembered after it. -/
theorem visit_of_remembers {memo : Memo} {asked : List Question} (h : memo.Remembers asked) (c : Checker) (v : Visitor)
    (t : Tree) (n : Node) : (c.visit v t n memo).1 = c.visitBy (recalled asked) v t n ∧
      (c.visit v t n memo).2.Remembers (asked ++ c.questions v t n) := by
  rw [visit_eq, visitBy, questions]
  obtain ⟨hf, hm⟩ := Rule.check_of_remembers h c.rule t n
  by_cases hv : v.handsOn n = true
  · rw [if_pos hv, if_pos hv, if_pos hv, hf]
    exact ⟨rfl, hm⟩
  · rw [if_neg hv, if_neg hv, if_neg hv, List.append_nil]
    exact ⟨rfl, h⟩

end Checker

end BlockPresence
