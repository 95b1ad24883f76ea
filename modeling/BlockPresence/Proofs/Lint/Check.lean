import BlockPresence.Lint.Rule
import BlockPresence.Proofs.Method.Recall
import BlockPresence.Proofs.Tree.Ancestors

/-!
# Checks with and without a memo

`Rule.checkBy scan` is the check with `scan` to answer the questions that it asks (`Rule.questions`). A memo makes no
other difference to a check than that its questions are answered by what the memo remembers (`Rule.check_of_remembers`),
so that with an empty memo the check is the plain one (`Rule.check_empty`), and with one that has only seen the
definitions of the tree (`Rule.check_of_scannedFrom`).
-/

namespace BlockPresence

namespace Rule

variable {r : Rule} {t : Tree} {n : Node}

/-- The questions that a check of a node asks. -/
def questions (r : Rule) (t : Tree) (n : Node) : List Question :=
  if concerns n.kind && r.needsParam n then (Method.enclosing? t n).elim [] Method.questions else []

/-- The check of a node that has its questions answered by `scan`. -/
def checkBy (r : Rule) (scan : Method → String → Bool) (t : Tree) (n : Node) : Traced (Option Violation) :=
  if concerns n.kind then
    match Method.enclosing? t n with
    | none => pure none
    | some method => r.judge t n method (if r.needsParam n then method.usableParamBy scan else none)
  else pure none

theorem fromDefinition_of_mem_questions {q : Question} (h : q ∈ r.questions t n) : q.FromDefinition t.nodes := by
  unfold questions Method.enclosing? at h
  split at h
  · obtain ⟨m, hm, hq⟩ : ∃ m, (t.ancestors n).find? (fun a => a.kind.isDefinition) = some m ∧
        q ∈ (Method.ofDefinition m).questions := by
      cases hf : (t.ancestors n).find? fun a => a.kind.isDefinition with
      | none => rw [hf] at h; cases h
      | some m => exact ⟨m, rfl, by rwa [hf] at h⟩
    obtain ⟨name, -, rfl⟩ := List.mem_map.1 hq
    exact ⟨Tree.mem_nodes_of_mem_ancestors (List.mem_of_find?_eq_some hm), rfl⟩
  · cases h

theorem checkBy_assigns (r : Rule) (t : Tree) (n : Node) : r.checkBy Method.assigns t n = r.plainCheck t n := rfl

theorem checkBy_congr {scan scan' : Method → String → Bool}
    (h : ∀ q ∈ r.questions t n, scan q.method q.name = scan' q.method q.name) :
    r.checkBy scan t n = r.checkBy scan' t n := by
  unfold checkBy questions at *
  by_cases hk : concerns n.kind = true
  · cases he : Method.enclosing? t n with
    | none => rfl
    | some m =>
      by_cases hp : r.needsParam n = true
      · simp only [hk, hp, he, Bool.and_self, if_true, Option.elim_some] at h ⊢
        rw [Method.usableParamBy_congr h]
      · simp [hp]
  · simp [hk]

/-- **A check with a memo** is the check with its questions answered from memory, and they are remembered after it. -/
theorem check_of_remembers {memo : Memo} {asked : List Question} (h : memo.Remembers asked) (r : Rule) (t : Tree)
    (n : Node) : (r.check t n memo).1 = r.checkBy (recalled asked) t n ∧
      (r.check t n memo).2.Remembers (asked ++ r.questions t n) := by
  unfold check checkBy questions
  by_cases hk : concerns n.kind = true
  · cases he : Method.enclosing? t n with
    | none => simpa [hk] using h
    | some m =>
      by_cases hp : r.needsParam n = true
      · obtain ⟨hf, hm⟩ := h.usableParam m
        simp only [hk, hp, Bool.and_self, if_true, Option.elim_some, paramFor, hf, true_and]
        exact hm
      · simpa [hk, hp, paramFor] using h
  · simpa [hk] using h

/-- **A check is the plain one** with a memo that was only ever asked about definitions of the tree. -/
theorem check_of_scannedFrom {memo : Memo} (h : memo.ScannedFrom t.nodes) (hc : Node.Coherent t.nodes) (r : Rule)
    (n : Node) : (r.check t n memo).1 = r.plainCheck t n ∧ (r.check t n memo).2.ScannedFrom t.nodes := by
  obtain ⟨asked, hm, ha⟩ := h
  obtain ⟨hf, hm'⟩ := check_of_remembers hm r t n
  refine ⟨?_, asked ++ r.questions t n, hm', fun q hq => ?_⟩
  · rw [hf, ← checkBy_assigns]
    exact checkBy_congr fun q hq => recalled_eq_assigns hc ha (fromDefinition_of_mem_questions hq)
  · rcases List.mem_append.1 hq with hq | hq
    · exact ha q hq
    · exact fromDefinition_of_mem_questions hq

theorem check_empty (r : Rule) (t : Tree) (n : Node) : (r.check t n Memo.empty).1 = r.plainCheck t n := by
  rw [(check_of_remembers Memo.remembers_empty r t n).1, recalled_nil, checkBy_assigns]

end Rule

end BlockPresence
