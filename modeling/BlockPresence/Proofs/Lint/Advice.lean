import BlockPresence.Proofs.Lint.Objection

/-!
# Where a check gets its advice

`Rule.Objection` speaks of trees in which no node occurs twice and of an empty memo. Less holds of every tree and every
memo: a check that does not return nothing has an advice (`Rule.exists_advice_of_check`), and the advice is of one of two
forms, for a call or a probe and for a read of a block parameter (`Rule.adviceFor?_cases`). So whatever is reported is
an idiom other than the preferred one (`Rule.Reports.kind_eq`).
-/

namespace BlockPresence

/-- The kind of the nodes that an idiom is written as. -/
def Idiom.kind : Idiom → Kind
  | call => .call
  | probe => .definedQuery
  | truthiness => .localRead

theorem Idiom.concerns_kind (i : Idiom) : Rule.concerns i.kind = true := by cases i <;> rfl

theorem Idiom.kind_inj {i j : Idiom} (h : i.kind = j.kind) : i = j := by
  cases i <;> cases j <;> first | rfl | cases h

theorem Node.Shape.kind_eq {n : Node} {e : Idiom} (h : n.Shape e) : n.kind = e.kind := by
  cases h with
  | call hk _ => exact hk
  | probe hk _ _ => exact hk

namespace Rule

variable {r : Rule} {t : Tree} {n : Node} {memo : Memo} {m : Method} {param? : Option String} {a : Advice}

/-! ## The block parameter that is asked for -/

/-- `param?` is what a check of `n` may take for the usable block parameter of the method `m`, as some memo has it. -/
structure Asks (r : Rule) (n : Node) (m : Method) (param? : Option String) : Prop where
  ofDefinition : m = Method.ofDefinition m.node
  needed : param? ≠ none → r.needsParam n = true
  blockParam : ∀ p, param? = some p → m.blockParam = some p

theorem Asks.namesBlock {p : String} (h : r.Asks n m (some p)) : m.node.NamesBlock p := by
  rw [← Method.blockParam_ofDefinition, ← h.ofDefinition]
  exact h.blockParam p rfl

theorem Asks.ne_empty (h : r.Asks n m param?) : param? ≠ some "" := by
  rintro rfl
  exact h.namesBlock.ne_empty rfl

theorem blockParam_of_usableParam {p : String} (h : (memo.usableParam m).1 = some p) : m.blockParam = some p := by
  unfold Memo.usableParam at h
  cases hb : m.blockParam with
  | none => rw [hb] at h; cases h
  | some name =>
    simp only [hb] at h
    split at h
    · cases h
    · exact h

theorem asks_paramFor (hm : m = Method.ofDefinition m.node) : r.Asks n m (r.paramFor n m memo).1 := by
  unfold paramFor
  split
  · rename_i hn
    exact ⟨hm, fun _ => hn, fun p hp => blockParam_of_usableParam hp⟩
  · exact ⟨hm, fun h => absurd rfl h, fun _ hp => (nomatch hp)⟩

/-! ## Checks with any memo -/

theorem enclosing?_eq (h : Method.enclosing? t n = some m) : m = Method.ofDefinition m.node := by
  obtain ⟨d, -, rfl⟩ := Option.map_eq_some_iff.1 h
  rfl

/-- **A check that does not return nothing** has an advice for the method around the node, and ends as the advice says. -/
theorem exists_advice_of_check (h : (r.check t n memo).1.result ≠ .ok none) :
    ∃ m param? a, Method.enclosing? t n = some m ∧ r.Asks n m param? ∧ r.adviceFor? t n param? = some a ∧
      (r.check t n memo).1.result = r.outcome t n (some a) := by
  unfold check at *
  split at h
  · rename_i hk
    cases he : Method.enclosing? t n with
    | none =>
      rw [he] at h
      exact absurd rfl h
    | some m =>
      have hask : r.Asks n m (r.paramFor n m memo).1 := asks_paramFor (enclosing?_eq he)
      have hj := judge_result (r := r) (t := t) (n := n) hask.ne_empty m
      simp only [hk, he, if_true] at h ⊢
      rw [hj] at h ⊢
      cases ha : r.adviceFor? t n (r.paramFor n m memo).1 with
      | none =>
        rw [ha] at h
        exact absurd rfl h
      | some a => exact ⟨m, _, a, rfl, hask, ha, rfl⟩
  · exact absurd rfl h

/-- **An advice** is for a call or a probe, or else for a read of the block parameter. -/
theorem adviceFor?_cases (h : r.adviceFor? t n param? = some a) :
    (∃ e text, n.Shape e ∧ e ≠ r.preferred ∧ r.preferred.sourceText? param? = some text ∧
      a = ⟨⟨e, r.preferred⟩, text, param?⟩ ∧
      (r.preferred = .truthiness → param? = some text ∧ t.isHidden n text = false)) ∨
    ∃ p text, param? = some p ∧ n.TestsParam t p ∧ r.preferred ≠ .truthiness ∧
      r.preferred.sourceText? param? = some text ∧ a = ⟨⟨.truthiness, r.preferred⟩, text, param?⟩ := by
  obtain ⟨o, ho, ha, hh⟩ := adviceFor?_eq_some_iff.1 h
  obtain ⟨hne, hneed, text, htext, rfl⟩ := Style.adviceOn?_eq_some_iff.1 ha
  rcases Occurrence.of?_eq_some_iff.1 ho with ⟨e, he, rfl⟩ | ⟨p, hp, ht, rfl⟩
  · refine .inl ⟨e, text, he, hne, htext, rfl, fun hi => ?_⟩
    obtain ⟨p, rfl⟩ := Option.ne_none_iff_exists'.1 (hneed (.inr hi))
    have htp : Idiom.sourceText? (some p) .truthiness = some text := hi ▸ htext
    exact ⟨congrArg some (sourceText?_truthiness htp).symm, hh hi⟩
  · exact .inr ⟨p, text, hp, ht, Ne.symm hne, htext, rfl⟩

/-- A switch leads between two different idioms, and a name comes with it just if truthiness is one of them. -/
theorem switch_of_adviceFor? (hask : r.Asks n m param?) (h : r.adviceFor? t n param? = some a) :
    a.switch ∈ Switch.all ∧ a.switch.Fills (a.param.getD "") := by
  have hname : ∀ p, param? = some p → p ≠ "" := fun p hp he => hask.ne_empty (he ▸ hp)
  rcases adviceFor?_cases h with ⟨e, text, he, hne, -, rfl, htruth⟩ | ⟨p, text, hp, -, hi, -, rfl⟩
  · refine ⟨mem_switches hne, ?_⟩
    have hte : e ≠ .truthiness := (kind_ne_of_shape he).2.2
    by_cases hi : r.preferred = .truthiness
    · have hp := (htruth hi).1
      simp [Switch.Fills, hi, hp, hname text hp]
    · have hnp : param? = none := by
        by_contra hnp
        exact (needsParam_eq_true_iff.1 (hask.needed hnp)).elim hi (kind_ne_of_shape he).1
      simp [Switch.Fills, hi, hte, hnp]
  · exact ⟨mem_switches (Ne.symm hi), by simp [Switch.Fills, hp, hname p hp]⟩

/-! ## What is reported -/

/-- A check of the node, with nothing remembered, reports a violation. -/
def Reports (r : Rule) (t : Tree) (n : Node) : Prop := ∃ v, (r.check t n Memo.empty).1.result = .ok (some v)

/-- The violation that a check returns is about the node that was checked, and corrects just its text. -/
theorem exists_advice_of_violation {v : Violation} (h : (r.check t n memo).1.result = .ok (some v)) :
    ∃ m param? a message, Method.enclosing? t n = some m ∧ r.Asks n m param? ∧ r.adviceFor? t n param? = some a ∧
      v = r.violation t n a message := by
  have hne : (r.check t n memo).1.result ≠ .ok none := by simp [h]
  obtain ⟨m, param?, a, he, hask, ha, hout⟩ := exists_advice_of_check hne
  obtain ⟨b, message, hb, -, hv⟩ := outcome_eq_ok_some_iff.1 (hout.symm.trans h)
  obtain rfl : a = b := Option.some.inj hb
  exact ⟨m, param?, a, message, he, hask, ha, hv⟩

/-- What is reported is an idiom, and not the preferred one. -/
theorem exists_idiom_of_violation {v : Violation} (h : (r.check t n memo).1.result = .ok (some v)) :
    ∃ i, n.kind = i.kind ∧ i ≠ r.preferred := by
  obtain ⟨m, param?, a, message, -, -, ha, -⟩ := exists_advice_of_violation h
  rcases adviceFor?_cases ha with ⟨e, text, he, hne, -⟩ | ⟨p, text, -, ht, hi, -⟩
  · exact ⟨e, he.kind_eq, hne⟩
  · exact ⟨.truthiness, ht.1, Ne.symm hi⟩

theorem Reports.kind_eq (h : r.Reports t n) : ∃ i : Idiom, n.kind = i.kind ∧ i ≠ r.preferred := by
  obtain ⟨v, hv⟩ := h
  exact exists_idiom_of_violation hv

end Rule

end BlockPresence
