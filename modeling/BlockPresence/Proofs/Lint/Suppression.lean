import BlockPresence.Proofs.Lint.Advice

/-!
# Calls and probes of which nothing is reported

A call or a probe that is not the preferred idiom is reported, or else there is a reason why it is not: the method has no
block parameter that can be used, or a block hides it (`Rule.Suppressed`). In a method the reason is written to the log
just where nothing is reported (`Rule.check_reports_or_records`). Outside of methods nothing is reported and nothing is
written (`Rule.check_silent_outside_methods`).
-/

namespace BlockPresence

/-! ## What a style writes to the log -/

namespace Style

variable {s : Style} {o : Occurrence} {m : Method} {param? : Option String} {text : String}

theorem advise_of_missing (hne : o.idiom ≠ s.preferred) (hs : s.preferred = .truthiness) :
    s.advise o (some m) none = ⟨[.noUsableParam m.name o.idiom], .ok none⟩ := by
  rw [advise, if_neg hne, if_pos ⟨.inr hs, rfl⟩]

theorem advise_of_text (hne : o.idiom ≠ s.preferred) (ho : o.idiom ≠ .truthiness)
    (hs : s.preferred = .truthiness → param? ≠ none) (ht : s.preferred.sourceText? param? = some text) :
    s.advise o (some m) param? = ⟨[], .ok (some ⟨⟨o.idiom, s.preferred⟩, text, param?⟩)⟩ := by
  have hneeds : ¬ ((o.idiom = .truthiness ∨ s.preferred = .truthiness) ∧ param? = none) := by
    rintro ⟨h | h, hnone⟩
    · exact ho h
    · exact hs h hnone
  rw [advise, if_neg hne, if_neg hneeds, ht]
  rfl

end Style

namespace Rule

variable {r : Rule} {t : Tree} {n : Node} {m : Method} {param? : Option String} {e : Idiom} {memo : Memo}
  {o : Occurrence}

/-! ## What a judgement writes to the log -/

theorem judge_of_advise_none {log : List Event} (ho : Occurrence.of? t n param? = some o)
    (ha : r.config.style.advise o (some m) param? = ⟨log, .ok none⟩) : r.judge t n m param? = ⟨log, .ok none⟩ := by
  unfold judge
  rw [ho]
  dsimp only
  rw [ha]
  exact congrArg (Traced.mk · _) (List.append_nil log)

theorem judge_of_advise_some {a : Advice} (ho : Occurrence.of? t n param? = some o)
    (ha : r.config.style.advise o (some m) param? = ⟨[], .ok (some a)⟩) :
    r.judge t n m param? =
      if a.switch.preferred = .truthiness ∧ t.isHidden n a.replacement = true then
        ⟨[.hiddenParam a.replacement (t.location n)], .ok none⟩
      else ⟨[], r.outcome t n (some a)⟩ := by
  unfold judge
  rw [ho]
  dsimp only
  rw [ha]
  by_cases hh : a.switch.preferred = .truthiness ∧ t.isHidden n a.replacement = true
  · simp [bind, Traced.andThen, hh, Traced.record, pure]
  · rw [if_neg hh]
    have hb : (decide (a.switch.preferred = .truthiness) && t.isHidden n a.replacement) = false := by
      simpa using hh
    simp only [bind, Traced.andThen, hb]
    cases hm : r.templates.message a <;> simp [outcome, hm, Except.map, Traced.ofExcept, pure, violation]

/-! ## Reported or recorded -/

/-- Why a call or a probe `e` in the method `m`, whose usable block parameter is `param?`, is not reported, as the log has
it. -/
inductive Suppressed (r : Rule) (t : Tree) (n : Node) (m : Method) (param? : Option String) (e : Idiom) : Event → Prop
  | noUsableParam : r.preferred = .truthiness → param? = none → Suppressed r t n m param? e (.noUsableParam m.name e)
  | hiddenParam {p : String} : r.preferred = .truthiness → param? = some p → t.isHidden n p = true →
      Suppressed r t n m param? e (.hiddenParam p (t.location n))

theorem Suppressed.level {event : Event} (h : r.Suppressed t n m param? e event) : event.level = .debug := by
  cases h <;> rfl

/-- There is a violation and nothing in the log, if there is no reason against it; else there is no violation, and a reason
against it is the one line of the log, a line for debugging. -/
def ReportsOrRecords (found : Traced (Option Violation)) (reason : Event → Prop) : Prop :=
  ((∃ v, found = ⟨[], .ok (some v)⟩) ∧ ∀ event, ¬ reason event) ∨
    ∃ event, found = ⟨[event], .ok none⟩ ∧ reason event ∧ event.level = .debug

section

variable (hts : r.templates.Complete) (he : n.Shape e) (hne : e ≠ r.preferred)
include hts he hne

/-- A call or a probe whose advice is known is reported, unless a block hides the name that the advice puts in its place. -/
theorem judge_of_text {text : String} (hs : r.preferred = .truthiness → param? = some text)
    (hp : r.preferred ≠ .truthiness → param? = none) (ht : r.preferred.sourceText? param? = some text) :
    ReportsOrRecords (r.judge t n m param?) (r.Suppressed t n m param? e) := by
  obtain ⟨-, -, hte⟩ := kind_ne_of_shape he
  have hnone : r.preferred = .truthiness → param? ≠ none := fun hi => by simp [hs hi]
  rw [judge_of_advise_some (Occurrence.of?_eq_some_iff.2 (.inl ⟨e, he, rfl⟩)) (Style.advise_of_text hne hte hnone ht)]
  by_cases hh : r.preferred = .truthiness ∧ t.isHidden n text = true
  · rw [if_pos hh]
    have hr : r.Suppressed t n m param? e (.hiddenParam text (t.location n)) := .hiddenParam hh.1 (hs hh.1) hh.2
    exact .inr ⟨_, rfl, hr, hr.level⟩
  · rw [if_neg hh]
    have hf : Switch.Fills ⟨e, r.preferred⟩ (param?.getD "") := by
      by_cases hi : r.preferred = .truthiness
      · have htext : text ≠ "" := by
          rintro rfl
          rw [hs hi, hi] at ht
          cases ht
        simp [Switch.Fills, hi, hs hi, htext]
      · simp [Switch.Fills, hi, hte, hp hi]
    obtain ⟨message, hm⟩ := hts.exists_message (a := ⟨⟨e, r.preferred⟩, text, param?⟩) (mem_switches hne) hf
    refine .inl ⟨⟨_, by rw [outcome, hm]; rfl⟩, fun event hr => ?_⟩
    cases hr with
    | noUsableParam hi hno => exact hnone hi hno
    | hiddenParam hi hsome hhid =>
      rw [hs hi] at hsome
      cases hsome
      exact hh ⟨hi, hhid⟩

/-- A call or a probe in a method is reported or recorded. -/
theorem judge_reports_or_records (hpe : param? ≠ some "") (hp : r.preferred ≠ .truthiness → param? = none) :
    ReportsOrRecords (r.judge t n m param?) (r.Suppressed t n m param? e) := by
  by_cases hi : r.preferred = .truthiness ∧ param? = none
  · obtain ⟨hi, rfl⟩ := hi
    have hr : r.Suppressed t n m none e (.noUsableParam m.name e) := .noUsableParam hi rfl
    have ho : Occurrence.of? t n none = some ⟨n, e, none⟩ := Occurrence.of?_eq_some_iff.2 (.inl ⟨e, he, rfl⟩)
    exact .inr ⟨_, judge_of_advise_none ho (Style.advise_of_missing hne hi), hr, hr.level⟩
  · rw [not_and] at hi
    obtain ⟨text, ht⟩ := Style.exists_sourceText? (i := r.preferred) hpe hi
    refine judge_of_text hts he hne (fun htruth => ?_) hp ht
    obtain ⟨p, rfl⟩ := Option.ne_none_iff_exists'.1 (hi htruth)
    rw [htruth] at ht
    rw [sourceText?_truthiness ht]

/-- **In a method, a call or a probe is reported or recorded.** Whatever the tree and whatever is remembered, let a node be
a call or a probe and not the preferred idiom, and let the templates be such that they can be filled. In a method, a check
returns one violation and writes nothing to the log if nothing speaks against a report; else it returns nothing and writes
the reason to the log, in one line for debugging. Outside of methods it returns nothing and writes nothing. -/
theorem check_reports_or_records (memo : Memo) :
    (Method.enclosing? t n = none → (r.check t n memo).1 = ⟨[], .ok none⟩) ∧
    ∀ m, Method.enclosing? t n = some m →
      ReportsOrRecords (r.check t n memo).1 (r.Suppressed t n m (r.paramFor n m memo).1 e) := by
  obtain ⟨hk, hc, -⟩ := kind_ne_of_shape he
  refine ⟨fun hm => by simp only [check, hc, if_true, hm]; rfl, fun m hm => ?_⟩
  have hask : r.Asks n m (r.paramFor n m memo).1 := asks_paramFor (enclosing?_eq hm)
  have hp : r.preferred ≠ .truthiness → (r.paramFor n m memo).1 = none := by
    intro hi
    by_contra hp
    exact (needsParam_eq_true_iff.1 (hask.needed hp)).elim hi hk
  simp only [check, hc, if_true, hm]
  exact judge_reports_or_records hts he hne hask.ne_empty hp

end

/-- In `def m(&block) each { |block| block_given? } end` nothing is reported where truthiness is preferred, and the log says
that a block hides the name. -/
theorem check_reports_or_records_hidden :
    let n := Node.blockGiven 3
    let param : Node := ⟨12, .param .required, [.text "block"], .origin⟩
    let each : Node := ⟨10, .call, [.empty, .text "each"], .origin⟩
    let body : Node := ⟨13, .block, [.node each, .node ⟨11, .args, [.node param], .origin⟩, .node n], .origin⟩
    let t := Tree.ofRoot (Node.definition 0 body) "a.rb"
    let r := uniform .truthiness
    (r.templates.Complete ∧ n.Shape .call ∧ Idiom.call ≠ r.preferred) ∧
      Method.enclosing? t n = some (Method.ofDefinition t.root) ∧
      (r.check t n Memo.empty).1 = ⟨[.hiddenParam "block" "a.rb:1:0"], .ok none⟩ := by
  intro n param each body t r
  have hts : r.templates.Complete := uniform_complete _
  have he : n.Shape .call := .call rfl rfl
  have hne : Idiom.call ≠ r.preferred := Idiom.noConfusion
  have hm : Method.enclosing? t n = some (Method.ofDefinition t.root) := by cbv
  have hp : (r.paramFor n (Method.ofDefinition t.root) Memo.empty).1 = some "block" := by cbv
  have hh : t.isHidden n "block" = true := by cbv
  refine ⟨⟨hts, he, hne⟩, hm, ?_⟩
  rcases (check_reports_or_records hts he hne Memo.empty).2 _ hm with ⟨-, hno⟩ | ⟨event, hfound, hr, -⟩
  · exact absurd (.hiddenParam rfl hp hh) (hno _)
  · rw [hfound]
    cases hr with
    | noUsableParam _ hnone => rw [hp] at hnone; cases hnone
    | hiddenParam _ hsome _ =>
      rw [hp] at hsome
      cases hsome
      rfl

/-- A call of `block_given?` outside of methods is neither reported nor recorded, though it is not the preferred idiom. -/
theorem check_silent_outside_methods :
    let n := Node.blockGiven 0
    let t := Tree.ofRoot n "a.rb"
    let r := uniform .truthiness
    n ∈ t.nodes ∧ r.templates.Complete ∧ n.Shape .call ∧ Idiom.call ≠ r.preferred ∧
      (r.check t n Memo.empty).1 = ⟨[], .ok none⟩ ∧
      ¬ ((∃ v, (r.check t n Memo.empty).1 = ⟨[], .ok (some v)⟩) ∨
        ∃ event, (r.check t n Memo.empty).1 = ⟨[event], .ok none⟩ ∧ event.level = .debug) := by
  intro n t r
  have hcheck : (r.check t n Memo.empty).1 = ⟨[], .ok none⟩ := by cbv
  refine ⟨List.mem_cons_self, uniform_complete _, .call rfl rfl, Idiom.noConfusion, hcheck, ?_⟩
  rw [hcheck]
  rintro (⟨v, h⟩ | ⟨event, h, -⟩)
  · cases h
  · cases h

end Rule

end BlockPresence
