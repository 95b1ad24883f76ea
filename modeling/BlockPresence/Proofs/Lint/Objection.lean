import BlockPresence.Proofs.Idiom.Shape
import BlockPresence.Proofs.Lint.Check
import BlockPresence.Proofs.Text.Plain
import Mathlib

/-!
# What the rule objects to

`Rule.advice?` is the decision of a check without its log and its words: the check reports a violation just if there is
an advice, and in the words of its template (`Rule.check_result`). `Rule.Objection` says on the tree itself when there is
one, and the two agree (`Rule.advice?_eq_some_iff`).

Put together, they say what a check returns (`Rule.check_reports_iff`).
-/

namespace BlockPresence

/-! ## Outcomes of computations -/

namespace Traced

variable {α β : Type}

theorem result_bind (x : Traced α) (f : α → Traced β) : (x >>= f).result = x.result.bind fun a => (f a).result := by
  obtain ⟨log, _ | a⟩ := x <;> rfl

end Traced

/-! ## The decision of a style -/

namespace Style

variable {s : Style} {o : Occurrence} {param? : Option String} {a : Advice}

/-- The advice for an occurrence in a method whose usable block parameter is `param?`, without the log. -/
def adviceOn? (s : Style) (o : Occurrence) (param? : Option String) : Option Advice :=
  if o.idiom = s.preferred ∨ (o.idiom = .truthiness ∨ s.preferred = .truthiness) ∧ param? = none then none
  else (s.preferred.sourceText? param?).map fun text => ⟨⟨o.idiom, s.preferred⟩, text, param?⟩

theorem adviceOn?_eq_some_iff : s.adviceOn? o param? = some a ↔
    o.idiom ≠ s.preferred ∧ (o.idiom = .truthiness ∨ s.preferred = .truthiness → param? ≠ none) ∧
      ∃ text, s.preferred.sourceText? param? = some text ∧ a = ⟨⟨o.idiom, s.preferred⟩, text, param?⟩ := by
  unfold adviceOn?
  split
  · rename_i h
    simp only [reduceCtorEq, false_iff]
    rintro ⟨h1, h2, -⟩
    exact h.elim h1 fun h => h2 h.1 h.2
  · rename_i h
    rw [not_or, not_and] at h
    rw [Option.map_eq_some_iff, and_iff_right h.1, and_iff_right h.2]
    simp only [eq_comm]

/-- A preferred idiom has a text wherever the name that it may need is there. -/
theorem exists_sourceText? {i : Idiom} (hp : param? ≠ some "") (hi : i = .truthiness → param? ≠ none) :
    ∃ text, i.sourceText? param? = some text := by
  cases i with
  | call => exact ⟨_, rfl⟩
  | probe => exact ⟨_, rfl⟩
  | truthiness =>
    cases param? with
    | none => exact absurd rfl (hi rfl)
    | some p =>
      have hne : p ≠ "" := fun he => hp (congrArg some he)
      exact ⟨p, by simp [Idiom.sourceText?, Option.filter, hne]⟩

/-- A style never fails on the block parameter of a method, which has a name. -/
theorem advise_result (hp : param? ≠ some "") (m : Method) :
    (s.advise o (some m) param?).result = .ok (s.adviceOn? o param?) := by
  simp only [advise, adviceOn?]
  by_cases hs : o.idiom = s.preferred
  · rw [if_pos hs, if_pos (.inl hs)]
    rfl
  by_cases hn : (o.idiom = .truthiness ∨ s.preferred = .truthiness) ∧ param? = none
  · rw [if_neg hs, if_pos hn, if_pos (.inr hn)]
  obtain ⟨text, ht⟩ := exists_sourceText? hp fun hi he => hn ⟨.inr hi, he⟩
  rw [if_neg hs, if_neg hn, if_neg (not_or.2 ⟨hs, hn⟩), ht]
  rfl

end Style

/-- The text of an idiom that names no block parameter. -/
inductive Idiom.Wording : Idiom → String → Prop
  | call : Wording .call "block_given?"
  | probe : Wording .probe "defined?(yield)"

theorem Idiom.wording_iff {i : Idiom} {param? : Option String} {text : String} (hi : i ≠ .truthiness) :
    i.Wording text ↔ i.sourceText? param? = some text := by
  constructor
  · rintro (_ | _) <;> rfl
  · intro h
    cases i with
    | call => cases h; exact .call
    | probe => cases h; exact .probe
    | truthiness => exact absurd rfl hi

namespace Rule

/-! ## The decision of a check -/

/-- The idiom that the style of the rule prefers. -/
abbrev preferred (r : Rule) : Idiom := r.config.style.preferred

/-- The advice for a node in a method whose usable block parameter is `param?`. -/
def adviceFor? (r : Rule) (t : Tree) (n : Node) (param? : Option String) : Option Advice :=
  (Occurrence.of? t n param?).bind fun o =>
    (r.config.style.adviceOn? o param?).filter fun a =>
      !(a.switch.preferred = .truthiness && t.isHidden n a.replacement)

/-- The advice for a node of a tree. -/
def advice? (r : Rule) (t : Tree) (n : Node) : Option Advice :=
  if concerns n.kind then
    (Method.enclosing? t n).bind fun m => r.adviceFor? t n (if r.needsParam n then m.usableParam? else none)
  else none

/-- The violation that goes with an advice. -/
def violation (r : Rule) (t : Tree) (n : Node) (a : Advice) (message : String) : Violation where
  message
  location := t.location n
  node := n
  correction := if r.config.autocorrect then some (Correction.ofNode n a.replacement) else none

/-- What a check returns for an advice: nothing without one, else a violation in the words of the template. -/
def outcome (r : Rule) (t : Tree) (n : Node) : Option Advice → Except Fault (Option Violation)
  | none => .ok none
  | some a => (r.templates.message a).map fun message => some (r.violation t n a message)

variable {r : Rule} {t : Tree} {n : Node} {param? : Option String} {a : Advice}

theorem outcome_eq_ok_some_iff {a? : Option Advice} {v : Violation} : r.outcome t n a? = .ok (some v) ↔
    ∃ a message, a? = some a ∧ r.templates.message a = .ok message ∧ v = r.violation t n a message := by
  cases a? with
  | none => simp [outcome]
  | some a =>
    rw [outcome]
    cases hm : r.templates.message a with
    | error f => simp [Except.map, hm]
    | ok message => simp [Except.map, hm, eq_comm]

theorem judge_result (hp : param? ≠ some "") (m : Method) :
    (r.judge t n m param?).result = r.outcome t n (r.adviceFor? t n param?) := by
  unfold judge adviceFor?
  cases Occurrence.of? t n param? with
  | none => rfl
  | some o =>
    simp only [Option.bind_some, Traced.result_bind, Style.advise_result hp]
    cases r.config.style.adviceOn? o param? with
    | none => rfl
    | some a =>
      by_cases hh : (a.switch.preferred = .truthiness && t.isHidden n a.replacement) = true
      · simp only [Except.bind, hh, if_true, Option.filter, Bool.not_true]
        rfl
      · simp only [Except.bind, hh, Option.filter, Bool.not_false, if_true, outcome, Bool.false_eq_true, if_false]
        rw [Traced.result_bind]
        cases hm : r.templates.message a <;> rfl

/-- **What a check returns** hangs on its advice alone, and it fails only where the template does. -/
theorem check_result (r : Rule) (t : Tree) (n : Node) :
    (r.check t n Memo.empty).1.result = r.outcome t n (r.advice? t n) := by
  rw [check_empty]
  unfold plainCheck advice?
  by_cases hk : concerns n.kind = true
  · simp only [hk, if_true]
    cases he : Method.enclosing? t n with
    | none => rfl
    | some m =>
      obtain ⟨d, -, rfl⟩ := Option.map_eq_some_iff.1 he
      refine judge_result ?_ _
      split
      · intro hp
        exact (Method.usableParam?_ofDefinition.1 hp).ne_empty rfl
      · simp
  · simp only [hk]
    rfl

/-! ## Objections -/

/-- What the rule objects to at a node, and its advice. -/
inductive Objection (r : Rule) (t : Tree) (n : Node) : Advice → Prop
  /-- A call or a probe in a method, where the other one is preferred. -/
  | respelled {m : Node} {inner : List Node} {e : Idiom} {text : String} : t.Innermost n m inner → n.Shape e →
      e ≠ r.preferred → r.preferred ≠ .truthiness → r.preferred.Wording text →
      Objection r t n ⟨⟨e, r.preferred⟩, text, none⟩
  /-- A call or a probe where truthiness is preferred, in a method whose block parameter can be used and is not hidden. -/
  | named {m : Node} {inner : List Node} {e : Idiom} {p : String} : t.Innermost n m inner → n.Shape e →
      r.preferred = .truthiness → m.UsableParam p → (∀ b ∈ inner, ¬ b.Hides n p) →
      Objection r t n ⟨⟨e, .truthiness⟩, p, some p⟩
  /-- A read of a block parameter that can be used, as a condition and where no block hides it, if another idiom than
  truthiness is preferred. -/
  | unnamed {m : Node} {inner : List Node} {p text : String} : t.Innermost n m inner → n.kind = .localRead →
      n.slot 0 = .text p → m.UsableParam p → Tested t.root n → (∀ b ∈ inner, ¬ b.Hides n p) →
      r.preferred ≠ .truthiness → r.preferred.Wording text →
      Objection r t n ⟨⟨.truthiness, r.preferred⟩, text, some p⟩

theorem adviceFor?_eq_some_iff : r.adviceFor? t n param? = some a ↔
    ∃ o, Occurrence.of? t n param? = some o ∧ r.config.style.adviceOn? o param? = some a ∧
      (a.switch.preferred = .truthiness → t.isHidden n a.replacement = false) := by
  simp only [adviceFor?, Option.bind_eq_some_iff, Option.filter_eq_some_iff]
  refine exists_congr fun o => and_congr_right fun _ => and_congr_right fun _ => ?_
  by_cases hp : a.switch.preferred = .truthiness <;> simp [hp]

theorem needsParam_eq_true_iff : r.needsParam n = true ↔ r.preferred = .truthiness ∨ n.kind = .localRead := by
  simp [needsParam]

/-- A node of a shape reads no local variable, and is of no other shape. -/
theorem kind_ne_of_shape {e : Idiom} (h : n.Shape e) : n.kind ≠ .localRead ∧ concerns n.kind = true ∧ e ≠ .truthiness := by
  cases h with
  | call hk _ => rw [hk]; exact ⟨by simp, rfl, by simp⟩
  | probe hk _ _ => rw [hk]; exact ⟨by simp, rfl, by simp⟩

theorem sourceText?_truthiness {p text : String} (h : Idiom.sourceText? (some p) .truthiness = some text) : text = p := by
  have he : (some p).filter (fun p => !p.isEmpty) = some text := h
  exact (Option.some.inj (Option.filter_eq_some_iff.1 he).1).symm

theorem objection_of_adviceFor? (hd : t.root.Distinct) (hn : n ∈ t.nodes) {m : Node} {inner : List Node}
    (hm : t.Innermost n m inner)
    (h : r.adviceFor? t n (if r.needsParam n then (Method.ofDefinition m).usableParam? else none) = some a) :
    r.Objection t n a := by
  obtain ⟨o, ho, ha, hh⟩ := adviceFor?_eq_some_iff.1 h
  obtain ⟨hne, hneed, text, htext, rfl⟩ := Style.adviceOn?_eq_some_iff.1 ha
  have hhidden : ∀ {p}, t.isHidden n p = false → ∀ b ∈ inner, ¬ b.Hides n p := fun hf b hb hhd => by
    rw [(hm.isHidden_iff hd).2 ⟨b, hb, hhd⟩] at hf
    cases hf
  rcases Occurrence.of?_eq_some_iff.1 ho with ⟨e, he, rfl⟩ | ⟨p, hp, ⟨hk, h0, ht, hf⟩, rfl⟩
  · by_cases hi : r.preferred = .truthiness
    · rw [if_pos (needsParam_eq_true_iff.2 (.inl hi))] at *
      obtain ⟨p, hp⟩ := Option.ne_none_iff_exists'.1 (hneed (.inr hi))
      rw [hp] at htext ⊢
      have hi' : r.config.style.preferred = .truthiness := hi
      rw [hi'] at htext hh ⊢
      cases sourceText?_truthiness htext
      exact .named hm he hi (Method.usableParam?_ofDefinition.1 hp) (hhidden (hh rfl))
    · have hnp : r.needsParam n = false := by
        rw [Bool.eq_false_iff]
        exact fun hnp => (needsParam_eq_true_iff.1 hnp).elim hi (kind_ne_of_shape he).1
      rw [hnp] at htext ⊢
      exact .respelled hm he hne hi ((Idiom.wording_iff hi).2 htext)
  · rw [if_pos (needsParam_eq_true_iff.2 (.inr hk))] at *
    rw [hp] at htext ⊢
    exact .unnamed hm hk h0 (Method.usableParam?_ofDefinition.1 hp) ((Tree.isOnlyTested_iff hd hn).1 ht) (hhidden hf)
      (Ne.symm hne) ((Idiom.wording_iff (Ne.symm hne)).2 htext)

theorem sourceText?_of_ne_empty {p : String} (hp : p ≠ "") : Idiom.sourceText? (some p) .truthiness = some p := by
  simp [Idiom.sourceText?, Option.filter, hp]

/-- The advice in a method that is known. -/
theorem advice?_of_innermost (hd : t.root.Distinct) (hn : n ∈ t.nodes) (hk : concerns n.kind = true) {m : Node}
    {inner : List Node} (hm : t.Innermost n m inner) : r.advice? t n =
      r.adviceFor? t n (if r.needsParam n then (Method.ofDefinition m).usableParam? else none) := by
  rw [advice?, if_pos hk, (Method.enclosing?_eq_some_iff hd hn).2 ⟨m, inner, hm, rfl⟩, Option.bind_some]

theorem isHidden_eq_false (hd : t.root.Distinct) {m : Node} {inner : List Node} {p : String}
    (hm : t.Innermost n m inner) (h : ∀ b ∈ inner, ¬ b.Hides n p) : t.isHidden n p = false := by
  rw [Bool.eq_false_iff]
  intro hf
  obtain ⟨b, hb, hh⟩ := (hm.isHidden_iff hd).1 hf
  exact h b hb hh

theorem advice?_of_objection (hd : t.root.Distinct) (hn : n ∈ t.nodes) (h : r.Objection t n a) :
    r.advice? t n = some a := by
  cases h with
  | @respelled m inner e text hm he hne hi htext =>
    obtain ⟨hk, hc, hte⟩ := kind_ne_of_shape he
    have hp : r.needsParam n = false := by
      rw [Bool.eq_false_iff]
      exact fun hp => (needsParam_eq_true_iff.1 hp).elim hi hk
    rw [advice?_of_innermost hd hn hc hm, hp]
    refine adviceFor?_eq_some_iff.2 ⟨⟨n, e, none⟩, Occurrence.of?_eq_some_iff.2 (.inl ⟨e, he, rfl⟩),
      Style.adviceOn?_eq_some_iff.2 ⟨hne, ?_, text, (Idiom.wording_iff hi).1 htext, rfl⟩, fun h => absurd h hi⟩
    rintro (h | h)
    · exact absurd h hte
    · exact absurd h hi
  | @named m inner e p hm he hi hp hh =>
    obtain ⟨hk, hc, hte⟩ := kind_ne_of_shape he
    rw [advice?_of_innermost hd hn hc hm, if_pos (needsParam_eq_true_iff.2 (.inl hi)),
      Method.usableParam?_ofDefinition.2 hp]
    have hi' : r.config.style.preferred = .truthiness := hi
    refine adviceFor?_eq_some_iff.2 ⟨⟨n, e, none⟩, Occurrence.of?_eq_some_iff.2 (.inl ⟨e, he, rfl⟩),
      Style.adviceOn?_eq_some_iff.2 ?_, fun _ => isHidden_eq_false hd hm hh⟩
    rw [hi']
    exact ⟨hte, by simp, p, sourceText?_of_ne_empty hp.ne_empty, rfl⟩
  | @unnamed m inner p text hm hk h0 hp ht hh hi htext =>
    have hf := isHidden_eq_false hd hm hh
    rw [advice?_of_innermost hd hn (by rw [hk]; rfl) hm, if_pos (needsParam_eq_true_iff.2 (.inr hk)),
      Method.usableParam?_ofDefinition.2 hp]
    exact adviceFor?_eq_some_iff.2 ⟨⟨n, .truthiness, some p⟩,
      Occurrence.of?_eq_some_iff.2 (.inr ⟨p, rfl, ⟨hk, h0, (Tree.isOnlyTested_iff hd hn).2 ht, hf⟩, rfl⟩),
      Style.adviceOn?_eq_some_iff.2 ⟨Ne.symm hi, by simp, text, (Idiom.wording_iff hi).1 htext, rfl⟩,
      fun h => absurd h hi⟩

/-- **The decision of a check** is to object just where there is something to object to. -/
theorem advice?_eq_some_iff (hd : t.root.Distinct) (hn : n ∈ t.nodes) : r.advice? t n = some a ↔ r.Objection t n a := by
  refine ⟨fun h => ?_, advice?_of_objection hd hn⟩
  have hk : concerns n.kind = true := by
    by_contra hk
    rw [advice?, if_neg hk] at h
    cases h
  rw [advice?, if_pos hk] at h
  obtain ⟨method, he, h⟩ := Option.bind_eq_some_iff.1 h
  obtain ⟨m, inner, hm, rfl⟩ := (Method.enclosing?_eq_some_iff hd hn).1 he
  exact objection_of_adviceFor? hd hn hm h

end Rule

/-! ## What a check returns -/

/-- What a message for a switch can be filled with: the name of a block parameter where truthiness is involved, and
nothing where it is not. -/
def Switch.Fills (s : Switch) (name : String) : Prop :=
  (s.encountered = .truthiness ∨ s.preferred = .truthiness) ↔ name ≠ ""

/-- There is a template for every switch, and whatever name can come with it, the template can be filled with it. -/
def Templates.Complete (ts : Templates) : Prop :=
  ∀ s ∈ Switch.all, ∃ template, ts.find? s = some template ∧
    ∀ name, s.Fills name → ∃ message, template.fill name = .ok message

theorem Templates.Complete.exists_message {ts : Templates} {a : Advice} (hts : ts.Complete) (hs : a.switch ∈ Switch.all)
    (hf : a.switch.Fills (a.param.getD "")) : ∃ message, ts.message a = .ok message := by
  obtain ⟨template, ht, hfill⟩ := hts a.switch hs
  obtain ⟨message, hm⟩ := hfill _ hf
  exact ⟨message, by rw [Templates.message, ht]; simp only [hm, Except.mapError]⟩

namespace Rule

variable {r : Rule} {t : Tree} {n : Node} {a : Advice}

theorem mem_switches {s : Switch} (h : s.encountered ≠ s.preferred) : s ∈ Switch.all := by
  obtain ⟨e, i⟩ := s
  cases e <;> cases i <;> first | exact absurd rfl h | decide

theorem objection_switch (h : r.Objection t n a) :
    a.switch.encountered ≠ a.switch.preferred ∧ a.switch.Fills (a.param.getD "") := by
  cases h with
  | respelled _ he hne hi _ => exact ⟨hne, by simp [Switch.Fills, hi, (kind_ne_of_shape he).2.2]⟩
  | named _ he _ hp _ => exact ⟨(kind_ne_of_shape he).2.2, by simp [Switch.Fills, hp.ne_empty]⟩
  | unnamed _ _ _ hp _ _ hi _ => exact ⟨Ne.symm hi, by simp [Switch.Fills, hp.ne_empty]⟩

theorem message_of_objection (hts : r.templates.Complete) (h : r.Objection t n a) :
    ∃ message, r.templates.message a = .ok message :=
  hts.exists_message (mem_switches (objection_switch h).1) (objection_switch h).2

/-- **What a check returns.** Of a tree in which no node occurs twice, with templates that can be filled, a check of a
node never fails. It returns one violation where the rule objects to the node, in the words of the template for its
switch, at the place of the node and with the correction that the advice asks for, and nothing elsewhere. -/
theorem check_reports_iff (r : Rule) (t : Tree) (n : Node) (hd : t.root.Distinct) (hn : n ∈ t.nodes)
    (hts : r.templates.Complete) :
    (∃ found, (r.check t n Memo.empty).1.result = .ok found) ∧
      ∀ v, (r.check t n Memo.empty).1.result = .ok (some v) ↔
        ∃ a, r.Objection t n a ∧ r.templates.message a = .ok v.message ∧
          v.location = s!"{t.path}:{n.extent.line}:{n.extent.column}" ∧ v.node = n ∧
          v.correction = if r.config.autocorrect then some ⟨n.extent, a.replacement⟩ else none := by
  rw [check_result]
  cases ha : r.advice? t n with
  | none =>
    refine ⟨⟨none, rfl⟩, fun v => ⟨fun h => (nomatch h), ?_⟩⟩
    rintro ⟨a, h, -⟩
    rw [(advice?_eq_some_iff hd hn).2 h] at ha
    cases ha
  | some a =>
    have ho := (advice?_eq_some_iff hd hn).1 ha
    obtain ⟨message, hm⟩ := message_of_objection hts ho
    refine ⟨⟨_, by rw [outcome, hm]; rfl⟩, fun v => ?_⟩
    rw [outcome, hm]
    constructor
    · intro h
      cases h
      exact ⟨a, ho, hm, rfl, rfl, rfl⟩
    · rintro ⟨b, hb, hmb, hl, hv, hc⟩
      rw [(advice?_eq_some_iff hd hn).2 hb] at ha
      cases ha
      rw [hm] at hmb
      obtain ⟨vmessage, vlocation, vnode, vcorrection⟩ := v
      cases hmb
      simp only at hl hv hc
      subst hl hv hc
      rfl

end Rule

/-! ## An example -/

/-- The definition of a method `m` with the block parameter `block` and the body `body`. -/
def Node.definition (id : Nat) (body : Node) : Node :=
  let param : Node := ⟨id + 2, .param .block, [.text "block"], .origin⟩
  let params : Node := ⟨id + 1, .other "args" (by decide), [.node param], .origin⟩
  ⟨id, .method, [.text "m", .node params, .node body], .origin⟩

theorem Kind.args_not_reserved : "args" ∉ reservedNames := by decide

/-- The kind of the parameter list of a method. -/
def Kind.args : Kind := .other "args" Kind.args_not_reserved

/-- The call `block_given?`. -/
def Node.blockGiven (id : Nat) : Node := ⟨id, .call, [.empty, .text "block_given?"], .origin⟩

theorem Node.mem_definition {id : Nat} {body x : Node} (h : x ∈ body.preorder) : x ∈ (definition id body).preorder :=
  mem_preorder_of_child (mem_childNodes_of_slot (i := 2) rfl) h

theorem Node.definition_usableParam {id : Nat} {body : Node} (h : ∀ w ∈ body.preorder, w.kind ≠ .localWrite) :
    (definition id body).UsableParam "block" := by
  refine ⟨⟨_, [], _, [], rfl, rfl, fun _ hb => (nomatch hb), rfl, rfl, by decide⟩, ?_⟩
  rintro ⟨body', w, hs, hw, hk, -⟩
  cases hs
  exact h w hw hk

theorem Tree.innermost_definition {id : Nat} {body : Node} (path : String) :
    (ofRoot (Node.definition id body) path).Innermost body (Node.definition id body) [] :=
  ⟨⟨[], .child .root (Node.mem_childNodes_of_slot (i := 2) rfl)⟩, rfl, fun _ h => (nomatch h)⟩

/-- A rule that corrects, with one template for all switches. -/
def Rule.uniform (i : Idiom) : Rule where
  config := { fields := [], enabled := true, autocorrect := true, style := ⟨i⟩ }
  templates := ⟨Switch.all.map fun s => (s, ⟨"Ask \x7bname\x7d."⟩)⟩

theorem Rule.uniform_complete (i : Idiom) : (uniform i).templates.Complete := by
  have hp : Template.isPlain ⟨"Ask \x7bname\x7d."⟩ = true := by cbv
  have hall : ∀ s ∈ Switch.all, (uniform i).templates.find? s = some ⟨"Ask \x7bname\x7d."⟩ := by cases i <;> decide
  exact fun s hs => ⟨_, hall s hs, fun name _ => Template.exists_fill_of_isPlain hp name⟩

/-- In `def m(&block) = block_given?` the call is reported where truthiness is preferred. -/
theorem Rule.check_reports_iff_block_given :
    let t := Tree.ofRoot (Node.definition 0 (Node.blockGiven 3)) "m.rb"
    t.root.Distinct ∧ Node.blockGiven 3 ∈ t.nodes ∧ (uniform .truthiness).templates.Complete ∧
      ∃ v, ((uniform .truthiness).check t (Node.blockGiven 3) Memo.empty).1.result = .ok (some v) ∧
        v.correction = some ⟨.origin, "block"⟩ := by
  intro t
  have hd : t.root.Distinct := by unfold Node.Distinct; decide
  have hm : t.Innermost (Node.blockGiven 3) t.root [] := Tree.innermost_definition _
  have hn : Node.blockGiven 3 ∈ t.nodes := by
    rw [Tree.nodes_eq]
    exact hm.1.choose_spec.mem_preorder
  have hu : t.root.UsableParam "block" :=
    Node.definition_usableParam (by simp [Node.blockGiven, Node.preorder, Node.preorderSlots])
  let a : Advice := ⟨⟨.call, .truthiness⟩, "block", some "block"⟩
  have ho : (uniform .truthiness).Objection t (Node.blockGiven 3) a :=
    .named hm (.call rfl rfl) rfl hu (by simp)
  obtain ⟨message, hmsg⟩ := message_of_objection (uniform_complete _) ho
  refine ⟨hd, hn, uniform_complete _, violation (uniform .truthiness) t (Node.blockGiven 3) a message, ?_, rfl⟩
  exact ((check_reports_iff _ t _ hd hn (uniform_complete _)).2 _).2 ⟨a, ho, hmsg, rfl, rfl, rfl⟩

end BlockPresence
