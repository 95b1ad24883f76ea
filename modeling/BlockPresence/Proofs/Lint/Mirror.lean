import BlockPresence.Proofs.Idiom.Parallel
import BlockPresence.Proofs.Lint.Objection

/-!
# Checks of nodes that stand alike

A node `n'` of one tree mirrors a node `n` of another one (`Tree.Mirrors`) if it has the same shape and the lines above them
run parallel, with the local names changed by a function `f`. Then a check has the same to say of both: the advice for `n'`
is the advice for `n` with the names changed (`Tree.Mirrors.advice?_eq`).
-/

namespace BlockPresence

variable {f : String → String}

/-! ## Changing the names in an advice -/

namespace Idiom

/-- Changes the names in the text of an idiom. Only the text of truthiness is a name. -/
def renameText (f : String → String) (i : Idiom) (text : String) : String := if i = .truthiness then f text else text

theorem sourceText?_map (hf : ∀ p, f p = "" ↔ p = "") (i : Idiom) (param? : Option String) :
    i.sourceText? (param?.map f) = (i.sourceText? param?).map (i.renameText f) := by
  cases i with
  | call => rfl
  | probe => rfl
  | truthiness =>
    rw [sourceText?, sourceText?, Option.filter_map]
    have hp : ((fun p : String => !p.isEmpty) ∘ f) = fun p => !p.isEmpty := by
      funext p
      exact congrArg not (by rw [Bool.eq_iff_iff, String.isEmpty_iff, String.isEmpty_iff, hf])
    rw [hp]
    rfl

end Idiom

/-- Changes the names in an advice. -/
def Advice.rename (f : String → String) (a : Advice) : Advice where
  switch := a.switch
  replacement := a.switch.preferred.renameText f a.replacement
  param := a.param.map f

theorem Advice.map_rename_id (a? : Option Advice) : a?.map (rename fun p => p) = a? := by
  cases a? with
  | none => rfl
  | some a =>
    obtain ⟨switch, replacement, param⟩ := a
    simp [rename, Idiom.renameText]

/-- The same idiom at the node `n'`, with the names changed. -/
def Occurrence.rename (f : String → String) (n' : Node) (o : Occurrence) : Occurrence where
  node := n'
  idiom := o.idiom
  param := o.param.map f

theorem Style.adviceOn?_rename (hf : ∀ p, f p = "" ↔ p = "") (s : Style) (o : Occurrence) (n' : Node)
    (param? : Option String) :
    s.adviceOn? (o.rename f n') (param?.map f) = (s.adviceOn? o param?).map (Advice.rename f) := by
  have hc : (o.rename f n').idiom = o.idiom := rfl
  simp only [adviceOn?, Idiom.sourceText?_map hf, Option.map_eq_none_iff, hc]
  split
  · rfl
  · rw [Option.map_map, Option.map_map]
    rfl

/-! ## Nodes that stand alike -/

/-- The node `n'` stands in `t'` as `n` does in `t`, with the local names changed by `f`. -/
structure Tree.Mirrors (f : String → String) (t t' : Tree) (n n' : Node) : Prop where
  kind : n'.kind = n.kind
  shape : ∀ e, n'.Shape e ↔ n.Shape e
  reads : n.kind = .localRead → ∀ p, n'.slot 0 = .text (f p) ↔ n.slot 0 = .text p
  above : Parallel (Resembles f) n (t.ancestors n) n' (t'.ancestors n')

namespace Tree.Mirrors

variable {t t' : Tree} {n n' : Node} {r : Rule} {param? : Option String} {p : String}

theorem isOnlyTested_eq (h : Mirrors f t t' n n') : t'.isOnlyTested n' = t.isOnlyTested n :=
  (h.above.mono fun _ _ hp => hp.toSameForm).isOnlyTested_eq

theorem isHidden_eq (h : Mirrors f t t' n n') (p : String) : t'.isHidden n' (f p) = t.isHidden n p := h.above.isHidden_eq p

theorem enclosing? (h : Mirrors f t t' n n') :
    Option.Rel (Method.Renamed f) (Method.enclosing? t n) (Method.enclosing? t' n') :=
  h.above.enclosing? (fun _ _ hp => hp.kind) fun _ _ hp => hp.method

theorem testsParam_iff (h : Mirrors f t t' n n') : n'.TestsParam t' (f p) ↔ n.TestsParam t p := by
  unfold Node.TestsParam
  rw [h.kind, h.isOnlyTested_eq, h.isHidden_eq]
  exact and_congr_right fun hk => and_congr_left' (h.reads hk p)

/-- **What is recognised** at the one node is recognised at the other one. -/
theorem of?_eq (h : Mirrors f t t' n n') :
    Occurrence.of? t' n' (param?.map f) = (Occurrence.of? t n param?).map (Occurrence.rename f n') := by
  ext o'
  simp only [Option.map_eq_some_iff, Occurrence.of?_eq_some_iff, h.shape]
  constructor
  · rintro (⟨e, he, rfl⟩ | ⟨_, ⟨p, rfl, rfl⟩, hp, rfl⟩)
    · exact ⟨_, .inl ⟨e, he, rfl⟩, rfl⟩
    · exact ⟨_, .inr ⟨p, rfl, h.testsParam_iff.1 hp, rfl⟩, rfl⟩
  · rintro ⟨_, ⟨e, he, rfl⟩ | ⟨p, rfl, hp, rfl⟩, rfl⟩
    · exact .inl ⟨e, he, rfl⟩
    · exact .inr ⟨f p, ⟨p, rfl, rfl⟩, h.testsParam_iff.2 hp, rfl⟩

theorem adviceFor?_eq (h : Mirrors f t t' n n') (hf : ∀ p, f p = "" ↔ p = "") :
    r.adviceFor? t' n' (param?.map f) = (r.adviceFor? t n param?).map (Advice.rename f) := by
  -- an advice is dropped where the name that it writes is hidden
  have hhidden : ((fun a : Advice => !(a.switch.preferred = .truthiness && t'.isHidden n' a.replacement)) ∘
      Advice.rename f) = fun a => !(a.switch.preferred = .truthiness && t.isHidden n a.replacement) := by
    funext a
    by_cases hi : a.switch.preferred = .truthiness
    · simp [Advice.rename, Idiom.renameText, hi, h.isHidden_eq]
    · simp [Advice.rename, hi]
  unfold Rule.adviceFor?
  rw [h.of?_eq, Option.bind_map, Option.map_bind]
  congr 1
  funext o
  rw [Function.comp_apply, Function.comp_apply, Style.adviceOn?_rename hf, Option.filter_map, hhidden]

/-- **The advice** for the one node is the advice for the other one, with the names changed. -/
theorem advice?_eq (h : Mirrors f t t' n n') (hf : ∀ p, f p = "" ↔ p = "") (r : Rule) :
    r.advice? t' n' = (r.advice? t n).map (Advice.rename f) := by
  have hneeds : r.needsParam n' = r.needsParam n := by rw [Rule.needsParam, Rule.needsParam, h.kind]
  unfold Rule.advice?
  rw [h.kind, hneeds]
  split
  · have hm := h.enclosing?
    generalize Method.enclosing? t n = m? at hm
    generalize Method.enclosing? t' n' = m'? at hm
    cases hm with
    | none => rfl
    | some hm =>
      rw [Option.bind_some, Option.bind_some, hm.usableParam?_eq, ← h.adviceFor?_eq hf]
      split <;> rfl
  · rfl

end Tree.Mirrors

end BlockPresence
