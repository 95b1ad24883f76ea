import BlockPresence.Lint.Survey
import BlockPresence.Proofs.Lint.Advice

/-!
# What a check looks at

The walks outward from a node, for its method, for what tests it and for blocks that hide a name, all end at the next
definition. So two trees with one definition show whatever is below the definition alike (`Tree.alike_of_definition`), and
a check finds the same in both, in whatever surroundings the definition stands (`Rule.check_locality`).
-/

namespace BlockPresence

namespace Node

variable {n d : Node} {as bs bs' : List Node} {s : String}

/-! ## Walks end at a definition -/

theorem isOnlyTested_of_isDefinition (hd : d.kind.isDefinition = true) : n.isOnlyTested (d :: as) = false := by
  rw [isOnlyTested]
  generalize d.kind = k at hd
  cases k with
  | method => rfl
  | singletonMethod => rfl
  | _ => cases hd

/-- What is above a definition does not test what is below it. -/
theorem isOnlyTested_append_definition (hd : d.kind.isDefinition = true) :
    n.isOnlyTested (as ++ d :: bs) = n.isOnlyTested (as ++ d :: bs') := by
  induction as generalizing n with
  | nil => exact (isOnlyTested_of_isDefinition hd).trans (isOnlyTested_of_isDefinition hd).symm
  | cons a as ih => rw [List.cons_append, List.cons_append, isOnlyTested, isOnlyTested, ih]

/-- Blocks above a definition hide nothing from what is below it. -/
theorem isHidden_append_definition (hd : d.kind.isDefinition = true) :
    n.isHidden s (as ++ d :: bs) = n.isHidden s (as ++ d :: bs') := by
  induction as generalizing n with
  | nil => rw [List.nil_append, List.nil_append, isHidden, isHidden, if_pos hd, if_pos hd]
  | cons a as ih => rw [List.cons_append, List.cons_append, isHidden, isHidden, ih]

end Node

/-! ## Trees that show a node alike -/

/-- Two trees show a node in the same method, tested or not in both, and with the same names hidden. -/
structure Tree.Alike (t₁ t₂ : Tree) (n : Node) : Prop where
  method : Method.enclosing? t₁ n = Method.enclosing? t₂ n
  isOnlyTested : t₁.isOnlyTested n = t₂.isOnlyTested n
  isHidden : ∀ name, t₁.isHidden n name = t₂.isHidden n name

namespace Tree

variable {t₁ t₂ : Tree} {d n : Node} {inner outer₁ outer₂ : List Node}

/-- **Trees with one definition** show whatever is below it alike. -/
theorem alike_of_definition (hk : d.kind.isDefinition = true) (h₁ : t₁.ancestors n = inner ++ d :: outer₁)
    (h₂ : t₂.ancestors n = inner ++ d :: outer₂) : t₁.Alike t₂ n where
  method := by
    unfold Method.enclosing?
    rw [h₁, h₂, List.find?_append, List.find?_append, List.find?_cons, List.find?_cons, hk]
  isOnlyTested := by
    unfold Tree.isOnlyTested
    rw [h₁, h₂, Node.isOnlyTested_append_definition hk]
  isHidden name := by
    unfold Tree.isHidden
    rw [h₁, h₂, Node.isHidden_append_definition hk]

namespace Alike

variable (h : t₁.Alike t₂ n)
include h

theorem occurrence (param? : Option String) : Occurrence.of? t₁ n param? = Occurrence.of? t₂ n param? := by
  unfold Occurrence.of? Occurrence.truthiness?
  simp only [h.isOnlyTested, h.isHidden]

theorem survey (memo : Memo) : SurveyRow.ofNode t₁ n memo = SurveyRow.ofNode t₂ n memo := by
  unfold SurveyRow.ofNode
  simp only [h.method, h.isOnlyTested, h.isHidden, h.occurrence]

end Alike

end Tree

/-! ## The same check in another tree -/

/-- The same violation, placed in the file of the tree `t`. -/
def Violation.relocate (t : Tree) (v : Violation) : Violation := { v with location := t.location v.node }

namespace Memo

/-- A question that is asked again has the same answer, and there is nothing more to remember. -/
theorem reassigned_again (memo : Memo) (m : Method) (name : String) :
    (memo.reassigned m name).2.reassigned m name = memo.reassigned m name := by
  unfold reassigned
  cases hf : memo.find? m name with
  | some answer => simp only [hf]
  | none => simp [find?]

theorem usableParam_again (memo : Memo) (m : Method) :
    (memo.usableParam m).2.usableParam m = memo.usableParam m := by
  unfold usableParam
  cases m.blockParam with
  | none => rfl
  | some name => simp only [reassigned_again]

end Memo

namespace Rule

variable {r : Rule} {t t₁ t₂ : Tree} {n : Node}

/-- A check that is made again finds the same, and there is nothing more to remember. -/
theorem check_again (r : Rule) (t : Tree) (n : Node) (memo : Memo) :
    r.check t n (r.check t n memo).2 = r.check t n memo := by
  unfold check
  by_cases hk : concerns n.kind = true
  · simp only [hk, if_true]
    cases Method.enclosing? t n with
    | none => rfl
    | some m =>
      by_cases hp : r.needsParam n = true
      · simp only [paramFor, hp, if_true, Memo.usableParam_again]
      · simp only [paramFor, hp, Bool.false_eq_true, if_false]
  · simp only [hk, Bool.false_eq_true, if_false]

theorem adviceFor?_alike (h : t₁.Alike t₂ n) (r : Rule) (param? : Option String) :
    r.adviceFor? t₁ n param? = r.adviceFor? t₂ n param? := by
  unfold adviceFor?
  simp only [h.occurrence, h.isHidden]

theorem outcome_relocate (r : Rule) (t₁ t₂ : Tree) (n : Node) (a? : Option Advice) :
    r.outcome t₂ n a? = (r.outcome t₁ n a?).map (Option.map (Violation.relocate t₂)) := by
  cases a? with
  | none => rfl
  | some a =>
    rw [outcome, outcome]
    cases r.templates.message a <;> rfl

/-- Trees that show a node alike lead a check to the same questions and, but for the place, to the same violation. -/
theorem check_relocate (h : t₁.Alike t₂ n) (r : Rule) (memo : Memo) :
    (r.check t₂ n memo).2 = (r.check t₁ n memo).2 ∧
      (r.check t₂ n memo).1.result =
        (r.check t₁ n memo).1.result.map (Option.map (Violation.relocate t₂)) := by
  unfold check
  by_cases hk : concerns n.kind = true
  · simp only [hk, if_true, h.method]
    cases he : Method.enclosing? t₂ n with
    | none => exact ⟨rfl, rfl⟩
    | some m =>
      have hask : r.Asks n m (r.paramFor n m memo).1 := asks_paramFor (enclosing?_eq he)
      refine ⟨rfl, ?_⟩
      dsimp only
      rw [judge_result hask.ne_empty, judge_result hask.ne_empty, adviceFor?_alike h, outcome_relocate r t₁ t₂]
  · simp only [hk, Bool.false_eq_true, if_false, true_and]
    rfl

/-- Trees that show a node alike and have one path lead to the same check, its log included. -/
theorem check_alike (h : t₁.Alike t₂ n) (hp : t₁.path = t₂.path) (r : Rule) (memo : Memo) :
    r.check t₁ n memo = r.check t₂ n memo := by
  unfold check judge
  simp only [h.method, h.occurrence, h.isHidden, Tree.location, hp]

/-- There is nothing to report at a node that is not in the tree. -/
theorem check_of_not_mem (h : ∀ x ∈ t.nodes, x.id ≠ n.id) (r : Rule) (memo : Memo) :
    r.check t n memo = (pure none, memo) := by
  unfold check Method.enclosing?
  rw [Tree.ancestors_eq_nil h]
  split <;> rfl

/-- **A check looks no further than the method.** Let two trees have one definition in common. Of every node below it they
show the same line up to the definition, and so the same method with the same usable block parameter, whether the node is
tested, and which names are hidden from it. Whatever the rule and the memo, a check in the one tree and a check in the other
return the same violation but for its place, which has the same line and column, leave the same memo, and write the same log
if the paths are the same; that one of them was made before makes no difference to the other. And of a node that is not in a
tree there is nothing to report. -/
theorem check_locality :
    (∀ (t₁ t₂ : Tree) (d n : Node), t₁.root.Distinct → t₂.root.Distinct → d ∈ t₁.nodes → d ∈ t₂.nodes →
      d.kind.isDefinition = true → n ∈ d.descendants →
      (∃ inner, t₁.ancestors n = inner ++ d :: t₁.ancestors d ∧ t₂.ancestors n = inner ++ d :: t₂.ancestors d) ∧
      t₁.Alike t₂ n ∧ (∀ memo, SurveyRow.ofNode t₁ n memo = SurveyRow.ofNode t₂ n memo) ∧
      ∀ (r : Rule) (memo : Memo),
        (r.check t₂ n memo).2 = (r.check t₁ n memo).2 ∧
        (r.check t₂ n memo).1.result =
          (r.check t₁ n memo).1.result.map (Option.map (Violation.relocate t₂)) ∧
        (t₁.path = t₂.path → r.check t₁ n memo = r.check t₂ n memo) ∧
        r.check t₂ n (r.check t₁ n memo).2 = r.check t₂ n memo) ∧
    ∀ (t : Tree) (n : Node), (∀ x ∈ t.nodes, x.id ≠ n.id) →
      ∀ (r : Rule) (memo : Memo), r.check t n memo = (pure none, memo) := by
  refine ⟨fun t₁ t₂ d n hd₁ hd₂ h₁ h₂ hk hn => ?_, fun t n h r memo => check_of_not_mem h r memo⟩
  obtain ⟨inner, hline⟩ := Node.exists_line_of_mem_descendants hn
  have hcut : ∀ t : Tree, t.root.Distinct → d ∈ t.nodes → t.ancestors n = inner ++ d :: t.ancestors d := by
    intro t hd h
    exact t.ancestors_eq_of_line hd (hline t.root _ (Tree.line_ancestors (Tree.coherent_nodes hd) h))
  have hcut₁ := hcut t₁ hd₁ h₁
  have hcut₂ := hcut t₂ hd₂ h₂
  have h : t₁.Alike t₂ n := Tree.alike_of_definition hk hcut₁ hcut₂
  refine ⟨⟨inner, hcut₁, hcut₂⟩, h, h.survey, fun r memo => ?_⟩
  obtain ⟨hm, hv⟩ := check_relocate h r memo
  exact ⟨hm, hv, fun hp => check_alike h hp r memo, by rw [← hm, check_again]⟩

/-- In `def m(&block) = block_given?` the call is reported with the same correction whether the definition is the whole
file or stands in a block that has a parameter of the same name; and in a tree of its own the call is no idiom. -/
theorem check_locality_nested :
    let n := Node.blockGiven 3
    let d := Node.definition 0 n
    let param : Node := ⟨12, .param .required, [.text "block"], .origin⟩
    let each : Node := ⟨10, .call, [.empty, .text "each"], .origin⟩
    let t₁ := Tree.ofRoot d "a.rb"
    let t₂ := Tree.ofRoot ⟨13, .block, [.node each, .node ⟨11, .args, [.node param], .origin⟩, .node d], .origin⟩ "b.rb"
    let t₃ := Tree.ofRoot param "c.rb"
    let r := uniform .truthiness
    (t₁.root.Distinct ∧ t₂.root.Distinct ∧ d ∈ t₁.nodes ∧ d ∈ t₂.nodes ∧ d.kind.isDefinition = true ∧
        n ∈ d.descendants ∧ ∀ x ∈ t₃.nodes, x.id ≠ n.id) ∧
      t₁.ancestors n ≠ t₂.ancestors n ∧
      (r.check t₁ n Memo.empty).1.result = .ok (some ⟨"Ask block.", "a.rb:1:0", n, some ⟨.origin, "block"⟩⟩) ∧
      (r.check t₂ n Memo.empty).1.result = .ok (some ⟨"Ask block.", "b.rb:1:0", n, some ⟨.origin, "block"⟩⟩) ∧
      (r.check t₃ n Memo.empty).1.result = .ok none := by
  intro n d param each t₁ t₂ t₃ r
  have hd₁ : t₁.root.Distinct := by unfold Node.Distinct; decide
  have hd₂ : t₂.root.Distinct := by unfold Node.Distinct; decide
  have hroot : d ∈ t₂.root.childNodes := Node.mem_childNodes_of_slot (i := 2) rfl
  have h₁ : d ∈ t₁.nodes := List.mem_cons_self
  have h₂ : d ∈ t₂.nodes := t₂.nodes_eq ▸ Node.mem_preorder_of_mem_childNodes hroot
  have hn : n ∈ d.descendants :=
    Node.mem_descendants.2 ⟨n, Node.mem_childNodes_of_slot (i := 2) rfl, n.self_mem_preorder⟩
  have h₃ : ∀ x ∈ t₃.nodes, x.id ≠ n.id := Tree.id_ne_of_not_mem_ids (by decide)
  have hline : t₁.ancestors n = [d] ∧ t₂.ancestors n = [d, t₂.root] := by
    have hc : n ∈ d.childNodes := Node.mem_childNodes_of_slot (i := 2) rfl
    exact ⟨t₁.ancestors_eq_of_line hd₁ (.child .root hc), t₂.ancestors_eq_of_line hd₂ (.child (.child .root hroot) hc)⟩
  have hv : (r.check t₁ n Memo.empty).1.result = .ok (some ⟨"Ask block.", "a.rb:1:0", n, some ⟨.origin, "block"⟩⟩) := by
    cbv
  obtain ⟨hshared, hother⟩ := check_locality
  obtain ⟨-, -, -, hcheck⟩ := hshared t₁ t₂ d n hd₁ hd₂ h₁ h₂ rfl hn
  obtain ⟨-, hsame, -⟩ := hcheck r Memo.empty
  refine ⟨⟨hd₁, hd₂, h₁, h₂, rfl, hn, h₃⟩, ?_, hv, ?_, ?_⟩
  · rw [hline.1, hline.2]
    simp
  · rw [hsame, hv]
    rfl
  · rw [hother t₃ n h₃]
    rfl

end Rule

end BlockPresence
