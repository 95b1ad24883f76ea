import BlockPresence.Proofs.Method.Innermost

/-!
# What a memo remembers

A memo answers a question by the first question of the same definition and name since it was cleared: what a scan of the
body of that first question finds (`recalled`). `Memo.Remembers memo asked` says that `memo` holds just the answers to
the questions `asked`, and asking one more question keeps this (`Memo.Remembers.reassigned`).

Where the methods are those that the definitions give, the first question is as good as any other
(`recalled_eq_assigns`).
-/

namespace BlockPresence

/-- A question whether a method assigns to a name. -/
structure Question where
  method : Method
  name : String

namespace Question

/-- What a memo tells questions apart by: the definition and the name, but not the body. -/
def key (q : Question) : Nat × String := (q.method.node.id, q.name)

/-- Whether a scan of the body that comes with the question finds a write to the name. -/
def scan (q : Question) : Bool := decide (q.method.Writes q.name)

theorem scan_eq (q : Question) : q.scan = q.method.assigns q.name := by
  rw [scan, Bool.eq_iff_iff, decide_eq_true_iff, Method.assigns_iff]

/-- The first question about the same definition and name, among those asked before and then this one. -/
def first (asked : List Question) (q : Question) : Question := (asked.find? fun q' => q'.key == q.key).getD q

/-- The question is about the method that a definition among the nodes `ns` gives. -/
def FromDefinition (ns : List Node) (q : Question) : Prop :=
  q.method.node ∈ ns ∧ q.method = Method.ofDefinition q.method.node

theorem FromDefinition.mono {ns ms : List Node} {q : Question} (h : q.FromDefinition ns) (hs : ns ⊆ ms) :
    q.FromDefinition ms := ⟨hs h.1, h.2⟩

end Question

/-- The answer to a question after the questions `asked`: what a scan finds for the first of them about the same
definition and name. -/
def recalled (asked : List Question) (m : Method) (name : String) : Bool := (Question.first asked ⟨m, name⟩).scan

theorem recalled_nil : recalled [] = Method.assigns := by
  funext m name
  exact Question.scan_eq ⟨m, name⟩

/-- Among methods that their definitions give, all questions about one definition and name have one answer. -/
theorem recalled_eq_assigns {ns : List Node} {asked : List Question} {q : Question} (hc : Node.Coherent ns)
    (ha : ∀ q ∈ asked, q.FromDefinition ns) (hq : q.FromDefinition ns) :
    recalled asked q.method q.name = q.method.assigns q.name := by
  unfold recalled Question.first
  cases hf : asked.find? fun q' => q'.key == q.key with
  | none => exact q.scan_eq
  | some q' =>
    have hk : q'.key = q.key := by simpa using List.find?_some hf
    obtain ⟨hid, hname⟩ := Prod.mk.inj hk
    obtain ⟨hm', hd'⟩ := ha q' (List.mem_of_find?_eq_some hf)
    have hn : q'.method.node = q.method.node := hc _ hm' _ hq.1 hid
    have hm : q'.method = q.method := by rw [hd', hn, ← hq.2]
    rw [Option.getD_some, q'.scan_eq, hm, hname]

namespace Method

/-- The questions on which it hangs whether the block parameter of a method can be used. -/
def questions (m : Method) : List Question := m.blockParam.toList.map fun name => ⟨m, name⟩

/-- The block parameter of a method, if `scan` does not find it assigned. -/
def usableParamBy (scan : Method → String → Bool) (m : Method) : Option String :=
  m.blockParam.filter fun name => !scan m name

theorem usableParamBy_congr {scan scan' : Method → String → Bool} {m : Method}
    (h : ∀ q ∈ m.questions, scan q.method q.name = scan' q.method q.name) :
    m.usableParamBy scan = m.usableParamBy scan' := by
  unfold usableParamBy questions at *
  cases hb : m.blockParam with
  | none => rfl
  | some name =>
    have hn := h ⟨m, name⟩ (by simp [hb])
    simp only [Option.filter, hn]

end Method

namespace Memo

/-- The memo holds the answers to the questions `asked` and nothing else, each as it was when first asked. -/
def Remembers (memo : Memo) (asked : List Question) : Prop :=
  ∀ k, memo.answers.lookup k = (asked.find? fun q => q.key == k).map Question.scan

theorem remembers_empty : empty.Remembers [] := fun _ => rfl

/-- Every answer that the memo holds was scanned for a method that a definition among the nodes `ns` gives. -/
def ScannedFrom (memo : Memo) (ns : List Node) : Prop :=
  ∃ asked, memo.Remembers asked ∧ ∀ q ∈ asked, q.FromDefinition ns

theorem empty_scannedFrom (ns : List Node) : empty.ScannedFrom ns := ⟨[], remembers_empty, fun _ h => (nomatch h)⟩

namespace Remembers

variable {memo : Memo} {asked : List Question} {m : Method} {name : String}

/-- A question that was asked before leaves the first questions as they are. -/
theorem append_asked (h : memo.Remembers asked) {q : Question} {b : Bool} (hq : memo.answers.lookup q.key = some b) :
    memo.Remembers (asked ++ [q]) := by
  intro k
  rw [h k, List.find?_append]
  cases hk : asked.find? fun q => q.key == k with
  | some _ => rfl
  | none =>
    have hne : q.key ≠ k := by
      rintro rfl
      rw [h q.key, hk] at hq
      cases hq
    simp [hne]

theorem append_new (h : memo.Remembers asked) {q : Question} (hq : memo.answers.lookup q.key = none) :
    Remembers ⟨(q.key, q.scan) :: memo.answers⟩ (asked ++ [q]) := by
  intro k
  rw [List.lookup_cons, List.find?_append]
  by_cases hk : k = q.key
  · subst hk
    rw [h q.key] at hq
    simp [Option.map_eq_none_iff.1 hq]
  · simp only [beq_eq_false_iff_ne.2 hk, h k]
    cases asked.find? fun q => q.key == k with
    | some _ => rfl
    | none => simp [Ne.symm hk]

/-- **A memo answers by the first question**, and remembers it from then on. -/
theorem reassigned (h : memo.Remembers asked) (m : Method) (name : String) :
    (memo.reassigned m name).1 = recalled asked m name ∧
      (memo.reassigned m name).2.Remembers (asked ++ [⟨m, name⟩]) := by
  let q : Question := ⟨m, name⟩
  have hk := h q.key
  unfold Memo.reassigned recalled Question.first
  cases hl : memo.find? m name with
  | some b =>
    have hq : memo.answers.lookup q.key = some b := hl
    rw [hq] at hk
    obtain ⟨q', hf, hs⟩ := Option.map_eq_some_iff.1 hk.symm
    refine ⟨?_, h.append_asked hq⟩
    change b = ((asked.find? fun q' => q'.key == q.key).getD q).scan
    rw [hf, Option.getD_some, hs]
  | none =>
    have hq : memo.answers.lookup q.key = none := hl
    rw [hq] at hk
    have hs : m.assigns name = q.scan := q.scan_eq.symm
    dsimp only
    rw [hs]
    refine ⟨?_, h.append_new hq⟩
    change q.scan = ((asked.find? fun q' => q'.key == q.key).getD q).scan
    rw [Option.map_eq_none_iff.1 hk.symm, Option.getD_none]

theorem usableParam (h : memo.Remembers asked) (m : Method) :
    (memo.usableParam m).1 = m.usableParamBy (recalled asked) ∧
      (memo.usableParam m).2.Remembers (asked ++ m.questions) := by
  unfold Memo.usableParam Method.usableParamBy Method.questions
  cases m.blockParam with
  | none => exact ⟨rfl, by simpa using h⟩
  | some name =>
    obtain ⟨hr, hm⟩ := h.reassigned m name
    refine ⟨?_, hm⟩
    simp only [Option.filter, ← hr]
    cases (memo.reassigned m name).1 <;> rfl

end Remembers

end Memo

end BlockPresence
