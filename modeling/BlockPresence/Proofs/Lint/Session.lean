import BlockPresence.Lint.Session
import BlockPresence.Proofs.Lint.Objection
import BlockPresence.Proofs.Lint.Visit

/-!
# Sessions with and without a memo

At every point of a session the memo holds the answers to the questions asked since it was last cleared
(`Checker.remembers_memoAfter`), so each request is answered as if without a memo, except that what a body assigns is
recalled from the first question about its definition. Where all methods are those that their definitions give, this
exception vanishes: each request is answered as if it were the only one (`Checker.run_eq`).
-/

namespace BlockPresence

open Node (Coherent)

/-! ## Questions of a session -/

namespace Request

/-- Whether a request clears the memo. -/
def clears : Request → Bool
  | openFile | reset => true
  | _ => false

/-- The questions that a request asks of the memo. -/
def questions (c : Checker) : Request → List Question
  | openFile | reset => []
  | reassigned m name => [⟨m, name⟩]
  | usableParam m => m.questions
  | check t n => c.rule.questions t n
  | visit v t n => c.questions v t n

end Request

namespace Checker

/-- The answer to a request that has its questions answered by `scan`. -/
def answerBy (c : Checker) (scan : Method → String → Bool) : Request → Traced Reply
  | .openFile | .reset => pure .done
  | .reassigned m name => pure (.flag (scan m name))
  | .usableParam m => pure (.param (m.usableParamBy scan))
  | .check t n => (c.rule.checkBy scan t n).map .violation
  | .visit v t n => (c.visitBy scan v t n).map .violation

/-- The questions asked since the memo was last cleared. -/
def asked (c : Checker) (requests : List Request) : List Question :=
  (requests.rtakeWhile fun request => !request.clears).flatMap (Request.questions c)

/-- The memo after some requests. -/
def memoAfter (c : Checker) (memo : Memo) (requests : List Request) : Memo :=
  requests.foldl (fun memo request => (c.answer memo request).2) memo

variable {c : Checker} {requests : List Request} {request : Request}

theorem asked_concat (c : Checker) (requests : List Request) (request : Request) : c.asked (requests ++ [request]) =
    if request.clears then [] else c.asked requests ++ request.questions c := by
  unfold asked
  by_cases h : request.clears = true
  · rw [List.rtakeWhile_concat_neg _ _ _ (by simp [h]), if_pos h, List.flatMap_nil]
  · rw [List.rtakeWhile_concat_pos _ _ _ (by simp [h]), if_neg h, List.flatMap_append, List.flatMap_singleton]

theorem answerBy_congr {scan scan' : Method → String → Bool}
    (h : ∀ q ∈ request.questions c, scan q.method q.name = scan' q.method q.name) :
    c.answerBy scan request = c.answerBy scan' request := by
  cases request with
  | openFile | reset => rfl
  | reassigned m name => rw [answerBy, answerBy, h ⟨m, name⟩ List.mem_cons_self]
  | usableParam m => rw [answerBy, answerBy, Method.usableParamBy_congr h]
  | check t n => rw [answerBy, answerBy, Rule.checkBy_congr h]
  | visit v t n => rw [answerBy, answerBy, visitBy_congr h]

/-! ## What the memo holds -/

/-- One request is answered from what the memo remembers, and leaves behind what was asked since the memo was last
cleared. -/
theorem answer_of_remembers {memo : Memo} {before : List Question} (h : memo.Remembers before) (c : Checker)
    (request : Request) : (c.answer memo request).1 = c.answerBy (recalled before) request ∧
      (c.answer memo request).2.Remembers (if request.clears then [] else before ++ request.questions c) := by
  cases request with
  | openFile | reset => exact ⟨rfl, Memo.remembers_empty⟩
  | reassigned m name =>
    obtain ⟨hb, hm⟩ := h.reassigned m name
    exact ⟨by simp only [answer, answerBy, hb], hm⟩
  | usableParam m =>
    obtain ⟨hp, hm⟩ := h.usableParam m
    exact ⟨by simp only [answer, answerBy, hp], hm⟩
  | check t n =>
    obtain ⟨hf, hm⟩ := Rule.check_of_remembers h c.rule t n
    exact ⟨by simp only [answer, answerBy, hf], hm⟩
  | visit v t n =>
    obtain ⟨hf, hm⟩ := visit_of_remembers h c v t n
    exact ⟨by simp only [answer, answerBy, hf], hm⟩

/-- **At every point of a session** the memo holds the answers to the questions asked since it was last cleared. -/
theorem remembers_memoAfter (c : Checker) (requests : List Request) :
    (c.memoAfter Memo.empty requests).Remembers (c.asked requests) := by
  induction requests using List.reverseRecOn with
  | nil => exact Memo.remembers_empty
  | append_singleton requests request ih =>
    rw [asked_concat, memoAfter, List.foldl_append, List.foldl_cons, List.foldl_nil]
    exact (answer_of_remembers ih c request).2

theorem getElem?_run (c : Checker) : ∀ (requests : List Request) (memo : Memo) (i : Nat),
    (c.run memo requests)[i]? = requests[i]?.map fun request =>
      (c.answer (c.memoAfter memo (requests.take i)) request).1
  | [], _, _ => rfl
  | _ :: _, _, 0 => rfl
  | request :: requests, memo, i + 1 => by
    rw [run, List.getElem?_cons_succ, List.getElem?_cons_succ, getElem?_run c requests]
    rfl

end Checker

/-! ## Sessions about methods that their definitions give -/

namespace Request

/-- The method that a request is about, if it names one. -/
def method? : Request → Option Method
  | reassigned m _ | usableParam m => some m
  | _ => none

/-- The nodes that a request speaks of, among them every definition that it asks about. -/
def nodes : Request → List Node
  | openFile | reset => []
  | reassigned m _ | usableParam m => [m.node]
  | check t _ | visit _ t _ => t.nodes

end Request

/-- The nodes of the requests are told apart by their ids, and every method that a request names is the one that its
definition gives. -/
structure Request.Faithful (requests : List Request) : Prop where
  coherent : Coherent (requests.flatMap Request.nodes)
  method_eq : ∀ request ∈ requests, ∀ m, request.method? = some m → m = Method.ofDefinition m.node

namespace Checker

variable {c : Checker} {requests : List Request} {request : Request} {q : Question}

theorem fromDefinition_of_mem_request (h : q ∈ request.questions c)
    (hm : ∀ m, request.method? = some m → m = Method.ofDefinition m.node) : q.FromDefinition request.nodes := by
  cases request with
  | openFile | reset => cases h
  | reassigned m name =>
    cases List.mem_singleton.1 h
    exact ⟨List.mem_cons_self, hm m rfl⟩
  | usableParam m =>
    obtain ⟨name, -, rfl⟩ := List.mem_map.1 h
    exact ⟨List.mem_cons_self, hm m rfl⟩
  | check t n => exact Rule.fromDefinition_of_mem_questions h
  | visit v t n => exact fromDefinition_of_mem_questions h

theorem fromDefinition_of_mem (hf : Request.Faithful requests) (hr : request ∈ requests)
    (h : q ∈ request.questions c) : q.FromDefinition (requests.flatMap Request.nodes) :=
  (fromDefinition_of_mem_request h (hf.method_eq request hr)).mono fun _ hx => List.mem_flatMap.2 ⟨request, hr, hx⟩

theorem fromDefinition_of_mem_asked {before : List Request} (hf : Request.Faithful requests) (hb : before ⊆ requests)
    (h : q ∈ c.asked before) : q.FromDefinition (requests.flatMap Request.nodes) := by
  obtain ⟨request, hr, hq⟩ := List.mem_flatMap.1 h
  exact fromDefinition_of_mem hf (hb ((List.rtakeWhile_suffix _ _).subset hr)) hq

/-- **What a session answers.** Each request of a session is answered without a memo, except that whether a body assigns
to a name is what a scan found for the first question about the same definition and name since the memo was last cleared.
Where the methods are those that their definitions give, each request is answered as by a checker that has just been set
up. -/
theorem run_eq (c : Checker) (requests : List Request) :
    (∀ i : Nat, (c.run Memo.empty requests)[i]? =
      requests[i]?.map (c.answerBy (recalled (c.asked (requests.take i))))) ∧
    (Request.Faithful requests →
      c.run Memo.empty requests = requests.map fun request => (c.answer Memo.empty request).1) := by
  have hrun : ∀ i : Nat, (c.run Memo.empty requests)[i]? =
      requests[i]?.map (c.answerBy (recalled (c.asked (requests.take i)))) := by
    intro i
    rw [getElem?_run]
    congr 1
    funext request
    exact (answer_of_remembers (remembers_memoAfter c _) c request).1
  refine ⟨hrun, fun hf => List.ext_getElem? fun i => ?_⟩
  rw [hrun, List.getElem?_map]
  cases hi : requests[i]? with
  | none => rfl
  | some request =>
    have hr : request ∈ requests := List.mem_of_getElem? hi
    rw [Option.map_some, Option.map_some, (answer_of_remembers Memo.remembers_empty c request).1, recalled_nil]
    congr 1
    refine answerBy_congr fun q hq => recalled_eq_assigns hf.coherent (fun q' hq' => ?_) (fromDefinition_of_mem hf hr hq)
    exact fromDefinition_of_mem_asked hf (List.take_subset i requests) hq'

/-- Two trees share the definition `def m(&block) = block_given?`, and no request on one changes an answer on the
other. -/
theorem run_eq_shared_definition :
    let c : Checker := ⟨Rule.uniform .truthiness⟩
    let t := Tree.ofRoot (Node.definition 0 (Node.blockGiven 3)) "m.rb"
    let t' := Tree.ofRoot ⟨4, .group, [.node t.root], .origin⟩ "n.rb"
    let requests := [.check t (Node.blockGiven 3), .usableParam (Method.ofDefinition t.root),
      .visit .call t' (Node.blockGiven 3), .reset, .reassigned (Method.ofDefinition t.root) "block"]
    Request.Faithful requests ∧
      c.run Memo.empty requests = requests.map fun request => (c.answer Memo.empty request).1 := by
  intro c t t' requests
  have ht : t.root ∈ t'.nodes := by
    rw [Tree.nodes_eq]
    exact Node.mem_preorder_of_mem_childNodes (Node.mem_childNodes_of_mem_slots List.mem_cons_self)
  have hts : t.nodes ⊆ t'.nodes := fun x hx => by
    rw [Tree.nodes_eq] at *
    exact Node.mem_preorder_trans hx ht
  have hd : t'.root.Distinct := by unfold Node.Distinct; decide
  have hf : Request.Faithful requests := by
    constructor
    · refine (t'.nodes_eq ▸ hd.coherent : Coherent t'.nodes).mono fun x hx => ?_
      obtain ⟨request, hr, hx⟩ := List.mem_flatMap.1 hx
      simp only [requests, List.mem_cons, List.not_mem_nil, or_false] at hr
      rcases hr with rfl | rfl | rfl | rfl | rfl
      · exact hts hx
      · exact List.mem_singleton.1 hx ▸ ht
      · exact hx
      · cases hx
      · exact List.mem_singleton.1 hx ▸ ht
    · intro request hr m hm
      simp only [requests, List.mem_cons, List.not_mem_nil, or_false] at hr
      rcases hr with rfl | rfl | rfl | rfl | rfl <;> cases hm <;> rfl
  exact ⟨hf, (run_eq c requests).2 hf⟩

end Checker

end BlockPresence
