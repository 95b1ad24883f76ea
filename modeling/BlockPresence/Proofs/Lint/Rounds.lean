import BlockPresence.Proofs.Lint.Advice
import BlockPresence.Proofs.Lint.Recheck
import BlockPresence.Proofs.Tree.Splice

/-!
# Correcting in rounds

In each round one of the reported nodes is replaced by what its correction denotes (`Rule.Corrects`), whichever it is, and
the new tree is checked afresh. A round may free a block parameter and so bring up new reports, hence their number is no
measure. But only nodes of the kinds of the two other idioms are ever reported, and a round brings in none of these and
takes one away (`Rule.Corrects.pending_lt`).

So the rounds come to an end, and where no further round is possible nothing is reported (`Rule.rounds_end`).
-/

namespace BlockPresence

open Node (Outside Replaces)

namespace Node

variable {root n s y : Node} {i : Idiom} {text : String}

theorem Spells.kind_eq (h : s.Spells i text) : s.kind = i.kind := by
  cases h with
  | call hk _ => exact hk
  | probe hk _ _ _ => exact hk
  | name hk _ => exact hk

/-- What a text denotes is a node of the kind of its idiom, with a call of the passed block below it at most. -/
theorem Spells.kind_of_mem (h : s.Spells i text) (hy : y ∈ s.preorder) : y = s ∨ y.kind = .yielding := by
  refine (mem_preorder.1 hy).imp_right fun ⟨c, hc, hyc⟩ => ?_
  cases h with
  | call _ hs => rw [childNodes, hs] at hc; cases hc
  | name _ hs => rw [childNodes, hs] at hc; cases hc
  | @probe operand _ hs ho hos =>
    have hco : c = operand := by
      rw [childNodes, hs] at hc
      exact List.mem_singleton.1 hc
    rw [hco, preorder_eq, childNodes, hos, List.filterMap_nil, List.flatMap_nil, List.mem_singleton] at hyc
    rw [hyc, ho]

/-- Whatever source text an idiom has, there are nodes that it denotes, with ids as high as wanted. -/
theorem exists_spells {param? : Option String} (h : i.sourceText? param? = some text) (k : Nat) :
    ∃ s : Node, s.Spells i text ∧ s.Distinct ∧ ∀ y ∈ s.preorder, k ≤ y.id := by
  cases i with
  | call =>
    cases h
    exact ⟨⟨k, .call, [.empty, .text "block_given?"], .origin⟩, .call rfl rfl,
      by simp [Distinct, preorder, preorderSlots], by simp [preorder, preorderSlots]⟩
  | probe =>
    cases h
    exact ⟨⟨k, .definedQuery, [.node ⟨k + 1, .yielding, [], .origin⟩], .origin⟩, .probe rfl rfl rfl rfl,
      by simp [Distinct, preorder, preorderSlots], by simp [preorder, preorderSlots]⟩
  | truthiness =>
    exact ⟨⟨k, .localRead, [.text text], .origin⟩, .name rfl rfl,
      by simp [Distinct, preorder, preorderSlots], by simp [preorder, preorderSlots]⟩

end Node

namespace Rule

variable {r : Rule} {t t' : Tree} {n s x y : Node} {ss : List Node}

/-! ## Nodes that can be reported -/

/-- Whether a node is of the kind of another idiom than the preferred one. -/
def isPending (r : Rule) (n : Node) : Bool := concerns n.kind && n.kind ≠ r.preferred.kind

/-- The number of nodes of the kinds of the other idioms than the preferred one. -/
def pending (r : Rule) (t : Tree) : Nat := t.nodes.countP r.isPending

theorem Reports.isPending (h : r.Reports t n) : r.isPending n = true := by
  obtain ⟨i, hk, hi⟩ := h.kind_eq
  have hne : i.kind ≠ r.preferred.kind := fun he => hi (Idiom.kind_inj he)
  simp [Rule.isPending, hk, i.concerns_kind, hne]

/-- What the preferred idiom is written as is never reported, in whatever tree. -/
theorem isPending_of_spells {text : String} (hs : s.Spells r.preferred text) (hy : y ∈ s.preorder) :
    r.isPending y = false := by
  rcases hs.kind_of_mem hy with rfl | hk
  · simp [isPending, hs.kind_eq]
  · simp [isPending, hk, concerns]

theorem pending_le (r : Rule) (t : Tree) : r.pending t ≤ t.nodes.countP fun n => concerns n.kind :=
  List.countP_mono_left fun n _ h => by
    rw [isPending, Bool.and_eq_true] at h
    exact h.1

/-! ## One round -/

/-- A check reports the node `n` of the tree, and `s` is a new node that the text of the correction denotes and that can
take the place of `n`. -/
structure Corrects (r : Rule) (t : Tree) (n s : Node) : Prop where
  replaces : t.root.Replaces n s
  reported : ∃ v c, (r.check t n Memo.empty).1.result = .ok (some v) ∧ v.correction = some c ∧
    s.Spells r.preferred c.replacement

namespace Corrects

theorem reports (h : r.Corrects t n s) : r.Reports t n := by
  obtain ⟨v, c, hv, -⟩ := h.reported
  exact ⟨v, hv⟩

theorem spells (h : r.Corrects t n s) : ∃ text, s.Spells r.preferred text := by
  obtain ⟨v, c, -, -, hs⟩ := h.reported
  exact ⟨_, hs⟩

/-- **A round** leaves fewer nodes that can be reported. -/
theorem pending_lt (h : r.Corrects t n s) : r.pending (t.replace n s) < r.pending t := by
  obtain ⟨text, hs⟩ := h.spells
  have hout : ∀ x, Outside t.root n x → r.isPending (Node.replace n.id s x) = r.isPending x := fun x hx => by
    rw [isPending, isPending, Node.kind_replace (h.replaces.id_ne hx)]
  have hcount := h.replaces.countP_replace hout
  have hnew : s.preorder.countP r.isPending = 0 :=
    List.countP_eq_zero.2 fun y hy => by simp [isPending_of_spells hs hy]
  have hold : 0 < n.preorder.countP r.isPending :=
    List.countP_pos_iff.2 ⟨n, n.self_mem_preorder, h.reports.isPending⟩
  rw [pending, pending, Tree.nodes_eq, Tree.nodes_eq]
  change (Node.replace n.id s t.root).preorder.countP r.isPending < _
  omega

/-- A node is new after a round, or it was there before as a node of the same kind. -/
theorem origin (h : r.Corrects t n s) (hx : x ∈ (t.replace n s).nodes) :
    x ∈ s.preorder ∨ ∃ y ∈ t.nodes, y.id = x.id ∧ y.kind = x.kind := by
  rw [Tree.nodes_eq] at hx
  rcases h.replaces.mem_replace_root.1 hx with ⟨y, hy, rfl⟩ | hx
  · refine .inr ⟨y, t.nodes_eq ▸ hy.1, ?_, ?_⟩
    · rw [Node.id_replace (h.replaces.id_ne hy)]
    · rw [Node.kind_replace (h.replaces.id_ne hy)]
  · exact .inl hx

end Corrects

/-- **A next round** is possible wherever something is reported. -/
theorem exists_corrects (hd : t.root.Distinct) (ha : r.config.autocorrect = true) (hn : n ∈ t.nodes)
    (h : r.Reports t n) : ∃ s, r.Corrects t n s := by
  obtain ⟨v, hv⟩ := h
  obtain ⟨m, param?, a, message, -, -, hadvice, rfl⟩ := exists_advice_of_violation hv
  have htext : r.preferred.sourceText? param? = some a.replacement := by
    rcases adviceFor?_cases hadvice with ⟨e, text, -, -, htext, rfl, -⟩ | ⟨p, text, -, -, -, htext, rfl⟩
    · exact htext
    · exact htext
  obtain ⟨k, hk⟩ := Node.exists_fresh t.root
  obtain ⟨s, hs, hsd, hsk⟩ := Node.exists_spells htext k
  refine ⟨s, ⟨hd, t.nodes_eq ▸ hn, hsd, fun x hx y hy => ?_⟩, _, _, hv, if_pos ha, hs⟩
  have hxk := hk x hx.1
  have hyk := hsk y hy
  omega

/-! ## Rounds -/

/-- Rounds lead from one tree to another. In each of them some reported node is replaced; `ss` are the nodes that take
their places, in turn. -/
inductive Rounds (r : Rule) : Tree → List Node → Tree → Prop
  | done {t : Tree} : Rounds r t [] t
  | round {t t' : Tree} {n s : Node} {ss : List Node} : r.Corrects t n s → Rounds r (t.replace n s) ss t' →
      Rounds r t (s :: ss) t'

/-- No check of a node of the tree reports a violation. -/
def Clean (r : Rule) (t : Tree) : Prop := ∀ x ∈ t.nodes, ¬ r.Reports t x

/-- A clean tree has nothing to complain of, and where the templates can be filled, no check of it fails either. -/
theorem Clean.check_result (hts : r.templates.Complete) (h : r.Clean t) (hx : x ∈ t.nodes) :
    (r.check t x Memo.empty).1.result = .ok none := by
  by_contra hne
  obtain ⟨m, param?, a, -, hask, ha, hout⟩ := exists_advice_of_check hne
  obtain ⟨hs, hf⟩ := switch_of_adviceFor? hask ha
  obtain ⟨message, hm⟩ := hts.exists_message hs hf
  exact h x hx ⟨_, hout.trans (outcome_eq_ok_some_iff.2 ⟨a, message, rfl, hm, rfl⟩)⟩

namespace Rounds

theorem distinct (h : r.Rounds t ss t') (hd : t.root.Distinct) : t'.root.Distinct := by
  induction h with
  | done => exact hd
  | round hc _ ih => exact ih hc.replaces.distinct_replace

/-- **Each of the rounds** takes away a node that can be reported. -/
theorem length_add_pending_le (h : r.Rounds t ss t') : ss.length + r.pending t' ≤ r.pending t := by
  induction h with
  | done => simp
  | round hc _ ih =>
    have hlt := hc.pending_lt
    rw [List.length_cons]
    omega

theorem spells (h : r.Rounds t ss t') : ∀ s ∈ ss, ∃ text, s.Spells r.preferred text := by
  induction h with
  | done => exact fun s hs => (nomatch hs)
  | round hc _ ih =>
    intro s hs
    rcases List.mem_cons.1 hs with rfl | hs
    · exact hc.spells
    · exact ih s hs

/-- What the rounds brought in is not reported. -/
theorem not_reports_new (h : r.Rounds t ss t') (hs : s ∈ ss) (hy : y ∈ s.preorder) (t'' : Tree) :
    ¬ r.Reports t'' y := by
  intro hr
  obtain ⟨text, hsp⟩ := h.spells s hs
  have hp := hr.isPending
  rw [isPending_of_spells hsp hy] at hp
  cases hp

/-- After some rounds a node that can be reported was there from the start. -/
theorem origin (h : r.Rounds t ss t') (hx : x ∈ t'.nodes) (hp : r.isPending x = true) :
    ∃ y ∈ t.nodes, y.id = x.id ∧ y.kind = x.kind := by
  induction h with
  | done => exact ⟨x, hx, rfl, rfl⟩
  | @round t t' n s ss hc _ ih =>
    obtain ⟨y, hy, hid, hkind⟩ := ih hx
    rcases hc.origin hy with hys | ⟨z, hz, hzid, hzkind⟩
    · obtain ⟨text, hs⟩ := hc.spells
      have hpy := isPending_of_spells hs hys
      rw [isPending, hkind, ← isPending, hp] at hpy
      cases hpy
    · exact ⟨z, hz, hzid.trans hid, hzkind.trans hkind⟩

end Rounds

/-- From every tree some rounds lead to a clean one. -/
theorem exists_rounds_clean (ha : r.config.autocorrect = true) (t : Tree) (hd : t.root.Distinct) :
    ∃ ss t', r.Rounds t ss t' ∧ r.Clean t' := by
  induction hk : r.pending t using Nat.strongRecOn generalizing t with
  | _ k ih =>
    subst hk
    by_cases hc : r.Clean t
    · exact ⟨[], t, .done, hc⟩
    · simp only [Clean, not_forall, not_not] at hc
      obtain ⟨n, hn, hr⟩ := hc
      obtain ⟨s, hs⟩ := exists_corrects hd ha hn hr
      obtain ⟨ss, t', hrs, hclean⟩ := ih _ hs.pending_lt _ hs.replaces.distinct_replace rfl
      exact ⟨s :: ss, t', .round hs hrs, hclean⟩

/-- **Correcting comes to an end**, in a clean tree. Start with a tree in which no node occurs twice, and let each round
correct some reported node, whichever it is. There are never more rounds than the tree has calls, queries and reads of
local variables. What a round brings in is not reported later, so that what is reported was there from the start. As
long as something is reported, any of it can be corrected in a next round: the rounds can only end in a clean tree, of
which, with templates that can be filled, every check returns nothing. And from wherever they have got to, they do. -/
theorem rounds_end (r : Rule) (t : Tree) (hd : t.root.Distinct) (ha : r.config.autocorrect = true) (ss : List Node)
    (t' : Tree) (h : r.Rounds t ss t') :
    ss.length ≤ (t.nodes.countP fun n => concerns n.kind) ∧
    (∀ s ∈ ss, ∀ y ∈ s.preorder, ¬ r.Reports t' y) ∧
    (∀ x ∈ t'.nodes, r.Reports t' x → (∃ y ∈ t.nodes, y.id = x.id ∧ y.kind = x.kind) ∧ ∃ s, r.Corrects t' x s) ∧
    ((∀ n s, ¬ r.Corrects t' n s) → r.Clean t' ∧
      (r.templates.Complete → ∀ x ∈ t'.nodes, (r.check t' x Memo.empty).1.result = .ok none)) ∧
    ∃ ss' t'', r.Rounds t' ss' t'' ∧ r.Clean t'' := by
  have hd' := h.distinct hd
  have hnext : ∀ x ∈ t'.nodes, r.Reports t' x → ∃ s, r.Corrects t' x s := fun x hx hr => exists_corrects hd' ha hx hr
  refine ⟨?_, fun s hs y hy => h.not_reports_new hs hy t', fun x hx hr => ⟨h.origin hx hr.isPending, hnext x hx hr⟩,
    fun hno => ?_, exists_rounds_clean ha t' hd'⟩
  · have hle := h.length_add_pending_le
    have hcount := r.pending_le t
    omega
  · have hclean : r.Clean t' := fun x hx hr => (hnext x hx hr).elim fun s hs => hno x s hs
    exact ⟨hclean, fun hts x hx => hclean.check_result hts hx⟩

/-- In `def m(&block) = (block_given?; defined?(yield(block_given?)))` the first call is corrected in a first round. -/
theorem rounds_end_first_call :
    let r := uniform .truthiness
    let n := Node.blockGiven 4
    let probe : Node := ⟨5, .definedQuery, [.node ⟨6, .yielding, [.node (Node.blockGiven 7)], .origin⟩], .origin⟩
    let t := Tree.ofRoot (Node.definition 0 ⟨3, .group, [.node n, .node probe], .origin⟩) "m.rb"
    let s : Node := ⟨8, .localRead, [.text "block"], .origin⟩
    t.root.Distinct ∧ r.config.autocorrect = true ∧ r.Rounds t [s] (t.replace n s) ∧
      [s].length ≤ (t.nodes.countP fun n => concerns n.kind) ∧
      (∀ y ∈ s.preorder, ¬ r.Reports (t.replace n s) y) ∧
      ∃ ss t', r.Rounds (t.replace n s) ss t' ∧ r.Clean t' := by
  intro r n probe t s
  have hd : t.root.Distinct := by unfold Node.Distinct; decide
  have hn : n ∈ t.root.preorder :=
    Node.mem_definition (Node.mem_preorder_of_mem_childNodes (Node.mem_childNodes_of_slot (i := 0) rfl))
  have hv : (r.check t n Memo.empty).1.result = .ok (some ⟨"Ask block.", "m.rb:1:0", n, some ⟨.origin, "block"⟩⟩) := by
    cbv
  have hc : r.Corrects t n s := ⟨.of_nodup hn (by decide), _, _, hv, rfl, .name rfl rfl⟩
  have hr : r.Rounds t [s] (t.replace n s) := .round hc .done
  obtain ⟨hlen, hnew, -, -, hend⟩ := rounds_end r t hd rfl [s] (t.replace n s) hr
  exact ⟨hd, rfl, hr, hlen, hnew s List.mem_cons_self, hend⟩

end Rule

end BlockPresence
