import BlockPresence.Proofs.Idiom.Position
import BlockPresence.Proofs.Tree.Replace

/-!
# What conditions come to

A value is nil, false, or true in the sense of a condition. `Node.value` evaluates the conjunctions, disjunctions,
parentheses and negations of a tree, when all other nodes have values of their own and one node is given any value.

* `Node.Controls` goes from a node outward to what decides on its value; there is such a thing just if the value of the
  node is only ever tested (`Node.isOnlyTested_iff_controls`).
* Whether a value is true hangs on whether the given one is (`Node.isTrue_value_congr`), and what decides on it does not
  see more than that (`Node.Tests.decision_congr`), also when another node has taken the place of the one with the
  given value (`Node.Tests.decision_replace`).
-/

namespace BlockPresence

/-- What a condition can tell of a value. -/
inductive Outcome where
  | null
  | no
  /-- Every other value. -/
  | yes
deriving DecidableEq, Repr

namespace Outcome

/-- Whether a value counts as true. -/
def isTrue : Outcome → Bool
  | yes => true
  | _ => false

def ofBool (b : Bool) : Outcome := if b then yes else no

def negate (v : Outcome) : Outcome := ofBool !v.isTrue

/-- The first of some values that counts as `b`, else the last of them. -/
def firstOf (b : Bool) (v : Outcome) : List Outcome → Outcome
  | [] => v
  | w :: rest => if v.isTrue = b then v else firstOf b w rest

theorem isTrue_firstOf_congr {b : Bool} : ∀ {v w : Outcome} {vs ws : List Outcome}, v.isTrue = w.isTrue →
    vs.map isTrue = ws.map isTrue → (firstOf b v vs).isTrue = (firstOf b w ws).isTrue
  | _, _, [], [], h, _ => h
  | _, _, [], _ :: _, _, hs => nomatch hs
  | _, _, _ :: _, [], _, hs => nomatch hs
  | v, w, v' :: vs, w' :: ws, h, hs => by
    obtain ⟨h', hs'⟩ := List.cons.inj hs
    rw [firstOf, firstOf, ← h]
    split
    · exact h
    · exact isTrue_firstOf_congr h' hs'

end Outcome

namespace Node

/-! ## Evaluation -/

/-- The value of a node whose child nodes have the values `operands`, where the operands determine it, and else its `own`
value. A conjunction has that of its first operand that is not true, a disjunction that of its first one that is, or else
that of the last one; a pair of parentheses has that of what is in it; a negation yields the opposite. -/
def combine (n : Node) (own : Outcome) (operands : List Outcome) : Outcome :=
  match n.kind, operands with
  | .conj, v :: vs => .firstOf false v vs
  | .disj, v :: vs => .firstOf true v vs
  | .group, v :: _ => if n.slots.length = 1 then v else own
  | .call, v :: _ => if n.slots.length = 2 && (n.slot 1).isText "!" then v.negate else own
  | _, _ => own

mutual

/-- The value of a node when the node `i` has the value `v`, and a node whose operands do not determine its value has
the one that `own` says. -/
def value (own : Nat → Outcome) (i : Nat) (v : Outcome) : Node → Outcome
  | n@⟨id, _, slots, _⟩ => if id = i then v else n.combine (own id) (values own i v slots)

/-- The values of the nodes in a list of slots. -/
def values (own : Nat → Outcome) (i : Nat) (v : Outcome) : List (Slot Node) → List Outcome
  | [] => []
  | .node n :: rest => n.value own i v :: values own i v rest
  | .text _ :: rest => values own i v rest
  | .empty :: rest => values own i v rest

end

section

variable {own : Nat → Outcome} {i : Nat} {v w : Outcome} {n s x : Node} {vs ws : List Outcome} {o : Outcome}

theorem values_eq (slots : List (Slot Node)) :
    values own i v slots = (slots.filterMap Slot.node?).map (value own i v) := by
  induction slots with
  | nil => rfl
  | cons s rest ih => cases s <;> simp [values, Slot.node?, List.filterMap_cons, ih]

theorem value_of_eq (h : n.id = i) : n.value own i v = v := by
  cases n
  exact if_pos h

theorem value_of_ne (h : n.id ≠ i) : n.value own i v = n.combine (own n.id) (n.childNodes.map (value own i v)) := by
  cases n
  rw [childNodes, ← values_eq]
  exact if_neg h

/-- Whether the value of a node is true hangs on whether those of its operands are. -/
theorem isTrue_combine_congr (h : vs.map Outcome.isTrue = ws.map Outcome.isTrue) :
    (n.combine o vs).isTrue = (n.combine o ws).isTrue := by
  cases vs with
  | nil =>
    rw [List.map_eq_nil_iff.1 h.symm]
  | cons v vs =>
    cases ws with
    | nil => cases h
    | cons w ws =>
      obtain ⟨hv, hvs⟩ := List.cons.inj h
      unfold combine
      cases n.kind with
      | conj => exact Outcome.isTrue_firstOf_congr hv hvs
      | disj => exact Outcome.isTrue_firstOf_congr hv hvs
      | group =>
        dsimp only
        split
        · exact hv
        · rfl
      | call => simp only [Outcome.negate, hv]
      | _ => rfl

/-- **Truth hangs on truth**: of two values for one node that are both true or both not, none makes a difference to
whether the value of any node is true. -/
theorem isTrue_value_congr (h : v.isTrue = w.isTrue) : (x.value own i v).isTrue = (x.value own i w).isTrue := by
  induction x using childInduction with
  | node x ih =>
    by_cases hx : x.id = i
    · rw [value_of_eq hx, value_of_eq hx, h]
    · rw [value_of_ne hx, value_of_ne hx]
      refine isTrue_combine_congr ?_
      rw [List.map_map, List.map_map]
      exact List.map_congr_left ih

theorem combine_replace (h : n.id ≠ i) : (replace i s n).combine o vs = n.combine o vs := by
  have htext : ((replace i s n).slot 1).isText "!" = (n.slot 1).isText "!" := by
    rw [slot_replace h]
    cases n.slot 1 <;> rfl
  unfold combine
  rw [kind_replace h, htext, slots_replace h, List.length_map]

/-- A node that takes the place of another one, and has the value that the other one would have, leaves all values as they
would be. -/
theorem value_replace (hx : ∀ y ∈ x.preorder, y.id ≠ s.id) :
    (replace i s x).value own s.id v = x.value own i v := by
  induction x using childInduction with
  | node x ih =>
    by_cases hi : x.id = i
    · rw [replace_of_eq hi, value_of_eq rfl, value_of_eq hi]
    · have hs : (replace i s x).id ≠ s.id := by
        rw [id_replace hi]
        exact hx x x.self_mem_preorder
      rw [value_of_ne hs, value_of_ne hi, combine_replace hi, id_replace hi, childNodes_replace hi, List.map_map]
      congr 1
      exact List.map_congr_left fun c hc => ih c hc fun y hy => hx y (mem_preorder_of_child hc hy)

end

/-! ## What decides on a value -/

/-- From `n` outward along `as` the value is passed on until it is that of `c`, which decides `q`. -/
inductive Controls (q c : Node) : Node → List Node → Prop
  | tested {as : List Node} : q.Tests c → Controls q c c (q :: as)
  | passed {p n : Node} {as : List Node} : p.PassesOn → Controls q c p as → Controls q c n (p :: as)

/-- What `q` makes of its condition `c`, when nodes have the values that `value` says: a negation yields a value, and for
a conditional or a loop it matters whether the condition is true. -/
def decision (q c : Node) (value : Node → Outcome) : Outcome :=
  if q.kind = .call then value q else .ofBool (value c).isTrue

section

variable {root n q c s : Node} {as : List Node} {own : Nat → Outcome} {i : Nat} {v w : Outcome}

/-- **The value of a node is only tested** just if it is passed on to something that decides on it. -/
theorem isOnlyTested_iff_controls (hc : Coherent root.preorder) (hl : Line root n as) :
    n.isOnlyTested as = true ↔ ∃ q c, Controls q c n as := by
  induction hl with
  | root =>
    refine ⟨fun h => (nomatch h), ?_⟩
    rintro ⟨q, c, h⟩
    cases h
  | @child p n as hl hn ih =>
    rw [isOnlyTested_cons_iff hc hl.mem_preorder hn, ih]
    constructor
    · rintro (ht | ⟨hp, q, c, h⟩)
      · exact ⟨p, n, .tested ht⟩
      · exact ⟨q, c, .passed hp h⟩
    · rintro ⟨q, c, h⟩
      cases h with
      | tested ht => exact .inl ht
      | passed hp h => exact .inr ⟨hp, q, c, h⟩

theorem Controls.mem (h : Controls q c n as) : q ∈ as := by
  induction h with
  | tested _ => exact List.mem_cons_self
  | passed _ _ ih => exact List.mem_cons_of_mem _ ih

theorem Controls.tests (h : Controls q c n as) : q.Tests c := by
  induction h with
  | tested ht => exact ht
  | passed _ _ ih => exact ih

theorem Tests.mem_childNodes (h : q.Tests c) : c ∈ q.childNodes := by
  cases h with
  | condition _ hs => exact mem_childNodes_of_slot hs
  | negated _ hs => exact mem_childNodes_of_mem_slots (hs ▸ List.mem_cons_self)

theorem Tests.replace (h : q.Tests c) (hq : q.id ≠ i) : (replace i s q).Tests (replace i s c) := by
  cases h with
  | condition hk hs =>
    refine .condition (by rwa [kind_replace hq]) ?_
    rw [slot_replace hq, hs]
    rfl
  | negated hk hs =>
    refine .negated ((kind_replace hq).trans hk) ?_
    rw [slots_replace hq, hs]
    rfl

theorem PassesOn.replace (h : q.PassesOn) (hq : q.id ≠ i) : (replace i s q).PassesOn := by
  unfold PassesOn
  rwa [kind_replace hq, slots_replace hq, List.length_map]

/-- What decides on a value still does after a replacement below it. -/
theorem Controls.replace (h : Controls q c n as) (has : ∀ a ∈ as, a.id ≠ i) :
    Controls (replace i s q) (replace i s c) (replace i s n) (as.map (replace i s)) := by
  induction h with
  | tested ht => exact .tested (ht.replace (has _ List.mem_cons_self))
  | passed hp _ ih =>
    have hrest := List.forall_mem_cons.1 has
    exact .passed (hp.replace hrest.1) (ih hrest.2)

/-- What decides on a value goes by whether the value is true. -/
theorem Tests.decision_eq (h : q.Tests c) (hq : q.id ≠ i) : q.decision c (value own i v) =
    if q.kind = .call then (c.value own i v).negate else .ofBool (c.value own i v).isTrue := by
  unfold decision
  split
  · rename_i hk
    cases h with
    | condition hk' _ =>
      rcases hk' with hk' | ⟨l, hk'⟩
      · rw [hk] at hk'; cases hk'
      · rw [hk] at hk'; cases hk'
    | negated _ hs =>
      have hc : q.childNodes = [c] := by rw [childNodes, hs]; rfl
      rw [value_of_ne hq, hc, List.map_singleton]
      simp [combine, hk, hs, slot, Slot.isText]
  · rfl

/-- **What decides on a value** decides alike on two values that are both true or both not. -/
theorem Tests.decision_congr (h : q.Tests c) (hq : q.id ≠ i) (hv : v.isTrue = w.isTrue) :
    q.decision c (value own i v) = q.decision c (value own i w) := by
  have hc : (c.value own i v).isTrue = (c.value own i w).isTrue := isTrue_value_congr hv
  rw [h.decision_eq hq, h.decision_eq hq, Outcome.negate, Outcome.negate, hc]

/-- **What decides on a value** decides as before on a node that has taken the place of another one, if the values of the
two are both true or both not. -/
theorem Tests.decision_replace (h : q.Tests c) (hq : q.id ≠ i) (hs : ∀ y ∈ q.preorder, y.id ≠ s.id)
    (hv : w.isTrue = v.isTrue) :
    (Node.replace i s q).decision (Node.replace i s c) (value own s.id w) = q.decision c (value own i v) := by
  have hc : ∀ y ∈ c.preorder, y.id ≠ s.id := fun y hy => hs y (mem_preorder_of_child h.mem_childNodes hy)
  rw [← h.decision_congr hq hv, decision, decision, kind_replace hq, value_replace hs, value_replace hc]

end

end Node

end BlockPresence
