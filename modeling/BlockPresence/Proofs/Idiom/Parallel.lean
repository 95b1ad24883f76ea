import BlockPresence.Idiom.Position
import BlockPresence.Method.Memo
import BlockPresence.Proofs.Tree.Replace

/-!
# Lines that run parallel

All that is asked about the place of a node is answered by the nodes above it. `Parallel R` says that two nodes stand
below lines that go level: step by step `R` relates a node of the one line to one of the other, and both or neither hold
what is below them in their first slot. The second line may have parentheses besides.

If related nodes say the same of themselves, but for the local names, which may be changed by a function `f`
(`Resembles`), then the answers are the same: about conditions (`Parallel.isOnlyTested_eq`), about hidden names
(`Parallel.isHidden_eq`) and about the method around the node (`Parallel.enclosing?`). So it is where a subtree has been
replaced (`Replaces.parallel_of_outside`, `Replaces.parallel_new`).
-/

namespace BlockPresence

variable {f : String → String}

/-! ## What nodes say of themselves -/

namespace Method

variable {m m' m'' : Method}

/-- The method `m'` is the method `m` with the local names changed by `f`. -/
structure Renamed (f : String → String) (m m' : Method) : Prop where
  name : m'.name = m.name
  blockParam : m'.blockParam = m.blockParam.map f
  assigns : ∀ p, m'.assigns (f p) = m.assigns p

theorem Renamed.refl (m : Method) : Renamed id m m := ⟨rfl, Option.map_id_apply.symm, fun _ => rfl⟩

/-- Methods that are both `m''` are the same method. -/
theorem Renamed.cancel (h : Renamed f m m'') (h' : Renamed id m' m'') : Renamed f m m' where
  name := h'.name.symm.trans h.name
  blockParam := by rw [← h.blockParam, h'.blockParam, Option.map_id_apply]
  assigns p := (h'.assigns (f p)).symm.trans (h.assigns p)

theorem Renamed.usableParam?_eq (h : Renamed f m m') : m'.usableParam? = m.usableParam?.map f := by
  rw [usableParam?, usableParam?, h.blockParam, Option.filter_map]
  congr 2
  funext p
  exact congrArg not (h.assigns p)

/-- Parameters that keep their kinds, and block parameters that keep their names but for `f`, give the block parameter
changed by `f`. -/
theorem blockParamOf_map (hf : ∀ p, f p = "" ↔ p = "") {g : Node → Node} {ps : List Node}
    (hk : ∀ p ∈ ps, (g p).kind = p.kind)
    (h0 : ∀ p ∈ ps, p.kind = .param .block → ((g p).slot 0).text? = (p.slot 0).text?.map f) :
    blockParamOf (ps.map g) = (blockParamOf ps).map f := by
  induction ps with
  | nil => rfl
  | cons p ps ih =>
    have hkp := hk p List.mem_cons_self
    have ih := ih (fun q hq => hk q (List.mem_cons_of_mem _ hq)) fun q hq => h0 q (List.mem_cons_of_mem _ hq)
    by_cases hb : p.kind = .param .block
    · have h0p := h0 p List.mem_cons_self hb
      simp only [blockParamOf, List.map_cons, List.find?_cons, hkp, hb, decide_true, Option.bind_eq_bind,
        Option.bind_some, h0p]
      cases (p.slot 0).text? with
      | none => rfl
      | some name =>
        simp only [Option.map_some, Option.bind_some, String.isEmpty_iff, hf]
        split <;> rfl
    · simpa only [blockParamOf, List.map_cons, List.find?_cons, hkp, hb, decide_false] using ih

end Method

variable {n n' p p' p'' : Node} {as as' : List Node} {R S : Node → Node → Prop}

/-- The nodes are of one kind, and their slots are as many and negate something both or neither. -/
structure SameForm (p p' : Node) : Prop where
  kind : p'.kind = p.kind
  length : p'.slots.length = p.slots.length
  negates : (p'.slot 1).isText "!" = (p.slot 1).isText "!"

/-- The node `p'` says of itself what `p` does, with the local names changed by `f`. -/
structure Resembles (f : String → String) (p p' : Node) : Prop extends SameForm p p' where
  declares : p.kind = .block → ∀ name, p'.declares (f name) = p.declares name
  method : p.kind.isDefinition = true → (Method.ofDefinition p).Renamed f (Method.ofDefinition p')

theorem Resembles.refl (p : Node) : Resembles id p p := ⟨⟨rfl, rfl, rfl⟩, fun _ _ => rfl, fun _ => .refl _⟩

/-- Nodes that both say what `p''` says say the same. -/
theorem Resembles.cancel (h : Resembles f p p'') (h' : Resembles id p' p'') : Resembles f p p' := by
  have hk : p'.kind = p.kind := h'.kind.symm.trans h.kind
  exact
    { kind := hk
      length := h'.length.symm.trans h.length
      negates := h'.negates.symm.trans h.negates
      declares := fun hb name => (h'.declares (hk.trans hb) (f name)).symm.trans (h.declares hb name)
      method := fun hd => (h.method hd).cancel (h'.method (hk ▸ hd)) }

/-! ## Lines -/

/-- The line `as'` above `n'` goes level with the line `as` above `n`. -/
inductive Parallel (R : Node → Node → Prop) : Node → List Node → Node → List Node → Prop
  /-- Nothing is above either node. -/
  | top {n n' : Node} : Parallel R n [] n' []
  /-- Both lines go up one step, from corresponding slots. -/
  | level {n n' p p' : Node} {as as' : List Node} : R p p' → (p'.slot 0).holds n' = (p.slot 0).holds n →
      Parallel R p as p' as' → Parallel R n (p :: as) n' (p' :: as')
  /-- The second line alone goes up one step, through parentheses. -/
  | parenthesised {n n' s : Node} {as as' : List Node} : s.kind = .group → s.slots.length = 1 →
      Parallel R n as s as' → Parallel R n as n' (s :: as')

namespace Parallel

theorem mono (h : Parallel R n as n' as') (hRS : ∀ p p', R p p' → S p p') : Parallel S n as n' as' := by
  induction h with
  | top => exact .top
  | level hp h0 _ ih => exact .level (hRS _ _ hp) h0 ih
  | parenthesised hk hl _ ih => exact .parenthesised hk hl ih

/-- **Conditions**: either node is tested just if the other one is. -/
theorem isOnlyTested_eq (h : Parallel SameForm n as n' as') : n'.isOnlyTested as' = n.isOnlyTested as := by
  induction h with
  | top => rfl
  | level hp h0 _ ih => rw [Node.isOnlyTested, Node.isOnlyTested, hp.kind, hp.length, hp.negates, h0, ih]
  | parenthesised hk hl _ ih =>
    rw [Node.isOnlyTested, hk]
    simp only [hl, ih, beq_self_eq_true, Bool.true_and]

/-- **Hidden names**: a name is hidden from the one node just if it is from the other one. -/
theorem isHidden_eq (h : Parallel (Resembles f) n as n' as') (name : String) :
    n'.isHidden (f name) as' = n.isHidden name as := by
  induction h with
  | top => rfl
  | @level n n' p p' as as' hp h0 _ ih =>
    rw [Node.isHidden, Node.isHidden, hp.kind, h0, ih]
    by_cases hb : p.kind = .block
    · rw [hp.declares hb]
    · simp only [hb, decide_false, Bool.false_and]
  | parenthesised hk _ _ ih =>
    rw [Node.isHidden, hk, ← ih]
    simp [Kind.isDefinition]

theorem find?_definition (h : Parallel R n as n' as') (hk : ∀ p p', R p p' → p'.kind = p.kind) :
    Option.Rel R (as.find? fun a => a.kind.isDefinition) (as'.find? fun a => a.kind.isDefinition) := by
  induction h with
  | top => exact .none
  | @level n n' p p' as as' hp _ _ ih =>
    rw [List.find?_cons, List.find?_cons, hk p p' hp]
    cases p.kind.isDefinition with
    | true => exact .some hp
    | false => exact ih
  | parenthesised hs _ _ ih =>
    rw [List.find?_cons, hs]
    exact ih

/-- **The method around**: either there is none around both nodes, or there are definitions around them that are related. -/
theorem enclosing? {t t' : Tree} {M : Method → Method → Prop} (h : Parallel R n (t.ancestors n) n' (t'.ancestors n'))
    (hk : ∀ p p', R p p' → p'.kind = p.kind)
    (hM : ∀ p p', R p p' → p.kind.isDefinition = true → M (Method.ofDefinition p) (Method.ofDefinition p')) :
    Option.Rel M (Method.enclosing? t n) (Method.enclosing? t' n') := by
  have hd := h.find?_definition hk
  unfold Method.enclosing?
  generalize hm : (t.ancestors n).find? _ = m? at hd ⊢
  generalize (t'.ancestors n').find? _ = m'? at hd ⊢
  cases hd with
  | none => exact .none
  | @some p p' hp => exact .some (hM p p' hp (by simpa using List.find?_some hm))

end Parallel

/-! ## Lines after a replacement -/

namespace Node

variable {root s w x : Node} {bs cs : List Node}

namespace Replaces

theorem sameForm (h : root.Replaces n s) (hp : Outside root n p) : SameForm p (replace n.id s p) where
  kind := kind_replace (h.id_ne hp)
  length := by rw [slots_replace (h.id_ne hp), List.length_map]
  negates := by
    rw [slot_replace (h.id_ne hp)]
    cases p.slot 1 <;> rfl

/-- Nodes outside a replaced subtree stand as before, if each of them is related to what it became. -/
theorem parallel_of_outside (h : root.Replaces n s) (hR : ∀ p, Outside root n p → R p (replace n.id s p))
    (hl : Line root x as) (hx : Outside root n x) : Parallel R x as (replace n.id s x) (as.map (replace n.id s)) := by
  induction hl with
  | root => exact .top
  | child hl hc ih =>
    have hp := hx.parent hl.mem_preorder hc
    exact .level (hR _ hp) (h.holds_replace hp hx) (ih hp)

/-- The new subtree stands as the replaced one did. -/
theorem parallel_new (h : root.Replaces n s) (hR : ∀ p, Outside root n p → R p (replace n.id s p))
    (hl : Line root n as) : Parallel R n as s (as.map (replace n.id s)) := by
  cases hl with
  | root => exact .top
  | child hl hc =>
    have hp := h.outside_parent hl.mem_preorder hc
    exact .level (hR _ hp) (h.holds_new hp) (h.parallel_of_outside hR hl hp)

end Replaces

/-- What is below a node stands as before, if the node does. -/
theorem parallel_of_below (hR : ∀ p, R p p) (hl : Line w x bs) (hw : Parallel R w as w cs) :
    Parallel R x (bs ++ as) x (bs ++ cs) := by
  induction hl with
  | root => exact hw
  | child _ _ ih => exact .level (hR _) rfl ih

end Node

end BlockPresence
