import BlockPresence.Proofs.Lint.Objection
import BlockPresence.Proofs.Tree.Replace
import Mathlib.Data.List.TakeWhile

/-!
# Which blocks hide a name

A block declares the parameters of its list, also those inside destructuring groups (`Node.Redeclares`). Below the list
there may be parameters that are not its own: those of a block or of a method inside the default value of a parameter
(`Node.Strays`). The search for a declaration does not tell the two apart (`Node.declares_iff_redeclares_or_strays`).

So a name is hidden from a node by every block between the node and its method that redeclares it, but also by one with a
stray parameter of that name (`Tree.isHidden_iff_redeclares`), which does not bind the name where the node stands
(`Tree.isHidden_without_redeclares`).
-/

namespace BlockPresence

open Node (Line Coherent)

/-- Whether a node of this kind holds parameters of the list that it is in: it is a parameter, or a group of parameters
that is destructured. -/
def Kind.holdsParams (k : Kind) : Bool := k.isParam || k.name == "mlhs"

namespace Node

/-- Parameters and destructuring groups alone lead from the parameter list `params` to a node, which is one of them. -/
inductive OwnParam (params : Node) : Node → Prop
  | top {q : Node} : q ∈ params.childNodes → q.kind.holdsParams = true → OwnParam params q
  | inner {p q : Node} : OwnParam params p → q ∈ p.childNodes → q.kind.holdsParams = true → OwnParam params q

/-- The block `b` itself has a parameter `x`. -/
def Redeclares (b : Node) (x : String) : Prop :=
  ∃ params q, b.slot 1 = .node params ∧ params.OwnParam q ∧ q.kind.isParam = true ∧ q.slot 0 = .text x

/-- In the parameter list of the block `b` there is a parameter `x` of something else: it stands below a node that is
neither a parameter nor a group. -/
def Strays (b : Node) (x : String) : Prop :=
  ∃ params y q, b.slot 1 = .node params ∧ y ∈ params.descendants ∧ y.kind.holdsParams = false ∧ q ∈ y.descendants ∧
    q.kind.isParam = true ∧ q.slot 0 = .text x

/-- A parameter `x` that strays into the parameter list of the block `b` stands below `y`, which is neither a parameter nor
a group. -/
def StraysBelow (b y : Node) (x : String) : Prop :=
  ∃ params q, b.slot 1 = .node params ∧ y ∈ params.descendants ∧ y.kind.holdsParams = false ∧ q ∈ y.descendants ∧
    q.kind.isParam = true ∧ q.slot 0 = .text x

variable {params root b q y : Node} {as : List Node} {x : String}

theorem OwnParam.mem_descendants (h : params.OwnParam q) : q ∈ params.descendants := by
  induction h with
  | top hq _ => exact Node.mem_descendants.2 ⟨_, hq, self_mem_preorder _⟩
  | inner _ hq _ ih =>
    exact mem_descendants_of_mem_preorder (mem_descendants_iff.1 ih).1 (Node.mem_descendants.2 ⟨_, hq, self_mem_preorder _⟩)

/-- What is below a parameter list is reached by parameters and groups alone, or is, or is below, something else. -/
theorem ownParam_or_below (hl : Line params q as) (hq : q ≠ params) :
    params.OwnParam q ∨ ∃ y ∈ params.descendants, y.kind.holdsParams = false ∧ q ∈ y.preorder := by
  induction hl with
  | root => exact absurd rfl hq
  | @child p q as hl hc ih =>
    have hqd : q ∈ params.descendants :=
      mem_descendants_of_mem_preorder hl.mem_preorder (Node.mem_descendants.2 ⟨q, hc, q.self_mem_preorder⟩)
    cases hk : q.kind.holdsParams with
    | false => exact .inr ⟨q, hqd, hk, q.self_mem_preorder⟩
    | true =>
      by_cases hp : p = params
      · exact .inl (.top (hp ▸ hc) hk)
      · rcases ih hp with hown | ⟨y, hy, hyk, hpy⟩
        · exact .inl (.inner hown hc hk)
        · exact .inr ⟨y, hy, hyk, mem_preorder_trans (mem_preorder_of_mem_childNodes hc) hpy⟩

theorem strays_iff : b.Strays x ↔ ∃ y, b.StraysBelow y x := by
  constructor
  · rintro ⟨params, y, q, h⟩
    exact ⟨y, params, q, h⟩
  · rintro ⟨y, params, q, h⟩
    exact ⟨params, y, q, h⟩

/-- **What a block is taken to declare** are its own parameters and those that stray into its list. -/
theorem declares_iff_redeclares_or_strays : b.Declares x ↔ b.Redeclares x ∨ b.Strays x := by
  constructor
  · rintro ⟨params, q, hs, hq, hk, h0⟩
    obtain ⟨hqp, hne⟩ := mem_descendants_iff.1 hq
    obtain ⟨as, hl⟩ := exists_line hqp
    rcases ownParam_or_below hl hne with hown | ⟨y, hy, hyk, hqy⟩
    · exact .inl ⟨params, q, hs, hown, hk, h0⟩
    · refine .inr ⟨params, y, q, hs, hy, hyk, mem_descendants_iff.2 ⟨hqy, ?_⟩, hk, h0⟩
      rintro rfl
      rw [Kind.holdsParams, hk] at hyk
      cases hyk
  · rintro (⟨params, q, hs, hown, hk, h0⟩ | ⟨params, y, q, hs, hy, -, hq, hk, h0⟩)
    · exact ⟨params, q, hs, hown.mem_descendants, hk, h0⟩
    · exact ⟨params, q, hs, mem_descendants_of_mem_preorder (mem_descendants_iff.1 hy).1 hq, hk, h0⟩

end Node

/-- An element is before the first one that fails just if it does not fail, and nothing before it does. -/
theorem mem_takeWhile_iff {α : Type} {p : α → Bool} {a : α} {l : List α} :
    a ∈ l.takeWhile p ↔ ∃ inner outer, l = inner ++ a :: outer ∧ (∀ c ∈ inner, p c = true) ∧ p a = true := by
  constructor
  · intro h
    have hp : ∀ c ∈ l.takeWhile p, p c = true := fun c hc => List.mem_takeWhile_imp hc
    obtain ⟨inner, rest, he⟩ := List.append_of_mem h
    rw [he] at hp
    refine ⟨inner, rest ++ l.dropWhile p, ?_, fun c hc => hp c (by simp [hc]), hp a (by simp)⟩
    rw [← List.cons_append, ← List.append_assoc, ← he, List.takeWhile_append_dropWhile]
  · rintro ⟨inner, outer, rfl, hi, ha⟩
    rw [List.takeWhile_append_of_pos hi, List.takeWhile_cons_of_pos ha]
    simp

namespace Tree

variable {t : Tree} {n b : Node} {x : String}

/-- The block `b` is between the node `n` and the definition of its method, or the root where it is in none, and `n` is
not in the call that the block is passed to. -/
def BlockAround (t : Tree) (n b : Node) : Prop :=
  (∃ inner outer, Line t.root n (inner ++ b :: outer) ∧ ∀ a ∈ inner, a.kind.isDefinition = false) ∧ b.kind = .block ∧
    ∀ call, b.slot 0 = .node call → n ∉ call.preorder

/-- **When a name is hidden.** In a tree in which no node occurs twice, a name is hidden from a node just if some block
around it, up to its method, has a parameter of that name, be it its own or one that strays into its parameter list. From
a node that is not in the tree nothing is hidden. -/
theorem isHidden_iff_redeclares (t : Tree) (n : Node) (x : String) (hd : t.root.Distinct) (hc : Coherent (n :: t.nodes)) :
    t.isHidden n x = true ↔ ∃ b, t.BlockAround n b ∧ (b.Redeclares x ∨ b.Strays x) := by
  by_cases hn : n ∈ t.nodes
  · obtain ⟨as, hl⟩ := Node.exists_line (t.nodes_eq ▸ hn)
    rw [isHidden, ancestors_eq_of_line hd hl, Node.isHidden_iff hd hl n.self_mem_preorder]
    refine exists_congr fun b => ?_
    rw [Node.Hides, Node.declares_iff_redeclares_or_strays, mem_takeWhile_iff, BlockAround]
    constructor
    · rintro ⟨⟨inner, outer, rfl, hi, -⟩, hk, hcall, hdecl⟩
      exact ⟨⟨⟨inner, outer, hl, fun a ha => by simpa using hi a ha⟩, hk, hcall⟩, hdecl⟩
    · rintro ⟨⟨⟨inner, outer, hl', hi⟩, hk, hcall⟩, hdecl⟩
      have hb : (!b.kind.isDefinition) = true := by rw [hk]; rfl
      exact ⟨⟨inner, outer, hl.unique hd hl', fun a ha => by simp [hi a ha], hb⟩, hk, hcall, hdecl⟩
  · have he : t.ancestors n = [] := by
      by_contra hne
      exact hn (mem_nodes_of_ancestors_ne_nil hc hne)
    rw [isHidden, he]
    refine iff_of_false (by simp [Node.isHidden]) ?_
    rintro ⟨b, ⟨⟨inner, outer, hl, -⟩, -⟩, -⟩
    exact hn (t.nodes_eq ▸ hl.mem_preorder)

/-- The block `each { |a = foo { |block| }| block_given? }`. -/
def strayBlock : Node :=
  let foo : Node := ⟨8, .call, [.empty, .text "foo"], .origin⟩
  let param : Node := ⟨11, .param .required, [.text "block"], .origin⟩
  let fooParams : Node := ⟨9, Kind.args, [.node ⟨10, .param .sole, [.node param], .origin⟩], .origin⟩
  let default : Node := ⟨7, .block, [.node foo, .node fooParams, .empty], .origin⟩
  let params : Node := ⟨5, Kind.args, [.node ⟨6, .param .optional, [.text "a", .node default], .origin⟩], .origin⟩
  ⟨3, .block, [.node ⟨4, .call, [.empty, .text "each"], .origin⟩, .node params, .node (Node.blockGiven 12)], .origin⟩

/-- In `def m(&block) = each { |a = foo { |block| }| block_given? }` the name `block` is hidden from the call. -/
theorem isHidden_iff_redeclares_stray :
    let t := ofRoot (Node.definition 0 strayBlock) "m.rb"
    let n := Node.blockGiven 12
    t.root.Distinct ∧ Coherent (n :: t.nodes) ∧
      ∃ b, t.BlockAround n b ∧ (b.Redeclares "block" ∨ b.Strays "block") := by
  intro t n
  have hd : t.root.Distinct := by unfold Node.Distinct; decide
  have hn : n ∈ t.nodes := by
    rw [t.nodes_eq]
    exact Node.mem_definition (Node.mem_preorder_of_mem_childNodes (Node.mem_childNodes_of_slot (i := 2) rfl))
  have hc : Coherent (n :: t.nodes) := (coherent_nodes hd).mono (List.cons_subset.2 ⟨hn, List.Subset.refl _⟩)
  have hh : t.isHidden n "block" = true := by cbv
  exact ⟨hd, hc, (isHidden_iff_redeclares t n "block" hd hc).1 hh⟩

/-- There `block` is the block parameter of the method all the same, as no block around the call redeclares it. -/
theorem isHidden_without_redeclares :
    let t := ofRoot (Node.definition 0 strayBlock) "m.rb"
    let n := Node.blockGiven 12
    t.root.Distinct ∧ n ∈ t.nodes ∧ t.isHidden n "block" = true ∧ ¬ ∃ b, t.BlockAround n b ∧ b.Redeclares "block" := by
  intro t n
  have hd : t.root.Distinct := by unfold Node.Distinct; decide
  have hbody : strayBlock ∈ t.root.childNodes := Node.mem_childNodes_of_slot (i := 2) rfl
  have hl : Line t.root n [strayBlock, t.root] := .child (.child .root hbody) (Node.mem_childNodes_of_slot (i := 2) rfl)
  refine ⟨hd, t.nodes_eq ▸ hl.mem_preorder, by cbv, ?_⟩
  rintro ⟨b, ⟨⟨inner, outer, hl', -⟩, hk, -⟩, params, q, hs, hq, -, h0⟩
  have hb : b ∈ [strayBlock, t.root] := by
    rw [hl.unique hd hl']
    simp
  rcases List.mem_pair.1 hb with rfl | rfl
  · cases hs
    -- the list has one parameter, and the default value of this is a block
    have hown : q.slot 0 = .text "a" ∧ ∀ c ∈ q.childNodes, c.kind.holdsParams = false := by
      clear h0
      induction hq with
      | top hq _ =>
        cases List.mem_singleton.1 hq
        exact ⟨rfl, by decide⟩
      | inner _ hc hk ih =>
        rw [ih.2 _ hc] at hk
        cases hk
    rw [hown.1] at h0
    exact absurd (Slot.text.inj h0) (by decide)
  · cases hk

end Tree

end BlockPresence
