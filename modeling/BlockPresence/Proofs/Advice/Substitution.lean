import BlockPresence.Proofs.Advice.Edits
import Mathlib

/-!
# Edits in any order

Corrections of one source that do not overlap (`Correction.Compatible`) can be made at once: `Correction.substitute` puts
the untouched segments of the source and the replacements one behind the other. Made one after the other they give the
same text. From right to left they are carried out as they are; in any other order each one is first moved by what the
earlier ones to its left have added (`Correction.applyMoved`).

What carries the induction is that after some of the corrections the text is the substitution of just these
(`Compatible.apply_moved`).
-/

namespace BlockPresence

namespace Extent

theorem ofBounds_eq_ok {start stop : Int} (e : Extent) (hstart : start = e.start) (hstop : stop = e.stop) :
    ofBounds start stop e.line e.column = .ok e := by
  have := e.start_le_stop
  subst hstart hstop
  rw [ofBounds, dif_pos (by omega)]
  rfl

end Extent

namespace Correction

/-- The number of characters that a correction adds to a text, negative where it takes some away. -/
def gain (c : Correction) : Int := c.replacement.length - c.extent.length

/-- What the corrections `done` add to the left of `c`. -/
def drift (done : List Correction) (c : Correction) : Int :=
  ((done.filter fun d => d.extent.start < c.extent.start).map gain).sum

/-- The correction with its extent moved by `k` characters, if that is an extent. -/
def moved (c : Correction) (k : Int) : Except Extent.InvalidBounds Correction :=
  (Extent.ofBounds (c.extent.start + k) (c.extent.stop + k) c.extent.line c.extent.column).map fun e =>
    ⟨e, c.replacement⟩

/-- Carries out corrections one after the other, each moved by what the earlier ones, with those in `done`, have added to
its left. -/
def applyMoved (done : List Correction) : List Correction → String → Except Extent.InvalidBounds String
  | [], text => .ok text
  | c :: rest, text => do
    let c' ← c.moved (drift done c)
    applyMoved (c :: done) rest (c'.apply text)

/-- The corrections in the order of their starts. -/
def leftToRight (cs : List Correction) : List Correction :=
  cs.insertionSort fun c d => c.extent.start ≤ d.extent.start

/-- The source from the offset `pos` on, with the extents of the corrections `cs`, which go from left to right, replaced:
the segments that none of them touches, in order, and the replacements between them. -/
def weave (source : List Char) (pos : Nat) : List Correction → List Char
  | [] => source.drop pos
  | c :: cs => (source.take c.extent.start).drop pos ++ c.replacement.toList ++ weave source c.extent.stop cs

/-- The source with the extents of some corrections replaced, all at once. -/
def substitute (cs : List Correction) (source : String) : String :=
  .ofList (weave source.toList 0 (leftToRight cs))

/-- Corrections of a source of `n` characters that can be made at once: their extents lie inside the source, no two of
them overlap, and no two start at the same character. -/
structure Compatible (n : Nat) (cs : List Correction) : Prop where
  inside : ∀ c ∈ cs, c.extent.stop ≤ n
  disjoint : cs.Pairwise fun c d => c.extent.stop ≤ d.extent.start ∨ d.extent.stop ≤ c.extent.start
  distinct : cs.Pairwise fun c d => c.extent.start ≠ d.extent.start

/-- The extent of `c` starts before that of `d`, and does not reach into it. -/
def Precedes (c d : Correction) : Prop := c.extent.start < d.extent.start ∧ c.extent.stop ≤ d.extent.start

/-! ## Segments -/

section

variable {source : List Char} {pos k : Nat} {c : Correction} {cs ls rs : List Correction}

/-- Before an offset that no correction starts before, the source is as it was. -/
theorem weave_split (hpos : pos ≤ k) (hrs : ∀ c ∈ rs, k ≤ c.extent.start) :
    weave source pos rs = (source.take k).drop pos ++ weave source k rs := by
  have hdrop : ∀ xs : List Char, xs.drop pos = (xs.take k).drop pos ++ xs.drop k := fun xs => by
    conv_lhs => rw [← List.take_append_drop k xs, List.drop_append]
    rw [List.length_take]
    by_cases hk : k ≤ xs.length
    · rw [Nat.min_eq_left hk, Nat.sub_eq_zero_of_le hpos, List.drop_zero]
    · rw [List.drop_eq_nil_of_le (i := k) (by omega), List.drop_nil]
  cases rs with
  | nil => exact hdrop source
  | cons c rs =>
    have hk : k ≤ c.extent.start := hrs c List.mem_cons_self
    rw [weave, weave, hdrop (source.take c.extent.start), List.take_take, Nat.min_eq_left hk]
    simp only [List.append_assoc]

/-- An offset that no correction reaches over divides the corrections and the segments. -/
theorem weave_append (hpos : pos ≤ k) (hls : ∀ c ∈ ls, c.extent.stop ≤ k) (hrs : ∀ c ∈ rs, k ≤ c.extent.start) :
    weave source pos (ls ++ rs) = weave (source.take k) pos ls ++ weave source k rs := by
  induction ls generalizing pos with
  | nil => exact weave_split hpos hrs
  | cons c ls ih =>
    have hc : c.extent.stop ≤ k := hls c List.mem_cons_self
    have hstart : c.extent.start ≤ k := Nat.le_trans c.extent.start_le_stop hc
    rw [List.cons_append, weave, weave, ih hc fun d hd => hls d (List.mem_cons_of_mem _ hd), List.take_take,
      Nat.min_eq_left hstart]
    simp only [List.append_assoc]

/-- Corrections from left to right add what each of them adds. -/
theorem length_weave (hcs : cs.Pairwise Precedes) (hpos : ∀ c ∈ cs, pos ≤ c.extent.start)
    (hin : ∀ c ∈ cs, c.extent.stop ≤ source.length) (hle : pos ≤ source.length) :
    ((weave source pos cs).length : Int) = source.length - pos + (cs.map gain).sum := by
  induction cs generalizing pos with
  | nil =>
    rw [weave, List.length_drop, List.map_nil, List.sum_nil]
    omega
  | cons c cs ih =>
    obtain ⟨hc, hcs⟩ := List.pairwise_cons.1 hcs
    have hstop : c.extent.stop ≤ source.length := hin c List.mem_cons_self
    have hstart := hpos c List.mem_cons_self
    have hbounds := c.extent.start_le_stop
    have hrest := ih hcs (fun d hd => (hc d hd).2) (fun d hd => hin d (List.mem_cons_of_mem _ hd)) hstop
    rw [weave, List.length_append, List.length_append, List.length_drop, List.length_take, List.map_cons, List.sum_cons,
      gain, Extent.length, ← String.length_toList]
    omega

end

namespace Compatible

variable {n : Nat} {source : String} {c : Correction} {cs ds done rest : List Correction}

theorem perm (h : Compatible n cs) (hp : cs.Perm ds) : Compatible n ds where
  inside c hc := h.inside c (hp.mem_iff.2 hc)
  disjoint := hp.pairwise h.disjoint fun hcd => hcd.symm
  distinct := hp.pairwise h.distinct fun hcd => hcd.symm

theorem sublist (h : Compatible n cs) (hs : ds.Sublist cs) : Compatible n ds where
  inside d hd := h.inside d (hs.subset hd)
  disjoint := h.disjoint.sublist hs
  distinct := h.distinct.sublist hs

/-! ## From left to right -/

theorem pairwise_precedes (h : Compatible n cs) (hs : cs.Pairwise fun c d => c.extent.start ≤ d.extent.start) :
    cs.Pairwise Precedes := by
  refine (hs.and (h.disjoint.and h.distinct)).imp fun {c d} hcd => ?_
  obtain ⟨hle, hdis, hne⟩ := hcd
  have hd := d.extent.start_le_stop
  unfold Precedes
  omega

theorem perm_leftToRight (cs : List Correction) : (leftToRight cs).Perm cs := List.perm_insertionSort _ cs

theorem pairwise_leftToRight (h : Compatible n cs) : (leftToRight cs).Pairwise Precedes :=
  (h.perm (perm_leftToRight cs).symm).pairwise_precedes (List.pairwise_insertionSort _ cs)

/-- There is only one order from left to right. -/
theorem leftToRight_congr (h : Compatible n cs) (hp : cs.Perm ds) : leftToRight cs = leftToRight ds := by
  have hperm : (leftToRight cs).Perm (leftToRight ds) :=
    (perm_leftToRight cs).trans (hp.trans (perm_leftToRight ds).symm)
  refine hperm.eq_of_pairwise (fun c d _ _ hcd hdc => ?_) h.pairwise_leftToRight (h.perm hp).pairwise_leftToRight
  exact absurd hcd.1 (Nat.lt_asymm hdc.1)

/-- One more correction has its place between those that precede it and those that it precedes. -/
theorem exists_split (h : Compatible n (c :: done)) :
    ∃ ls rs, leftToRight done = ls ++ rs ∧ leftToRight (c :: done) = ls ++ c :: rs ∧
      (∀ d ∈ ls, d.Precedes c) ∧ ∀ d ∈ rs, c.Precedes d := by
  let before : Correction → Bool := fun d => !decide (c.extent.start ≤ d.extent.start)
  let ls := (leftToRight done).takeWhile before
  let rs := (leftToRight done).dropWhile before
  have hsplit : leftToRight done = ls ++ rs := List.takeWhile_append_dropWhile.symm
  have hinsert : leftToRight (c :: done) = ls ++ c :: rs := by
    unfold leftToRight
    rw [List.insertionSort_cons, List.orderedInsert_eq_take_drop]
    simp only [ls, rs, before, leftToRight, decide_not]
  obtain ⟨-, hcr, hlc⟩ := List.pairwise_append.1 (hinsert ▸ h.pairwise_leftToRight)
  exact ⟨ls, rs, hsplit, hinsert, fun d hd => hlc d hd c List.mem_cons_self, (List.pairwise_cons.1 hcr).1⟩

/-- What is added to the left of a correction is what those that precede it add. -/
theorem drift_eq {ls rs : List Correction} (hs : leftToRight done = ls ++ rs) (hls : ∀ d ∈ ls, d.Precedes c)
    (hrs : ∀ d ∈ rs, c.Precedes d) : drift done c = (ls.map gain).sum := by
  have hfilter : (ls ++ rs).filter (fun d => d.extent.start < c.extent.start) = ls := by
    rw [List.filter_append, List.filter_eq_self.2 fun d hd => decide_eq_true (hls d hd).1,
      List.filter_eq_nil_iff.2 fun d hd => ?_, List.append_nil]
    simpa using Nat.le_of_lt (hrs d hd).1
  rw [drift, ((perm_leftToRight done).symm.filter _ |>.map gain).sum_eq, hs, hfilter]

/-! ## One correction after the other -/

/-- **One more correction.** Of a source in which the corrections `done` have been made, one more correction, moved by what
they have added to its left, makes the source in which it has been made as well. -/
theorem apply_moved (h : Compatible source.length (c :: done)) :
    ∃ c', c.moved (drift done c) = .ok c' ∧ c'.apply (substitute done source) = substitute (c :: done) source := by
  obtain ⟨ls, rs, hs, hc, hls, hrs⟩ := h.exists_split
  have hin : c.extent.stop ≤ source.toList.length := by
    rw [String.length_toList]
    exact h.inside c List.mem_cons_self
  have hbounds := c.extent.start_le_stop
  have hdone := (h.sublist (List.sublist_cons_self c done)).pairwise_leftToRight
  have hpw : ls.Pairwise Precedes := (List.pairwise_append.1 (hs ▸ hdone)).1
  -- what stands before the extent of `c`, what stands in it, and what stands behind it
  let before := weave (source.toList.take c.extent.start) 0 ls
  let inside := (source.toList.take c.extent.stop).drop c.extent.start
  let behind := weave source.toList c.extent.stop rs
  have hdone : (substitute done source).toList = before ++ (inside ++ behind) := by
    rw [substitute, String.toList_ofList, hs, weave_append (Nat.zero_le _) (fun d hd => (hls d hd).2)
      fun d hd => Nat.le_of_lt (hrs d hd).1, weave_split hbounds fun d hd => (hrs d hd).2]
  have hmore : (substitute (c :: done) source).toList = before ++ (c.replacement.toList ++ behind) := by
    rw [substitute, String.toList_ofList, hc, weave_append (Nat.zero_le _) (fun d hd => (hls d hd).2)
      (List.forall_mem_cons.2 ⟨Nat.le_refl _, fun d hd => Nat.le_of_lt (hrs d hd).1⟩), weave,
      List.drop_eq_nil_of_le (by rw [List.length_take]; omega), List.nil_append]
  have hlen : (before.length : Int) = c.extent.start + drift done c := by
    have htake : (source.toList.take c.extent.start).length = c.extent.start := by
      rw [List.length_take]
      omega
    rw [drift_eq hs hls hrs, length_weave hpw (fun _ _ => Nat.zero_le _) (fun d hd => ?_) (Nat.zero_le _), htake]
    · omega
    · rw [htake]
      exact (hls d hd).2
  have hinside : inside.length = c.extent.stop - c.extent.start := by
    rw [List.length_drop, List.length_take]
    omega
  let e : Extent :=
    { start := before.length, stop := before.length + inside.length, line := c.extent.line, column := c.extent.column }
  refine ⟨⟨e, c.replacement⟩, ?_, ?_⟩
  · have hstart : (c.extent.start : Int) + drift done c = e.start := hlen.symm
    have hstop : (c.extent.stop : Int) + drift done c = e.stop := by
      change _ = ((before.length + inside.length : Nat) : Int)
      omega
    rw [moved, Extent.ofBounds_eq_ok e hstart hstop]
    rfl
  · have hstart : e.start = before.length := rfl
    have hstop : e.stop = before.length + inside.length := rfl
    refine String.toList_inj.1 ?_
    rw [apply, String.toList_ofList, hdone, hmore, hstart, hstop, List.take_left, ← List.append_assoc before inside,
      ← List.length_append, List.drop_left, List.append_assoc]

/-- **After all corrections**, whatever their order, the text is their substitution. -/
theorem applyMoved_eq (h : Compatible source.length cs) (hp : (rest ++ done).Perm cs) :
    applyMoved done rest (substitute done source) = .ok (substitute cs source) := by
  induction rest generalizing done with
  | nil =>
    rw [List.nil_append] at hp
    rw [applyMoved, substitute, substitute, h.leftToRight_congr hp.symm]
  | cons c rest ih =>
    have hall : Compatible source.length (c :: (rest ++ done)) := h.perm hp.symm
    obtain ⟨c', hc, happly⟩ := (hall.sublist ((List.sublist_append_right rest done).cons_cons c)).apply_moved
    have hrest : applyMoved (c :: done) rest (substitute (c :: done) source) = .ok (substitute cs source) :=
      ih (List.perm_middle.trans hp)
    rw [applyMoved, hc, ← hrest, ← happly]
    rfl

theorem length_substitute (h : Compatible source.length cs) :
    ((substitute cs source).length : Int) = source.length + (cs.map gain).sum := by
  have hin : ∀ c ∈ leftToRight cs, c.extent.stop ≤ source.toList.length := fun c hc => by
    rw [String.length_toList]
    exact h.inside c ((perm_leftToRight cs).mem_iff.1 hc)
  rw [substitute, String.length_ofList, length_weave h.pairwise_leftToRight (fun _ _ => Nat.zero_le _) hin (Nat.zero_le _),
    String.length_toList, ((perm_leftToRight cs).map gain).sum_eq]
  omega

end Compatible

/-! ## From right to left -/

variable {c : Correction} {done order : List Correction} {text : String}

/-- What has only been edited to the right of a correction has not moved it. -/
theorem moved_drift_eq (hd : ∀ d ∈ done, c.extent.start ≤ d.extent.start) : c.moved (drift done c) = .ok c := by
  have hdrift : drift done c = 0 := by
    rw [drift, List.filter_eq_nil_iff.2 fun d hmem => by simpa using hd d hmem]
    rfl
  rw [hdrift, moved, Extent.ofBounds_eq_ok c.extent (Int.add_zero _) (Int.add_zero _)]
  rfl

theorem applyMoved_of_rightToLeft (ho : order.Pairwise fun c d => d.extent.start < c.extent.start)
    (hd : ∀ c ∈ order, ∀ d ∈ done, c.extent.start ≤ d.extent.start) :
    applyMoved done order text = .ok (applyAll order text) := by
  induction order generalizing done text with
  | nil => rfl
  | cons c order ih =>
    obtain ⟨hc, ho⟩ := List.pairwise_cons.1 ho
    rw [applyMoved, moved_drift_eq (hd c List.mem_cons_self)]
    refine ih ho fun e he d hmem => ?_
    rcases List.mem_cons.1 hmem with rfl | hmem
    · exact Nat.le_of_lt (hc e he)
    · exact hd e (List.mem_cons_of_mem _ he) d hmem

/-! ## Past the end -/

theorem toList_apply_eq_cut (c : Correction) (text : String) :
    (c.apply text).toList = text.toList.take (min c.extent.start text.length) ++ c.replacement.toList ++
      text.toList.drop (min c.extent.stop text.length) := by
  rw [apply, String.toList_ofList, ← String.length_toList, ← List.take_eq_take_min, ← List.drop_eq_drop_min]

/-- **Edits in any order.** Corrections of one source, inside it, apart from each other and with different starts, lead to
one text, in which all extents are replaced at once: carried out from right to left as they are, and in any order if each
is moved by what the earlier ones to its left have added. None of them is moved in front of the text, and the text is
longer than the source by what all of them add. A correction that reaches past the end of a text replaces what is there of
its extent, and keeps every character before. -/
theorem apply_in_any_order :
    (∀ (source : String) (cs : List Correction), Compatible source.length cs →
      (∀ order, order.Perm cs → (order.Pairwise fun c d => d.extent.start < c.extent.start) →
        applyAll order source = substitute cs source) ∧
      (∀ order, order.Perm cs → applyMoved [] order source = .ok (substitute cs source)) ∧
      ((substitute cs source).length : Int) = source.length + (cs.map gain).sum) ∧
    ∀ (text : String) (c : Correction),
      (c.apply text).toList = text.toList.take (min c.extent.start text.length) ++ c.replacement.toList ++
        text.toList.drop (min c.extent.stop text.length) ∧
      text.toList.take c.extent.start <+: (c.apply text).toList := by
  refine ⟨fun source cs h => ?_, fun text c => ⟨toList_apply_eq_cut c text, ?_⟩⟩
  · have hmoved : ∀ order, order.Perm cs → applyMoved [] order source = .ok (substitute cs source) := fun order ho => by
      have hstart : substitute [] source = source := String.ofList_toList
      have hall : applyMoved [] order (substitute [] source) = .ok (substitute cs source) :=
        h.applyMoved_eq (by rwa [List.append_nil])
      rwa [hstart] at hall
    refine ⟨fun order ho hright => ?_, hmoved, h.length_substitute⟩
    have hall : applyMoved [] order source = .ok (applyAll order source) :=
      applyMoved_of_rightToLeft hright fun _ _ _ hd => nomatch hd
    exact Except.ok.inj (hall.symm.trans (hmoved order ho))
  · rw [apply, String.toList_ofList, List.append_assoc]
    exact List.prefix_append _ _

/-- In `a && b`, with `a` replaced, something inserted where `a` ends, and `b` removed at the end of the text. -/
theorem apply_in_any_order_touching :
    let source := "a && b"
    let c : Correction := ⟨{ start := 0, stop := 1 }, "block_given?"⟩
    let d : Correction := ⟨{ start := 1, stop := 1 }, " "⟩
    let e : Correction := ⟨{ start := 5, stop := 6 }, ""⟩
    Compatible source.length [c, d, e] ∧ applyAll [e, d, c] source = "block_given?  && " ∧
      applyMoved [] [c, d, e] source = .ok "block_given?  && " ∧
      applyMoved [] [d, c, e] source = .ok "block_given?  && " := by
  intro source c d e
  have h : Compatible source.length [c, d, e] := by
    constructor <;> decide
  have htext : substitute [c, d, e] source = "block_given?  && " := by
    decide
  obtain ⟨hleft, hmoved, -⟩ := apply_in_any_order.1 source [c, d, e] h
  refine ⟨h, ?_, ?_, ?_⟩
  · rw [hleft [e, d, c] (by decide) (by simp [c, d, e]), htext]
  · rw [hmoved [c, d, e] (.refl _), htext]
  · rw [hmoved [d, c, e] (.swap _ _ _), htext]

end Correction

end BlockPresence
