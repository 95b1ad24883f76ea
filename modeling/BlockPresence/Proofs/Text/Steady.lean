import BlockPresence.Proofs.Text.Join
import Mathlib

/-!
# Faults that do not depend on the value

Two values are filled into the same template, side by side. Where a hole asks for something else than the value, both runs
fail there alike. Where it asks for the value, both come to subjects that cannot be told apart but by their characters
(`Subject.Alike`), for members, conversions and layouts do not look at these. Only two things do: asking for a character by
its position, which a short text does not have, and a layout that is made from the value. A template that does neither is
steady (`Steady`): what is wrong with it is wrong with it for all values (`Steady.failTogether`).
-/

namespace BlockPresence.Template

/-! ## Results side by side -/

/-- Two results with the same fault, or with values that are related. -/
inductive Together {ε α β : Type} (R : α → β → Prop) : Except ε α → Except ε β → Prop
  | error (e : ε) : Together R (.error e) (.error e)
  | ok {a : α} {b : β} : R a b → Together R (.ok a) (.ok b)

/-- Two results with the same fault, or without one. -/
abbrev FailTogether {ε α β : Type} : Except ε α → Except ε β → Prop := Together fun _ _ => True

namespace Together

variable {ε α β γ δ : Type} {R : α → β → Prop} {S : γ → δ → Prop} {x : Except ε α} {y : Except ε β}

theorem self : ∀ x : Except ε α, Together Eq x x
  | .error e => .error e
  | .ok _ => .ok rfl

theorem failTogether (h : Together R x y) : FailTogether x y := by
  cases h with
  | error e => exact .error e
  | ok hab => exact .ok trivial

theorem bind {f : α → Except ε γ} {g : β → Except ε δ} (h : Together R x y)
    (hfg : ∀ a b, R a b → Together S (f a) (g b)) : Together S (x >>= f) (y >>= g) := by
  cases h with
  | error e => exact .error e
  | ok hab => exact hfg _ _ hab

theorem failTogether_ok (a : α) (b : β) : FailTogether (.ok a : Except ε α) (.ok b) := .ok trivial

theorem map {f : α → γ} {g : β → δ} (h : Together R x y) : FailTogether (x.map f) (y.map g) := by
  cases h with
  | error e => exact .error e
  | ok hab => exact .ok trivial

theorem mapError {ε' : Type} (f : ε → ε') (h : Together R x y) : FailTogether (x.mapError f) (y.mapError f) := by
  cases h with
  | error e => exact .error (f e)
  | ok hab => exact .ok trivial

theorem eq {y : Except ε α} (h : Together Eq x y) : x = y := by
  cases h with
  | error e => rfl
  | ok hab => rw [hab]

theorem error_iff (h : Together R x y) (e : ε) : x = .error e ↔ y = .error e := by
  cases h with
  | error e' => simp
  | ok hab => simp

/-- Of two runs over a list the first step that fails decides. -/
theorem mapM {ι : Type} {f : ι → Except ε α} {g : ι → Except ε β} :
    ∀ {ps : List ι}, (∀ p ∈ ps, Together R (f p) (g p)) → Together (List.Forall₂ R) (ps.mapM f) (ps.mapM g)
  | [], _ => .ok .nil
  | p :: ps, h => by
    rw [List.mapM_cons, List.mapM_cons]
    refine (h p (.head _)).bind fun a b hab => ?_
    refine (mapM fun q hq => h q (.tail _ hq)).bind fun as bs habs => ?_
    exact .ok (.cons hab habs)

end Together

/-! ## Subjects side by side -/

namespace Subject

/-- Subjects that cannot be told apart but by the characters of a text: any two texts, and the operations of such
subjects. -/
inductive Alike : Subject → Subject → Prop
  | texts (cs cs' : List Char) : Alike (text cs) (text cs')
  | refl (s : Subject) : Alike s s
  | bound {s s' : Subject} (h : Alike s s') (definer : Class) (o : Operation) :
      Alike (bound s definer o) (bound s' definer o)

namespace Alike

variable {s s' : Subject}

theorem classOf_eq (h : Alike s s') : s.classOf = s'.classOf := by cases h <;> rfl

theorem ofOperation (h : Alike s s') (definer : Class) (o : Operation) :
    Alike (s.ofOperation definer o) (s'.ofOperation definer o) := by
  unfold Subject.ofOperation
  cases o.form with
  | method | slot => exact bound h definer o
  | ofDefiner => exact refl _
  | ofClass =>
    rw [h.classOf_eq]
    exact refl _

theorem orElse {a a' b b' : Option Subject} (h : Option.Rel Alike a a') (h' : Option.Rel Alike b b') :
    Option.Rel Alike (a <|> b) (a' <|> b') := by
  cases h with
  | some h => exact .some h
  | none => exact h'

theorem rel_refl : ∀ a : Option Subject, Option.Rel Alike a a
  | none => .none
  | some s => .some (refl s)

theorem asSubject (h : Alike s s') (name : String) :
    Option.Rel Alike ((s.classOf.operation? name).map fun (d, o) => s.ofOperation d o)
      ((s'.classOf.operation? name).map fun (d, o) => s'.ofOperation d o) := by
  rw [← h.classOf_eq]
  cases s.classOf.operation? name with
  | none => exact .none
  | some found => exact .some (h.ofOperation found.1 found.2)

theorem boundMember? (h : Alike s s') (definer : Class) (o : Operation) (name : String) :
    Option.Rel Alike (Subject.boundMember? s definer o name) (Subject.boundMember? s' definer o name) := by
  unfold Subject.boundMember?
  split
  · exact .some h
  · exact rel_refl _
  · cases h with
    | refl => exact rel_refl _
    | texts => exact rel_refl _
    | bound h' definer' o' => exact rel_refl _
  · exact rel_refl _
  · exact rel_refl _

theorem member? (h : Alike s s') (name : String) : Option.Rel Alike (s.member? name) (s'.member? name) := by
  unfold Subject.member?
  split
  · rw [h.classOf_eq]
    exact rel_refl _
  · -- a text has the members of its class, and no others
    cases h with
    | refl => exact rel_refl _
    | texts cs cs' => exact orElse (rel_refl _) ((texts cs cs').asSubject name)
    | bound h definer o => exact orElse (h.boundMember? definer o name) ((bound h definer o).asSubject name)

theorem member?_eq_none (h : Alike s s') {name : String} (hnone : s.member? name = none) : s'.member? name = none := by
  have hr := h.member? name
  rw [hnone] at hr
  cases hs' : s'.member? name with
  | none => rfl
  | some part' => rw [hs'] at hr; cases hr

theorem exists_member (h : Alike s s') {name : String} {part : Subject} (hpart : s.member? name = some part) :
    ∃ part', s'.member? name = some part' ∧ Alike part part' := by
  have hr := h.member? name
  rw [hpart] at hr
  cases hs' : s'.member? name with
  | none => rw [hs'] at hr; cases hr
  | some part' =>
    rw [hs'] at hr
    cases hr with
    | some halike => exact ⟨part', rfl, halike⟩

theorem apply (h : Alike s s') (c : Conversion) : Alike (c.apply s) (c.apply s') := by
  cases c with
  | plain => exact h
  | shown | quoted | quotedAscii => exact texts _ _

theorem layOut (h : Alike s s') (layout : List Char) : FailTogether (s.layOut layout) (s'.layOut layout) := by
  cases h with
  | refl => exact (Together.self _).failTogether
  | texts cs cs' => exact (Together.self (Layout.read layout)).map.mapError Fault.layout
  | bound h definer o =>
    unfold Subject.layOut
    by_cases hl : layout.isEmpty = true
    · simp only [hl, if_true]
      exact Together.failTogether_ok _ _
    · simp only [hl]
      exact .error _

end Alike

end Subject

/-! ## Fields -/

/-- Whether a field asks for what is at a position, in brackets. -/
def AsksForPosition (field : List Char) : Prop :=
  ∃ rest i, '[' :: rest <:+ field ∧ readPosition (rest.takeWhile (· ≠ ']')) = .ok (some i)

theorem AsksForPosition.of_suffix {field rest : List Char} (h : AsksForPosition rest) (hs : rest <:+ field) :
    AsksForPosition field := by
  obtain ⟨rest', i, hr, hi⟩ := h
  exact ⟨rest', i, hr.trans hs, hi⟩

/-- What stands in brackets and is no position leads nowhere. -/
theorem exists_error_of_not_asksForPosition {rest : List Char} (h : ¬ AsksForPosition ('[' :: rest)) :
    ∃ f, ∀ s : Subject, (readPosition (rest.takeWhile (· ≠ ']')) >>= s.item) = .error f := by
  cases hp : readPosition (rest.takeWhile (· ≠ ']')) with
  | error f => exact ⟨f, fun s => rfl⟩
  | ok position? =>
    cases position? with
    | some i => exact absurd ⟨rest, i, List.suffix_refl _, hp⟩ h
    | none => exact ⟨.noItem, fun s => by cases s <;> rfl⟩

theorem follow_of_bracket {s : Subject} {rest : List Char} {f : Fault}
    (h : (readPosition (rest.takeWhile (· ≠ ']')) >>= s.item) = .error f) : follow s ('[' :: rest) = .error f := by
  rw [follow, if_pos rfl, h]

theorem follow_of_dot (s : Subject) (rest : List Char) : follow s ('.' :: rest) =
    if (rest.takeWhile isNameChar).isEmpty then .error .emptyPart
    else
      match s.member? (String.ofList (rest.takeWhile isNameChar)) with
      | none => .error (.noMember (String.ofList (rest.takeWhile isNameChar)))
      | some part => follow part (rest.dropWhile isNameChar) := by
  rewrite [follow, if_neg (by decide), if_pos rfl]
  rfl

/-- A field that asks for no position leads on from subjects that cannot be told apart to such subjects again. -/
theorem follow_alike {s s' : Subject} {field : List Char} (hp : ¬ AsksForPosition field) (h : s.Alike s') :
    Together Subject.Alike (follow s field) (follow s' field) := by
  induction s, field using follow.induct generalizing s' with
  | case1 s =>
    rw [follow, follow]
    exact .ok h
  | case2 s rest f hf | case3 s rest part hf ih =>
    -- what stands in brackets is no position, so that both runs end here
    obtain ⟨f, hf⟩ := exists_error_of_not_asksForPosition hp
    rw [follow_of_bracket (hf s), follow_of_bracket (hf s')]
    exact .error f
  | case4 s rest member hm =>
    rw [follow_of_dot, if_pos hm, follow_of_dot, if_pos hm]
    exact .error _
  | case5 s rest member hm hnone =>
    rw [follow_of_dot, if_neg hm, hnone, follow_of_dot, if_neg hm, h.member?_eq_none hnone]
    exact .error _
  | case6 s rest member hm part hpart =>
    rename_i ih
    obtain ⟨part', hpart', halike⟩ := h.exists_member hpart
    rw [follow_of_dot, if_neg hm, hpart, follow_of_dot, if_neg hm, hpart']
    exact ih (fun h => hp (h.of_suffix ((List.dropWhile_suffix _).trans (List.suffix_cons _ _)))) halike
  | case7 s c rest hb hd =>
    rw [follow, if_neg hb, if_neg hd, follow, if_neg hb, if_neg hd]
    exact .error _

/-! ## Holes -/

/-- Whether a hole asks for something else than the value. -/
def Hole.IsForeign (h : Hole) : Prop := checkName (h.field.takeWhile isNameChar) ≠ .ok ()

/-- Whether what is wrong with a hole, if anything is, is wrong with it for all values: it asks for something else, or for
the value in a way that needs no character of it to be there, in a layout that is not made from it. -/
def Hole.Steady (h : Hole) : Prop :=
  h.IsForeign ∨ ¬ AsksForPosition h.field ∧ ∀ h', .hole h' ∈ pieces h.layout → h'.IsForeign

/-- A text without opening braces has no holes. -/
theorem not_mem_hole_of_not_mem {cs : List Char} (hb : openBrace ∉ cs) (h : Hole) : .hole h ∉ pieces cs := by
  induction cs using pieces.induct with
  | case1 => simp
  | case2 | case5 | case6 | case7 => exact absurd (.head _) hb
  | case3 hne => simp [pieces, hne]
  | case4 c ho hc => simp [pieces_literal ho hc]
  | case8 rest hne ih => simpa [pieces_close_close] using ih fun hm => hb (.tail _ (.tail _ hm))
  | case9 d rest hd hne => simp [pieces, hne, hd]
  | case10 c d rest ho hc ih => simpa [pieces_literal ho hc] using ih fun hm => hb (.tail _ hm)

/-- A hole that asks for the value itself is steady, whatever its conversion and its layout are, if the layout has no holes
of its own. -/
theorem Hole.steady_of_field {h : Hole} (hf : h.field = bare.field) (hl : openBrace ∉ h.layout) : h.Steady := by
  refine .inr ⟨?_, fun h' hh' => absurd hh' (not_mem_hole_of_not_mem hl h')⟩
  rintro ⟨rest, i, hr, -⟩
  have hm : '[' ∈ bare.field := hf ▸ hr.mem (.head _)
  exact absurd hm (by decide)

/-- Whether all holes of a template are steady. -/
def Steady (t : Template) : Prop := ∀ h, .hole h ∈ pieces t.text.toList → h.Steady

section Values

variable (value value' : List Char)

theorem Hole.IsForeign.exists_fault {h : Hole} (hf : h.IsForeign) :
    ∃ f, ∀ value expand, h.fill value expand = .error f := by
  cases hc : checkName (h.field.takeWhile isNameChar) with
  | ok u => exact absurd hc hf
  | error f =>
    refine ⟨f, fun value expand => ?_⟩
    rw [fill, select, hc]
    rfl

theorem select_alike {field : List Char} (hp : ¬ AsksForPosition field) :
    Together Subject.Alike (select value field) (select value' field) :=
  (Together.self _).bind fun _ _ _ =>
    follow_alike (fun h => hp (h.of_suffix (List.dropWhile_suffix _))) (.texts value value')

/-- A text that asks for nothing of the value is filled alike for all values. -/
theorem fillText_eq_of_foreign {cs : List Char} (hf : ∀ h, .hole h ∈ pieces cs → h.IsForeign) (depth : Nat) :
    fillText value depth cs = fillText value' depth cs := by
  cases depth with
  | zero => rfl
  | succ depth =>
    -- every piece is filled alike: a hole fails at the field already, before its layout is looked at
    have hm : Together (List.Forall₂ Eq) ((pieces cs).mapM (Piece.fill value (fillText value depth)))
        ((pieces cs).mapM (Piece.fill value' (fillText value' depth))) := by
      refine .mapM fun p hp => ?_
      cases p with
      | literal c => exact .ok rfl
      | fault f => exact .error f
      | hole h =>
        obtain ⟨f, hfill⟩ := (hf h hp).exists_fault
        rw [Piece.fill, hfill, Piece.fill, hfill]
        exact .error f
    rw [List.forall₂_eq_eq_eq] at hm
    rw [fillText, hm.eq, fillText]

theorem Hole.Steady.failTogether {h : Hole} (hs : h.Steady) (depth : Nat) :
    FailTogether (h.fill value (fillText value depth)) (h.fill value' (fillText value' depth)) := by
  rcases hs with hf | ⟨hp, hl⟩
  · obtain ⟨f, hfill⟩ := hf.exists_fault
    rw [hfill, hfill]
    exact .error f
  · -- the two runs have the same conversion and layout, and the subjects do not matter for whether the layout fits
    unfold Hole.fill
    rw [fillText_eq_of_foreign value value' hl]
    refine (select_alike value value' hp).bind fun s s' halike => ?_
    refine (Together.self _).bind fun c _ hc => ?_
    subst hc
    split
    · refine (Together.self _).bind fun l _ hl => ?_
      subst hl
      exact (halike.apply c).layOut l
    · exact (halike.apply c).layOut h.layout

/-- **What is wrong with a steady template** is wrong with it for all values. -/
theorem Steady.failTogether {t : Template} (hs : t.Steady) (depth : Nat) :
    FailTogether (fillText value depth t.text.toList) (fillText value' depth t.text.toList) := by
  cases depth with
  | zero => exact .error _
  | succ depth =>
    refine Together.map (.mapM (R := fun _ _ => True) fun p hp => ?_)
    cases p with
    | literal c => exact .failTogether_ok _ _
    | fault f => exact .error f
    | hole h => exact (hs h hp).failTogether value value' depth

end Values

end BlockPresence.Template

namespace BlockPresence.Templates

/-! ## Messages -/

theorem message_eq_fill {ts : Templates} {a : Advice} {t : Template} (h : ts.find? a.switch = some t) :
    ts.message a = (t.fill (a.param.getD "")).mapError .template := by
  rw [message, h]

theorem message_eq_ok_iff {ts : Templates} {a : Advice} {t : Template} {text : String} (h : ts.find? a.switch = some t) :
    ts.message a = .ok text ↔ t.fill (a.param.getD "") = .ok text := by
  rw [message_eq_fill h]
  cases t.fill (a.param.getD "") <;> simp [Except.mapError]

/-- **A message takes the block parameter as it is.** Of two advices for the same switch, whose block parameters may have any
names or be missing, the message for one is at fault exactly as the one for the other is, if the template is steady, such as
one whose holes ask for the name with some conversion, width and precision, or else for what there is not. The text before
and after the parameter stays what it is, and so does the name, whatever braces are in them. And templates that can be
filled can be filled when they are joined, each with what it gives on its own. -/
theorem message_of_any_param :
    (∀ (ts : Templates) (a a' : Advice), a.switch = a'.switch → (∀ t, ts.find? a.switch = some t → t.Steady) →
      ∀ f, ts.message a = .error f ↔ ts.message a' = .error f) ∧
    (∀ (ts : Templates) (a : Advice) (before behind : String),
      ts.find? a.switch = some (Template.ofText before ++ Template.bare ++ Template.ofText behind) →
      ts.message a = .ok (before ++ a.param.getD "" ++ behind)) ∧
    ∀ (ts ts₁ ts₂ : Templates) (a : Advice) (t₁ t₂ : Template) (text₁ text₂ : String),
      ts₁.find? a.switch = some t₁ → ts₂.find? a.switch = some t₂ → ts.find? a.switch = some (t₁ ++ t₂) →
      ts₁.message a = .ok text₁ → ts₂.message a = .ok text₂ → ts.message a = .ok (text₁ ++ text₂) := by
  refine ⟨fun ts a a' hs hsteady => ?_, fun ts a before behind hfind => ?_, ?_⟩
  · suffices h : Template.FailTogether (ts.message a) (ts.message a') from h.error_iff
    unfold message
    rw [← hs]
    cases hfind : ts.find? a.switch with
    | none => exact .error _
    | some t => exact ((hsteady t hfind).failTogether _ _ Template.maxDepth).map.mapError Fault.template
  · refine (message_eq_ok_iff hfind).2 (Template.fill_append (Template.fill_append ?_ ?_) ?_)
    · exact Template.fill_ofText before _
    · exact Template.fill_bare _
    · exact Template.fill_ofText behind _
  · intro ts ts₁ ts₂ a t₁ t₂ text₁ text₂ h₁ h₂ h hm₁ hm₂
    exact (message_eq_ok_iff h).2
      (Template.fill_append ((message_eq_ok_iff h₁).1 hm₁) ((message_eq_ok_iff h₂).1 hm₂))

/-- A block parameter that looks like a hole, in a template with a conversion that there is not, in one with braces of its
own, and in the latter twice over. -/
theorem message_of_any_param_brace :
    let s : Switch := ⟨.call, .truthiness⟩
    let a : Advice := ⟨s, "block", some "\x7bname\x7d"⟩
    let wrong : Template := ⟨"\x7bname!q\x7d"⟩
    let braces := Template.ofText "\x7b " ++ Template.bare ++ Template.ofText "\x7d"
    (⟨[(s, wrong)]⟩ : Templates).message a = .error (.template (.unknownConversion 'q')) ∧
      (⟨[(s, braces ++ braces)]⟩ : Templates).message a =
        .ok ("\x7b \x7bname\x7d\x7d" ++ "\x7b \x7bname\x7d\x7d") := by
  intro s a wrong braces
  have hpieces : Template.pieces wrong.text.toList = [.hole ⟨['n', 'a', 'm', 'e'], some 'q', []⟩] := by cbv
  have hsteady : wrong.Steady := by
    intro h hh
    rw [hpieces, List.mem_singleton] at hh
    cases hh
    exact Template.Hole.steady_of_field rfl List.not_mem_nil
  have hfault := message_of_any_param.1 ⟨[(s, wrong)]⟩ ⟨s, "block", none⟩ a rfl
    (fun t ht => by cases ht; exact hsteady) (.template (.unknownConversion 'q'))
  have hbraces := message_of_any_param.2.1 ⟨[(s, braces)]⟩ a "\x7b " "\x7d" rfl
  refine ⟨hfault.1 (by cbv), ?_⟩
  exact message_of_any_param.2.2 ⟨[(s, braces ++ braces)]⟩ _ _ a braces braces _ _ rfl rfl rfl hbraces hbraces

end BlockPresence.Templates
