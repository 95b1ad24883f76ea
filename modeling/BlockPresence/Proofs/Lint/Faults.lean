import BlockPresence.Lint.Session
import BlockPresence.Proofs.Lint.Rounds
import BlockPresence.Proofs.Lint.Setup
import BlockPresence.Proofs.Lint.Walk

/-!
# Faults while nodes are looked at

With templates for all switches, the one thing that can go wrong at a node is that a template cannot be filled
(`Rule.misfills_of_check`). And wherever it cannot be filled with a name that can come with it, there is a tree in which
this shows (`Rule.exists_check_of_misfills`). So the faults of a session are those of the accepted templates, no more and
no fewer (`Setup.raises_iff`). With the packaged registry there are none (`Setup.run_packaged`).
-/

namespace BlockPresence

/-- A message fails as its template does. -/
theorem Templates.message_eq_error_iff {ts : Templates} {a : Advice} {template : Template} {f : Fault}
    (ht : ts.find? a.switch = some template) :
    ts.message a = .error f ↔ ∃ fault, template.fill (a.param.getD "") = .error fault ∧ f = .template fault := by
  rw [message, ht]
  cases hfill : template.fill (a.param.getD "") with
  | ok text => simp [hfill, Except.mapError]
  | error fault => simp [hfill, Except.mapError, eq_comm]

namespace Rule

variable {r : Rule} {t : Tree} {n : Node} {memo : Memo} {f : Fault}

theorem outcome_eq_error_iff {a : Advice} :
    r.outcome t n (some a) = .error f ↔ r.templates.message a = .error f := by
  rw [outcome]
  cases r.templates.message a <;> simp [Except.map]

/-- The fault is that the template for a switch to the preferred idiom cannot be filled with a name that can come with
it. -/
inductive Misfills (r : Rule) : Fault → Prop
  | intro {e : Idiom} {name : String} {template : Template} {fault : Template.Fault} : e ≠ r.preferred →
      Switch.Fills ⟨e, r.preferred⟩ name → r.templates.find? ⟨e, r.preferred⟩ = some template →
      template.fill name = .error fault → Misfills r (.template fault)

/-! ## Only templates fail -/

theorem switch_eq_of_adviceFor? {param? : Option String} {a : Advice} (h : r.adviceFor? t n param? = some a) :
    ∃ e, e ≠ r.preferred ∧ a.switch = ⟨e, r.preferred⟩ := by
  rcases adviceFor?_cases h with ⟨e, text, -, hne, -, rfl, -⟩ | ⟨p, text, -, -, hi, -, rfl⟩
  · exact ⟨e, hne, rfl⟩
  · exact ⟨.truthiness, Ne.symm hi, rfl⟩

/-- **A check fails** only if a template cannot be filled, whatever is remembered. -/
theorem misfills_of_check (hts : ∀ s ∈ Switch.all, ∃ template, r.templates.find? s = some template)
    (h : (r.check t n memo).1.result = .error f) : r.Misfills f := by
  have hne : (r.check t n memo).1.result ≠ .ok none := by simp [h]
  obtain ⟨m, param?, a, -, hask, ha, hout⟩ := exists_advice_of_check hne
  obtain ⟨hmem, hfills⟩ := switch_of_adviceFor? hask ha
  obtain ⟨e, he, hswitch⟩ := switch_eq_of_adviceFor? ha
  obtain ⟨template, ht⟩ := hts _ hmem
  obtain ⟨fault, hfill, rfl⟩ := (Templates.message_eq_error_iff ht).1 (outcome_eq_error_iff.1 (hout.symm.trans h))
  rw [hswitch] at ht hfills
  exact .intro he hfills ht hfill

/-- Templates that can be filled whatever name comes with them leave nothing to fail. -/
theorem not_misfills (hts : r.templates.Complete) : ¬ r.Misfills f := by
  intro h
  cases h with
  | @intro e name template fault he hfills ht hfill =>
    obtain ⟨template', ht', hall⟩ := hts ⟨e, r.preferred⟩ (mem_switches he)
    obtain ⟨message, hm⟩ := hall name hfills
    cases ht.symm.trans ht'
    rw [hfill] at hm
    cases hm

end Rule

/-! ## Every template is used somewhere -/

namespace Node

variable {p text : String} {s : Node} {i : Idiom}

/-- The conditional that has `s` as its condition and nothing to do. -/
def ifOnly (s : Node) : Node := ⟨3, .cond, [.node s, .empty, .empty], .origin⟩

/-- The definition of a method `m` with the block parameter `p`, which asks for `s` in a condition. -/
def asking (p : String) (s : Node) : Node :=
  let param : Node := ⟨2, .param .block, [.text p], .origin⟩
  let params : Node := ⟨1, .args, [.node param], .origin⟩
  ⟨0, .method, [.text "m", .node params, .node (ifOnly s)], .origin⟩

theorem preorder_ifOnly (s : Node) : (ifOnly s).preorder = ifOnly s :: s.preorder := by
  simp [ifOnly, preorder_eq, childNodes, Slot.node?]

theorem distinct_asking (hs : s.Distinct) (hid : ∀ y ∈ s.preorder, 4 ≤ y.id) : (asking p s).Distinct := by
  have hids : (asking p s).preorder.map Node.id = [0, 1, 2, 3] ++ s.preorder.map Node.id := by
    simp [asking, ifOnly, preorder, preorderSlots]
  rw [Distinct, hids, List.nodup_append]
  refine ⟨by decide, hs, fun k hk j hj hkj => ?_⟩
  obtain ⟨y, hy, rfl⟩ := List.mem_map.1 hj
  have hfour := hid y hy
  simp only [List.mem_cons, List.not_mem_nil, or_false] at hk
  omega

theorem usableParam_asking (hp : p ≠ "") (hs : s.Spells i text) : (asking p s).UsableParam p := by
  refine ⟨⟨_, [], _, [], rfl, rfl, fun _ hb => (nomatch hb), rfl, rfl, hp⟩, ?_⟩
  rintro ⟨body, w, hbody, hw, hk, -⟩
  cases hbody
  rw [preorder_ifOnly, List.mem_cons] at hw
  rcases hw with rfl | hw
  · cases hk
  rcases hs.kind_of_mem hw with rfl | hy
  · rw [hs.kind_eq] at hk
    cases i <;> cases hk
  · rw [hy] at hk
    cases hk

theorem ifOnly_mem_asking : ifOnly s ∈ (asking p s).childNodes := mem_childNodes_of_slot (i := 2) rfl

theorem innermost_asking (path : String) :
    (Tree.ofRoot (asking p s) path).Innermost s (asking p s) [ifOnly s] := by
  have hcond : s ∈ (ifOnly s).childNodes := mem_childNodes_of_slot (i := 0) rfl
  refine ⟨⟨[], .child (.child .root ifOnly_mem_asking) hcond⟩, rfl, fun a ha => ?_⟩
  rw [List.mem_singleton.1 ha]
  rfl

theorem tested_asking : Tested (asking p s) s :=
  .condition (mem_preorder_of_mem_childNodes ifOnly_mem_asking) (.inl rfl) rfl

theorem not_hides_ifOnly : ∀ b ∈ [ifOnly s], ¬ b.Hides s p := fun b hb hh => by
  rw [List.mem_singleton.1 hb] at hh
  cases hh.1

theorem Spells.shape (h : s.Spells i text) (hi : i ≠ .truthiness) : s.Shape i := by
  cases h with
  | call hk hs => exact .call hk hs
  | probe hk hs ho _ => exact .probe hk (by rw [slot, hs]; rfl) (.bare ho)
  | name _ _ => exact absurd rfl hi

end Node

namespace Rule

variable {r : Rule} {e : Idiom} {name : String} {f : Fault}

/-- For every switch to the preferred idiom, and every name that can come with it, a tree can be objected to just so. -/
theorem exists_objection (he : e ≠ r.preferred) (hfills : Switch.Fills ⟨e, r.preferred⟩ name) :
    ∃ t n a, t.root.Distinct ∧ n ∈ t.nodes ∧ r.Objection t n a ∧ a.switch = ⟨e, r.preferred⟩ ∧
      a.param.getD "" = name := by
  -- where no name comes with the switch, that of the block parameter does not matter
  obtain ⟨p, hp, hname⟩ : ∃ p, p ≠ "" ∧ (name ≠ "" → p = name) := by
    by_cases hn : name = ""
    · exact ⟨"block", by decide, fun h => absurd hn h⟩
    · exact ⟨name, hn, fun _ => rfl⟩
  have hpne : some p ≠ some "" := fun h => hp (Option.some.inj h)
  obtain ⟨text, htext⟩ := Style.exists_sourceText? (i := e) hpne fun _ => Option.some_ne_none p
  obtain ⟨s, hs, hd, hid⟩ := Node.exists_spells htext 4
  let t := Tree.ofRoot (Node.asking p s) ""
  have htd : t.root.Distinct := Node.distinct_asking hd hid
  have hinner : t.Innermost s (Node.asking p s) [Node.ifOnly s] := Node.innermost_asking ""
  have hst : s ∈ t.nodes := t.nodes_eq ▸ hinner.1.choose_spec.mem_preorder
  have husable : (Node.asking p s).UsableParam p := Node.usableParam_asking hp hs
  by_cases ht : e = .truthiness
  · have hne : name ≠ "" := hfills.1 (.inl ht)
    have hi : r.preferred ≠ .truthiness := fun hi => he (ht.trans hi.symm)
    obtain ⟨ptext, hptext⟩ := Style.exists_sourceText? (i := r.preferred) hpne fun _ => Option.some_ne_none p
    subst ht
    cases sourceText?_truthiness htext
    cases hs with
    | name hk hslots =>
      have hslot : s.slot 0 = .text p := by rw [Node.slot, hslots]; rfl
      exact ⟨t, s, _, htd, hst,
        .unnamed hinner hk hslot husable Node.tested_asking Node.not_hides_ifOnly hi ((Idiom.wording_iff hi).2 hptext), rfl,
        hname hne⟩
  by_cases hi : r.preferred = .truthiness
  · have hne : name ≠ "" := hfills.1 (.inr hi)
    exact ⟨t, s, _, htd, hst, .named hinner (hs.shape ht) hi husable Node.not_hides_ifOnly, by rw [hi], hname hne⟩
  · have hempty : name = "" := by
      by_contra hne
      exact (hfills.2 hne).elim ht hi
    have hnone : (none : Option String) ≠ some "" := by simp
    obtain ⟨ptext, hptext⟩ := Style.exists_sourceText? (i := r.preferred) hnone fun h => absurd h hi
    exact ⟨t, s, _, htd, hst, .respelled hinner (hs.shape ht) he hi ((Idiom.wording_iff hi).2 hptext), rfl,
      hempty.symm⟩

/-- **A template that cannot be filled** makes some check fail. -/
theorem exists_check_of_misfills (h : r.Misfills f) :
    ∃ t n, n ∈ t.nodes ∧ (r.check t n Memo.empty).1.result = .error f := by
  cases h with
  | @intro e name template fault he hfills ht hfill =>
    obtain ⟨t, n, a, hd, hn, ho, hswitch, hparam⟩ := exists_objection he hfills
    refine ⟨t, n, hn, ?_⟩
    rw [check_result, (advice?_eq_some_iff hd hn).2 ho, outcome_eq_error_iff]
    exact (Templates.message_eq_error_iff (hswitch ▸ ht)).2 ⟨fault, hparam.symm ▸ hfill, rfl⟩

end Rule

/-! ## Sessions -/

namespace Checker

variable {c : Checker} {f : Fault}

theorem misfills_of_answer (hts : ∀ s ∈ Switch.all, ∃ template, c.rule.templates.find? s = some template)
    {memo : Memo} {request : Request} (h : (c.answer memo request).1.result = .error f) : c.rule.Misfills f := by
  have hmap : ∀ {found : Traced (Option Violation)}, (found.map Reply.violation).result = .error f →
      found.result = .error f := fun {found} h => by
    obtain ⟨log, fault | v⟩ := found
    · cases h
      rfl
    · cases h
  cases request with
  | openFile | reset | reassigned _ _ | usableParam _ => cases h
  | check t n => exact Rule.misfills_of_check hts (hmap h)
  | visit v t n =>
    have hv : (c.visit v t n memo).1.result = .error f := hmap h
    rw [visit_eq] at hv
    split at hv
    · rw [announce_result] at hv
      exact Rule.misfills_of_check hts hv
    · cases hv

/-- **A session fails** only where a template cannot be filled. -/
theorem misfills_of_mem_run (hts : ∀ s ∈ Switch.all, ∃ template, c.rule.templates.find? s = some template)
    {requests : List Request} {memo : Memo} {reply : Traced Reply} (hr : reply ∈ c.run memo requests)
    (h : reply.result = .error f) : c.rule.Misfills f := by
  induction requests generalizing memo with
  | nil => cases hr
  | cons request requests ih =>
    rcases List.mem_cons.1 hr with rfl | hr
    · exact misfills_of_answer hts h
    · exact ih hr

end Checker

namespace Setup

variable {fields : Fields} {source : Registry.Source} {setup : Setup}

theorem exists_template (h : (build fields source).result = .ok setup) :
    ∀ s ∈ Switch.all, ∃ template, setup.rule.templates.find? s = some template := by
  obtain ⟨entry, -, ht⟩ := Registry.templates_eq_ok (templates_of_build h).2
  intro s hs
  obtain ⟨template, -, hfind⟩ := ht s hs
  exact ⟨template, hfind⟩

/-- **What can go wrong after setting up.** Whatever the configuration and the registry, if they are accepted, then the
faults that sessions over any trees bring up are just those of filling the templates for switches to the preferred idiom
with names that can come with them. -/
theorem raises_iff (h : (build fields source).result = .ok setup) (f : Fault) :
    (∃ requests, ∃ reply ∈ (⟨setup.rule⟩ : Checker).run Memo.empty requests, reply.result = .error f) ↔
      setup.rule.Misfills f := by
  constructor
  · rintro ⟨requests, reply, hr, hf⟩
    exact Checker.misfills_of_mem_run (exists_template h) hr hf
  · intro hm
    obtain ⟨t, n, -, hcheck⟩ := Rule.exists_check_of_misfills hm
    refine ⟨[.check t n], _, List.mem_cons_self, ?_⟩
    change ((setup.rule.check t n Memo.empty).1.map Reply.violation).result = .error f
    rw [Traced.map, hcheck, Except.map]

/-! ## The packaged registry -/

theorem isPlain_packaged {s : Switch} (hs : s ∈ Switch.all) {template : Template}
    (h : Registry.template? (.map Registry.packagedMessages) s = some template) : template.isPlain = true := by
  have hall : (Switch.all.all fun s =>
      (Registry.template? (.map Registry.packagedMessages) s).all Template.isPlain) = true := by cbv
  have hs' := List.all_eq_true.1 hall s hs
  rwa [h, Option.all_some] at hs'

/-- The templates of the packaged registry can be filled whatever name comes with them. -/
theorem complete_packaged (h : (build fields .packaged).result = .ok setup) : setup.rule.templates.Complete := by
  obtain ⟨hload, htemplates⟩ := templates_of_build h
  have hregistry : setup.registry = Registry.packaged := (Except.ok.inj hload).symm
  obtain ⟨entry, hentry, hall⟩ := Registry.templates_eq_ok htemplates
  have hmessages : (Registry.packaged.entry? ruleCode).map (fun entry => (entry.lookup "messages").getD .null) =
      some (.map Registry.packagedMessages) := by cbv
  rw [← hregistry, hentry, Option.map_some, Option.some.injEq] at hmessages
  rw [hmessages] at hall
  intro s hs
  obtain ⟨template, ht, hfind⟩ := hall s hs
  exact ⟨template, hfind, fun name _ => Template.exists_fill_of_isPlain (isPlain_packaged hs ht) name⟩

/-- **With the packaged registry** no session fails, whatever the configuration. -/
theorem run_packaged (h : (build fields .packaged).result = .ok setup) {requests : List Request} {reply : Traced Reply}
    (hr : reply ∈ (⟨setup.rule⟩ : Checker).run Memo.empty requests) : ∃ a, reply.result = .ok a := by
  cases hf : reply.result with
  | ok a => exact ⟨a, rfl⟩
  | error f =>
    have hm : setup.rule.Misfills f := Checker.misfills_of_mem_run (exists_template h) hr hf
    exact absurd hm (Rule.not_misfills (complete_packaged h))

/-! ## Registries with one text for all switches -/

/-- A registry that has the text `text` for every switch. -/
def uniformRegistry (text : String) : Registry :=
  ⟨[(ruleId, .map [("messages", .map (Switch.all.map fun s => (s.key, .str text)))])]⟩

/-- What is set up from such a registry and an empty section. -/
def uniform (text : String) : Setup where
  registry := uniformRegistry text
  config := (Rule.uniform .truthiness).config
  rule :=
    { config := (Rule.uniform .truthiness).config
      templates := ⟨Switch.all.map fun s => (s, ⟨text⟩)⟩
      instructions := Registry.lastInstructions }

/-- Where each template asks for nothing but the name, no session fails. -/
theorem raises_iff_plain :
    let text := "Ask \x7bname\x7d."
    (build [] (.loaded (.map (uniformRegistry text).entries))).result = .ok (uniform text) ∧
    ∀ f requests, ∀ reply ∈ (⟨(uniform text).rule⟩ : Checker).run Memo.empty requests, reply.result ≠ .error f := by
  intro text
  have hbuild : (build [] (.loaded (.map (uniformRegistry text).entries))).result = .ok (uniform text) := by cbv
  refine ⟨hbuild, fun f requests reply hr hf => ?_⟩
  have hcomplete : (uniform text).rule.templates.Complete := Rule.uniform_complete .truthiness
  exact Rule.not_misfills hcomplete ((raises_iff hbuild f).1 ⟨requests, reply, hr, hf⟩)

/-- A registry whose texts ask for something else than the name is accepted, and the check of the first call fails. -/
theorem raises_of_accepted_registry :
    let text := "Ask \x7bother\x7d."
    let t := Tree.ofRoot (Node.definition 0 (Node.blockGiven 3)) "m.rb"
    (build [] (.loaded (.map (uniformRegistry text).entries))).result = .ok (uniform text) ∧
    ((uniform text).rule.check t (Node.blockGiven 3) Memo.empty).1.result =
      .error (.template (.unknownField "other")) := by
  intro text t
  exact ⟨by cbv, by cbv⟩

end Setup

end BlockPresence
