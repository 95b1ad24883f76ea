import BlockPresence.Lint.Setup
import BlockPresence.Proofs.Lint.Objection
import BlockPresence.Proofs.Settings.Acceptance

/-!
# What setting up guarantees

Setting up goes in three steps (`Setup.build_eq`): the declared styles are checked, the section is read, and the messages and
instructions are looked up.

A registry is accepted only if it has a template for every switch (`Registry.templates_eq_ok`). So the rule that is set up
has the registry's template for every switch (`Setup.templates_of_build`). Whether a template can be filled is not tried
out.
-/

namespace BlockPresence

theorem Traced.ok_bind {α β : Type} (log : List Event) (a : α) (f : α → Traced β) :
    (⟨log, .ok a⟩ : Traced α) >>= f = ⟨log ++ (f a).log, (f a).result⟩ := rfl

theorem Traced.log_bind_ofExcept {α β : Type} (x : Traced α) (g : α → Except Fault β) :
    (x >>= fun a => Traced.ofExcept (g a)).log = x.log := by
  obtain ⟨log, _ | a⟩ := x
  · rfl
  · exact List.append_nil log

theorem Traced.result_bind_eq_ok {α β : Type} {x : Traced α} {f : α → Traced β} {b : β} :
    (x >>= f).result = .ok b ↔ ∃ a, x.result = .ok a ∧ (f a).result = .ok b := by
  rw [Traced.result_bind]
  cases x.result with
  | error fault => simp [Except.bind]
  | ok a => simp [Except.bind]

/-- Among templates that are listed by their switches each switch finds its own. -/
theorem Templates.find?_filterMap {ss : List Switch} {g : Switch → Option Template} {s : Switch} {template : Template}
    (hs : s ∈ ss) (hg : g s = some template) :
    (Templates.mk (ss.filterMap fun s => (g s).map fun template => (s, template))).find? s = some template := by
  have hmem : ∀ {p : Switch × Template},
      p ∈ (ss.filterMap fun s => (g s).map fun template => (s, template)).reverse ↔ p.1 ∈ ss ∧ g p.1 = some p.2 := by
    intro p
    rw [List.mem_reverse, List.mem_filterMap]
    constructor
    · rintro ⟨s', hs', h⟩
      obtain ⟨template', hg', rfl⟩ := Option.map_eq_some_iff.1 h
      exact ⟨hs', hg'⟩
    · rintro ⟨hs', hg'⟩
      exact ⟨p.1, hs', by rw [hg', Option.map_some]⟩
  unfold find?
  cases hl : List.lookup s (ss.filterMap fun s => (g s).map fun template => (s, template)).reverse with
  | none =>
    have hne := List.lookup_eq_none_iff.1 hl (s, template) (hmem.2 ⟨hs, hg⟩)
    simp at hne
  | some template' =>
    obtain ⟨before, after, he, -⟩ := List.lookup_eq_some_iff.1 hl
    have hg' := (hmem.1 (he ▸ List.mem_append_right _ List.mem_cons_self : (s, template') ∈ _)).2
    exact hg'.symm.trans hg

/-- **The templates of a rule** are those of its entry, and no switch lacks one. -/
theorem Registry.templates_eq_ok {registry : Registry} {code : String} {ts : Templates}
    (h : registry.templates code = .ok ts) : ∃ entry, registry.entry? code = some entry ∧
      ∀ s ∈ Switch.all, ∃ template, template? ((entry.lookup "messages").getD .null) s = some template ∧
        ts.find? s = some template := by
  unfold templates at h
  split at h
  · cases h
  · rename_i entry hentry
    refine ⟨entry, hentry, fun s hs => ?_⟩
    dsimp only at h
    split at h
    · rename_i hnone
      cases h
      have hsome := List.filter_eq_nil_iff.1 hnone s hs
      rw [Option.isNone_iff_eq_none] at hsome
      obtain ⟨template, ht⟩ := Option.ne_none_iff_exists'.1 hsome
      exact ⟨template, ht, Templates.find?_filterMap hs ht⟩
    · cases h

namespace Registry.Source

/-- The registry of a source: what is missing or no mapping counts as empty. -/
def registry : Source → Registry
  | packaged => Registry.packaged
  | loaded (.map fields) => ⟨fields⟩
  | _ => ⟨[]⟩

/-- What is logged when a registry is loaded. -/
def notices : Source → List Event
  | missing path => [.noRegistry path]
  | _ => []

theorem load_eq (source : Source) : source.load = ⟨source.notices, .ok source.registry⟩ := by
  cases source with
  | loaded v => cases v <;> rfl
  | _ => rfl

end Registry.Source

namespace Setup

variable {fields : Fields} {source : Registry.Source} {registry : Registry} {setup : Setup}

/-! ## Putting the services together -/

/-- The value that names the style where the section names none. -/
def fallback (registry : Registry) : Value := .str ((registry.defaultStyle? ruleCode).getD Style.fallback.name)

/-- What is put together from a registry and a section whose styles have been checked. -/
def assemble (registry : Registry) (config : Config) : Except Fault Setup :=
  (registry.templates ruleCode).bind fun templates =>
    (registry.manualInstructions ruleCode).map fun instructions =>
      let description := (registry.shortDescription? ruleCode).getD ruleDescription
      { registry, config, rule := { config, templates, instructions, description } }

/-- Putting the services together, in three steps: the declared styles are checked, the section is read, and the messages
and instructions are looked up. -/
theorem build_eq (fields : Fields) (source : Registry.Source) : build fields source =
    (⟨source.notices, source.registry.checkStyles ruleCode⟩ : Traced Unit) >>= fun _ =>
      Config.load fields (fallback source.registry) >>= fun config =>
        Traced.ofExcept (assemble source.registry config) := by
  have hrest : ∀ config, (do
      let templates ← Traced.ofExcept (source.registry.templates ruleCode)
      let instructions ← Traced.ofExcept (source.registry.manualInstructions ruleCode)
      let description := (source.registry.shortDescription? ruleCode).getD ruleDescription
      return ⟨source.registry, config, { config, templates, instructions, description }⟩ : Traced Setup) =
        Traced.ofExcept (assemble source.registry config) := by
    intro config
    unfold assemble
    cases source.registry.templates ruleCode with
    | error f => rfl
    | ok templates => cases source.registry.manualInstructions ruleCode <;> rfl
  simp only [← hrest]
  unfold build Registry.checkStyles
  rw [source.load_eq, Traced.ok_bind]
  cases source.registry.supportedStyles ruleCode with
  | error f => exact congrArg (Traced.mk · _) (List.append_nil _)
  | ok declared? => cases declared? with
    | none => rfl
    | some items =>
      simp only [Traced.ofExcept, Traced.ok_bind, Except.bind, Option.elim_some]
      cases Style.checkDeclared (.list items) with
      | error f => exact congrArg (Traced.mk · _) (List.append_nil _)
      | ok _ => rfl

theorem of_assemble {config : Config} (h : assemble registry config = .ok setup) :
    setup.registry = registry ∧ setup.config = config ∧ setup.rule.config = config ∧
      registry.templates ruleCode = .ok setup.rule.templates ∧
      registry.manualInstructions ruleCode = .ok setup.rule.instructions ∧
      setup.rule.description = (registry.shortDescription? ruleCode).getD ruleDescription := by
  unfold assemble at h
  cases ht : registry.templates ruleCode with
  | error f => rw [ht] at h; cases h
  | ok templates => cases hi : registry.manualInstructions ruleCode with
    | error f => rw [ht, hi] at h; cases h
    | ok instructions =>
      rw [ht, hi] at h
      cases h
      exact ⟨rfl, rfl, rfl, rfl, rfl, rfl⟩

/-- The rule that is set up has the templates of the registry. -/
theorem templates_of_build (h : (build fields source).result = .ok setup) :
    source.load.result = .ok setup.registry ∧ setup.registry.templates ruleCode = .ok setup.rule.templates := by
  rw [build_eq] at h
  obtain ⟨-, -, h⟩ := Traced.result_bind_eq_ok.1 h
  obtain ⟨config, -, h⟩ := Traced.result_bind_eq_ok.1 h
  obtain ⟨hregistry, -, -, htemplates, -⟩ := of_assemble h
  rw [source.load_eq, hregistry]
  exact ⟨rfl, htemplates⟩

end Setup

end BlockPresence
