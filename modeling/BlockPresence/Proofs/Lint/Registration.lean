import BlockPresence.Proofs.Lint.Setup

/-!
# Registration

Setting up checks the styles that the registry declares, then the section, then the messages and instructions of the
registry (`Setup.checks_build`). So a checker is registered for just those settings that are accepted, with the rule that
they describe (`Rule.SetUpFrom`), and else the fault is that of the first requirement that is not met
(`Checker.register_outcome`).
-/

namespace BlockPresence

open Requirement

/-- The rule has the settings of a section in which `chosen` names the style, and the words of a registry. -/
structure Rule.SetUpFrom (r : Rule) (fields : Fields) (registry : Registry) (chosen : Value) : Prop where
  config : r.config.Reads fields chosen
  templates : ∀ s ∈ Switch.keys, ∃ v text, registry.Message "W9501" s.2 v ∧ v.Written text ∧
    r.templates.find? s.1 = some ⟨text⟩
  instructions : registry.Instructs "W9501" r.instructions
  description : registry.GivesText "W9501" "short_description" "Check block presence with the configured idiom."
    r.description

namespace Setup

variable {fields : Fields} {source : Registry.Source} {registry : Registry} {setup : Setup}
  {declared : List Requirement}

/-! ## What is accepted -/

/-- What is asked of a section and a registry, in the order in which it is checked, where `declared` is asked of the
styles that the registry declares, and `chosen` is to name the style. -/
def requirements (fields : Fields) (registry : Registry) (declared : List Requirement) (chosen : Value) :
    List Requirement :=
  declared ++ (Config.requirements fields chosen ++
    (registry.messageRequirements "W9501" ++ registry.instructionRequirements "W9501"))

/-- The value that is to name the style, as it is looked up. -/
def styleValue (fields : Fields) (registry : Registry) : Value :=
  (fields.lookup "EnforcedStyle").getD (fallback registry)

theorem chooses_styleValue (fields : Fields) (registry : Registry) :
    Config.Chooses registry "W9501" fields (styleValue fields registry) :=
  Config.chooses registry "W9501" fields

theorem checks_assemble (registry : Registry) (config : Config) :
    Checks (registry.messageRequirements "W9501" ++ registry.instructionRequirements "W9501")
      (assemble registry config) :=
  (registry.checks_templates ruleCode).bind fun _ _ => (registry.checks_manualInstructions ruleCode).map

/-- **Setting up fails at the first requirement** that is not met. -/
theorem checks_build (hd : source.registry.AsksStyles "W9501" declared) :
    Checks (requirements fields source.registry declared (styleValue fields source.registry))
      (build fields source).result := by
  rw [build_eq, Traced.result_bind]
  refine (Registry.checks_checkStyles hd).bind fun _ _ => ?_
  rw [Traced.result_bind]
  exact (Config.checks_load fields _).bind fun config _ => checks_assemble source.registry config

/-- The rule that is set up has the settings of the section and the words of the registry. -/
theorem of_build (h : (build fields source).result = .ok setup) : setup.rule.config = setup.config ∧
    setup.rule.SetUpFrom fields source.registry (styleValue fields source.registry) := by
  rw [build_eq] at h
  obtain ⟨-, -, h⟩ := Traced.result_bind_eq_ok.1 h
  obtain ⟨config, hconfig, h⟩ := Traced.result_bind_eq_ok.1 h
  obtain ⟨-, rfl, hrule, htemplates, hinstructions, hdescription⟩ := of_assemble h
  obtain ⟨entry, hentry, hfind⟩ := Registry.templates_eq_ok htemplates
  refine ⟨hrule, hrule ▸ Config.reads_of_load hconfig, fun s hs => ?_,
    Registry.instructs_of_manualInstructions hinstructions,
    hdescription ▸ source.registry.givesText ruleCode "short_description" ruleDescription⟩
  rw [Switch.keys_eq] at hs
  obtain ⟨s, hall, rfl⟩ := List.mem_map.1 hs
  obtain ⟨template, htemplate, hs⟩ := hfind s hall
  rw [Registry.template?_eq hentry] at htemplate
  obtain ⟨v, hv, rfl⟩ := Option.map_eq_some_iff.1 htemplate
  exact ⟨v, _, Registry.message?_eq_some_iff.1 hv, Value.written_iff.2 rfl, hs⟩

/-- The warnings of a section: once the declared styles are accepted, all keys that mean nothing, in the order of their
code points. -/
inductive Warns (fields : Fields) (declared : List Requirement) : List Event → Prop
  | unread : ¬ AllMet declared → Warns fields declared []
  | read {keys : List String} : AllMet declared → keys.Pairwise (· ≤ ·) →
      keys.Perm ((fields.map Prod.fst).filter fun key =>
        key ∉ ["AutoCorrect", "Description", "Enabled", "EnforcedStyle", "Safe", "SafeAutoCorrect", "SupportedStyles",
          "VersionAdded", "VersionChanged"]) →
      Warns fields declared (keys.map .unknownKey)

theorem Warns.level {log : List Event} (h : Warns fields declared log) : ∀ event ∈ log, event.level = .warning := by
  intro event he
  cases h with
  | unread _ => cases he
  | read _ _ _ =>
    obtain ⟨key, -, rfl⟩ := List.mem_map.1 he
    rfl

/-- Setting up logs the notices of the registry and the warnings of the section. -/
theorem build_log (fields : Fields) (hd : source.registry.AsksStyles "W9501" declared) :
    ∃ warned, Warns fields declared warned ∧ (build fields source).log = source.notices ++ warned := by
  have hiff := (Registry.checks_checkStyles hd).exists_ok_iff
  rw [build_eq, show ruleCode = "W9501" from rfl]
  cases hs : source.registry.checkStyles "W9501" with
  | error f => exact ⟨[], .unread fun h => by simp [hs] at hiff; exact hiff h, (List.append_nil _).symm⟩
  | ok _ =>
    obtain ⟨hsorted, hperm⟩ := Config.unknownKeys_sorted fields
    refine ⟨_, .read (hiff.1 ⟨_, hs⟩) hsorted hperm, ?_⟩
    rw [Traced.ok_bind, Traced.log_bind_ofExcept, Config.load_eq]

/-- The faults of the requirements by their nature. -/
theorem requirements_category (hd : registry.AsksStyles "W9501" declared) (fields : Fields) (chosen : Value) :
    ∃ styles : List Fault.Category, styles <+: [.nature, .nature, .settings] ∧
      (requirements fields registry declared chosen).map (fun q => q.fault.category) =
        styles ++ List.replicate 5 .settings ++ [.nature] := by
  refine ⟨declared.map fun q => q.fault.category, ?_, ?_⟩
  · cases hd with
    | undeclared _ => exact List.nil_prefix
    | unlisted _ _ => exact ⟨[.nature, .settings], rfl⟩
    | listed _ _ => exact ⟨[], rfl⟩
  · rw [requirements, List.map_append, List.append_assoc]
    rfl

end Setup

/-! ## Registering -/

namespace Checker

variable {fields : Fields} {source : Registry.Source}

/-- What registering returns for a rule that is set up. -/
def ofSetup? (setup : Setup) : Option Checker := if setup.config.enabled then some ⟨setup.rule⟩ else none

theorem ofSetup?_eq_some_iff {setup : Setup} {c : Checker} :
    ofSetup? setup = some c ↔ setup.config.enabled = true ∧ c = ⟨setup.rule⟩ := by
  unfold ofSetup?
  split
  · rename_i he
    simp [he, eq_comm]
  · rename_i he
    simp [he]

/-- Registering returns what goes with the setup, and logs last that a rule is switched off. -/
theorem register_eq (source : Registry.Source) (fields : Fields) : (register source).proceed fields =
    ⟨(Setup.build fields source).log ++
        match (Setup.build fields source).result.map ofSetup? with
        | .ok none => [.disabled]
        | _ => [],
      (Setup.build fields source).result.map ofSetup?⟩ := by
  unfold register
  dsimp only
  obtain ⟨log, f | setup⟩ := Setup.build fields source
  · exact congrArg (Traced.mk · _) (List.append_nil _).symm
  · rw [Traced.ok_bind]
    simp only [Except.map, ofSetup?]
    cases setup.config.enabled <;> rfl

theorem register_result (source : Registry.Source) (fields : Fields) :
    ((register source).proceed fields).result = (Setup.build fields source).result.map ofSetup? := by
  rw [register_eq]

theorem checks_register (hd : source.registry.AsksStyles "W9501" declared) :
    Checks (Setup.requirements fields source.registry declared (Setup.styleValue fields source.registry))
      ((register source).proceed fields).result := by
  rw [register_result]
  exact (Setup.checks_build hd).map

/-- A rule that is switched off is set up, but no checker is registered. -/
theorem register_eq_none_iff (hd : source.registry.AsksStyles "W9501" declared) :
    ((register source).proceed fields).result = .ok none ↔
      AllMet (Setup.requirements fields source.registry declared (Setup.styleValue fields source.registry)) ∧
        fields.lookup "Enabled" = some (.bool false) := by
  rw [register_result, ← (Setup.checks_build hd).exists_ok_iff]
  cases hb : (Setup.build fields source).result with
  | error f => simp [Except.map]
  | ok setup =>
    obtain ⟨hrule, hfrom⟩ := Setup.of_build hb
    have henabled := hrule ▸ hfrom.config.enabled
    simp [Except.map, ofSetup?, henabled]

/-- A checker is registered for every other rule that can be set up, with the settings and words that are given. -/
theorem exists_registered_iff (hd : source.registry.AsksStyles "W9501" declared) :
    (∃ c : Checker, ((register source).proceed fields).result = .ok (some c) ∧
        c.rule.SetUpFrom fields source.registry (Setup.styleValue fields source.registry)) ↔
      AllMet (Setup.requirements fields source.registry declared (Setup.styleValue fields source.registry)) ∧
        fields.lookup "Enabled" ≠ some (.bool false) := by
  rw [register_result, ← (Setup.checks_build hd).exists_ok_iff]
  cases hb : (Setup.build fields source).result with
  | error f => simp [Except.map]
  | ok setup =>
    obtain ⟨hrule, hfrom⟩ := Setup.of_build hb
    rw [← hfrom.config.enabled, hrule]
    constructor
    · rintro ⟨c, hc, -⟩
      exact ⟨⟨setup, rfl⟩, (ofSetup?_eq_some_iff.1 (Except.ok.inj hc)).1⟩
    · rintro ⟨-, he⟩
      exact ⟨⟨setup.rule⟩, congrArg Except.ok (ofSetup?_eq_some_iff.2 ⟨he, rfl⟩), hfrom⟩

/-- **Registering accepts just the settings that meet all requirements**, and else fails with the fault of the first that is
not met. The host is asked once, for the section of the rule. Styles that cannot be listed or put in a set and defaults that
cannot be asked are faults of nature, all others are faults of the settings; the one for messages names just the keys that
have none. A section that switches the rule off is checked like any other, and then no checker is registered; else the
checker has the settings of the section and the words of the registry. Logged are a registry that is missing, the
warnings of the section, and last that the rule is switched off. -/
theorem register_outcome (source : Registry.Source) (fields : Fields) :
    let registry := source.registry
    let outcome := (register source).proceed fields
    (register source).rule = "Performance/FastBlockGiven" ∧
    ∃ declared chosen, registry.AsksStyles "W9501" declared ∧ Config.Chooses registry "W9501" fields chosen ∧
      let required := Setup.requirements fields registry declared chosen
      (∃ styles : List Fault.Category, styles <+: [.nature, .nature, .settings] ∧
        required.map (fun q => q.fault.category) = styles ++ List.replicate 5 .settings ++ [.nature]) ∧
      (Fault.noMessages "W9501" ((registry.lacking "W9501").map Prod.fst)).message? =
        some ("Rule registry entry W9501 lacks messages for: " ++
          ", ".intercalate ((registry.lacking "W9501").map Prod.snd) ++ ".") ∧
      (∀ f, outcome.result = .error f ↔ FirstUnmet required f) ∧
      (outcome.result = .ok none ↔ AllMet required ∧ fields.lookup "Enabled" = some (.bool false)) ∧
      ((∃ c : Checker, outcome.result = .ok (some c) ∧ c.rule.SetUpFrom fields registry chosen) ↔
        AllMet required ∧ fields.lookup "Enabled" ≠ some (.bool false)) ∧
      ∃ warned, Setup.Warns fields declared warned ∧ (∀ event ∈ warned, event.level = .warning) ∧
        outcome.log = source.notices ++ warned ++
          match outcome.result with
          | .ok none => [.disabled]
          | _ => [] := by
  intro registry outcome
  obtain ⟨declared, hd⟩ := registry.exists_asksStyles "W9501"
  obtain ⟨warned, hwarned, hlog⟩ := Setup.build_log fields hd
  refine ⟨rfl, declared, Setup.styleValue fields registry, hd, Setup.chooses_styleValue fields registry,
    Setup.requirements_category hd fields _, ?_, fun f => checks_register hd f, register_eq_none_iff hd,
    exists_registered_iff hd, warned, hwarned, hwarned.level, ?_⟩
  · rw [← Registry.lacking_keys]
    rfl
  rw [← hlog, show outcome.result = _ from register_result source fields, show outcome = _ from register_eq source fields]

/-- Where the registry declares one style only and the section has an unknown key and a switch that is neither on nor off,
the declared styles are reported, before any key is looked at. -/
theorem register_outcome_styles_first :
    let source : Registry.Source :=
      .loaded (.map [(ruleId, .map [("supported_styles", .list [.str "check_if_block_given"])])])
    let fields : Fields := [("Depth", .int 2), ("Enabled", .int 1)]
    let outcome := (register source).proceed fields
    outcome.result = .error (.otherStyles (.list [.str "check_if_block_given"])) ∧ outcome.log = [] ∧
      ¬ (Config.switch fields "Enabled").met := by
  intro source fields outcome
  let items : List Value := [.str "check_if_block_given"]
  have hgives : source.registry.Gives "W9501" "supported_styles" (.list items) :=
    ⟨_, .underCode rfl, rfl⟩
  obtain ⟨-, declared, chosen, hdeclared, -, -, -, hfault, -, -, warned, hwarned, -, hlog⟩ :=
    register_outcome source fields
  have hother : ¬ ∀ v, v ∈ items ↔ ∃ s : Style, s.NamedBy v := fun h => by
    have hp := (h (.str "check_if_defined_yield")).2 ⟨_, _, .probe, rfl⟩
    simp [items] at hp
  have hfirst : FirstUnmet declared (.otherStyles (.list items)) := by
    cases hdeclared with
    | undeclared hno => exact absurd hgives (hno _)
    | unlisted hg hno =>
      obtain rfl := hgives.unique hg
      exact absurd (.elements items) (hno items)
    | listed hg hi =>
      obtain rfl := hgives.unique hg
      cases hi
      refine ⟨[_, _], _, [], rfl, ?_, hother, rfl⟩
      refine allMet_cons.2 ⟨⟨items, .elements items⟩, allMet_cons.2 ⟨fun v hv hc => ?_, allMet_nil⟩⟩
      cases List.mem_singleton.1 hv
      cases hc
  have hresult : outcome.result = .error (.otherStyles (.list items)) :=
    (hfault _).2 (firstUnmet_append.2 (.inl hfirst))
  refine ⟨hresult, ?_, fun h => ?_⟩
  · rw [show outcome.log = _ from hlog, show ((register source).proceed fields).result = _ from hresult]
    cases hwarned with
    | unread => rfl
    | read hall => exact absurd hall (exists_firstUnmet_iff.1 ⟨_, hfirst⟩)
  · obtain ⟨b, hb⟩ := h (.int 1) rfl
    cases hb

end Checker

end BlockPresence
