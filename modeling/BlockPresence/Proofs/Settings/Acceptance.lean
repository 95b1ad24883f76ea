import BlockPresence.Proofs.Settings.Given

/-!
# Which settings are accepted

What the sections and registries that are accepted look like, in the order in which it is checked: the styles that a
registry declares (`Registry.checks_checkStyles`), the switches and the style of a section (`Config.checks_load`), the
messages of a registry (`Registry.checks_templates`) and its instructions (`Registry.checks_manualInstructions`). The names
of the styles and the keys of the messages are written out (`Style.Called`, `Switch.keys`).
-/

namespace BlockPresence

open Requirement

namespace Style

/-! ## Styles that are named -/

/-- The name of a style. -/
inductive Called : Style → String → Prop
  | call : Called ⟨.call⟩ "check_if_block_given"
  | probe : Called ⟨.probe⟩ "check_if_defined_yield"
  | truthiness : Called ⟨.truthiness⟩ "check_if_block_truthy"

theorem called_iff {s : Style} {name : String} : s.Called name ↔ s.name = name := by
  constructor
  · rintro (_ | _ | _) <;> rfl
  · rintro rfl
    obtain ⟨i⟩ := s
    cases i
    · exact .call
    · exact .probe
    · exact .truthiness

theorem mem_all (s : Style) : s ∈ all := by
  obtain ⟨i⟩ := s
  cases i <;> decide

theorem name_inj {s s' : Style} (h : s.name = s'.name) : s = s' := by
  obtain ⟨i⟩ := s
  obtain ⟨j⟩ := s'
  cases i <;> cases j <;> first | rfl | exact absurd h (by decide)

theorem name_of_ofName? {name : String} {s : Style} (h : ofName? name = some s) : name = s.name := by
  have hs := List.find?_some h
  exact (eq_of_beq hs).symm

theorem ofName?_eq_some_iff {name : String} {s : Style} : ofName? name = some s ↔ name = s.name := by
  refine ⟨name_of_ofName?, ?_⟩
  rintro rfl
  obtain ⟨s', hs'⟩ : ∃ s', ofName? s.name = some s' :=
    Option.isSome_iff_exists.1 (List.find?_isSome.2 ⟨s, s.mem_all, beq_self_eq_true _⟩)
  rw [hs', name_inj (name_of_ofName? hs')]

/-- A value is the name of a style. -/
def NamedBy (s : Style) (v : Value) : Prop := ∃ name, s.Called name ∧ v = .str name

theorem namedBy_iff {s : Style} {v : Value} : s.NamedBy v ↔ v = .str s.name := by
  constructor
  · rintro ⟨name, hn, rfl⟩
    rw [called_iff.1 hn]
  · rintro rfl
    exact ⟨_, called_iff.2 rfl, rfl⟩

/-- A value is asked to name a style. -/
def named (v : Value) : Requirement where
  met := ∃ s : Style, s.NamedBy v
  fault := .unknownStyle v

theorem ofValue_eq_ok_iff {v : Value} {s : Style} : ofValue v = .ok s ↔ s.NamedBy v := by
  rw [namedBy_iff]
  cases v with
  | str name =>
    rw [ofValue, Value.str.injEq, ← ofName?_eq_some_iff]
    cases ofName? name <;> simp
  | _ => simp [ofValue]

theorem checks_ofValue (v : Value) : Checks [named v] (ofValue v) := by
  refine .single (exists_congr fun s => ofValue_eq_ok_iff) fun f hf => ?_
  unfold ofValue at hf
  split at hf
  · cases hn : ofName? _ with
    | none => rw [hn] at hf; cases hf; rfl
    | some s => rw [hn] at hf; cases hf
  · cases hf; rfl

/-! ## Styles that are declared -/

/-- What is asked of a list of styles: all its elements are members of a set, and they are all known styles and nothing
else. -/
def allNamed (items : List Value) : List Requirement :=
  [⟨∀ v ∈ items, ¬ v.Compound, .compoundStyle (.list items)⟩,
   ⟨∀ v, v ∈ items ↔ ∃ s : Style, s.NamedBy v, .otherStyles (.list items)⟩]

theorem all_named_iff {items : List Value} :
    ((items.all fun v => all.any fun s => v.isText s.name) && all.all fun s => items.any (Value.isText s.name)) = true ↔
      ∀ v, v ∈ items ↔ ∃ s : Style, s.NamedBy v := by
  simp only [namedBy_iff]
  rw [Bool.and_eq_true, List.all_eq_true, List.all_eq_true]
  constructor
  · rintro ⟨hbeside, hmissing⟩ v
    constructor
    · intro hv
      obtain ⟨s, -, hs⟩ := List.any_eq_true.1 (hbeside v hv)
      exact ⟨s, Value.isText_iff.1 hs⟩
    · rintro ⟨s, rfl⟩
      obtain ⟨v, hv, hs⟩ := List.any_eq_true.1 (hmissing s s.mem_all)
      exact Value.isText_iff.1 hs ▸ hv
  · intro h
    refine ⟨fun v hv => ?_, fun s _ => ?_⟩
    · obtain ⟨s, hs⟩ := (h v).1 hv
      exact List.any_eq_true.2 ⟨s, s.mem_all, Value.isText_iff.2 hs⟩
    · exact List.any_eq_true.2 ⟨.str s.name, (h _).2 ⟨s, rfl⟩, Value.isText_iff.2 rfl⟩

theorem checks_checkDeclared (items : List Value) : Checks (allNamed items) (checkDeclared (.list items)) := by
  have hatoms : items.all Value.isAtom = true ↔ ∀ v ∈ items, ¬ v.Compound :=
    List.all_eq_true.trans (forall₂_congr fun _ _ => Value.isAtom_iff)
  intro f
  simp only [allNamed, firstUnmet_cons, not_firstUnmet_nil, checkDeclared, ← hatoms, ← all_named_iff]
  generalize items.all Value.isAtom = atoms
  generalize ((items.all fun v => all.any fun s => v.isText s.name) &&
    all.all fun s => items.any (Value.isText s.name)) = named
  cases atoms <;> cases named <;> simp [eq_comm]

end Style

namespace Registry

/-- A value is asked to be something that can be listed. -/
def listed (v : Value) : Requirement where
  met := ∃ items, v.Lists items
  fault := .unlistedStyles v

/-- What is asked of the styles that the entry of a rule declares: nothing if it does not say anything about them, else that
they can be listed, and then that they are just the known ones. -/
inductive AsksStyles (registry : Registry) (code : String) : List Requirement → Prop
  | undeclared : (∀ v, ¬ registry.Gives code "supported_styles" v) → AsksStyles registry code []
  | unlisted {v : Value} : registry.Gives code "supported_styles" v → (∀ items, ¬ v.Lists items) →
      AsksStyles registry code [listed v]
  | listed {v : Value} {items : List Value} : registry.Gives code "supported_styles" v → v.Lists items →
      AsksStyles registry code (listed v :: Style.allNamed items)

variable {registry : Registry} {code : String} {declared : List Requirement}

theorem exists_asksStyles (registry : Registry) (code : String) : ∃ declared, registry.AsksStyles code declared := by
  cases hf : registry.field? code "supported_styles" with
  | none => exact ⟨_, .undeclared (field?_eq_none_iff.1 hf)⟩
  | some v =>
    have hg := field?_eq_some_iff.1 hf
    by_cases hv : ∃ items, v.Lists items
    · obtain ⟨items, hi⟩ := hv
      exact ⟨_, .listed hg hi⟩
    · exact ⟨_, .unlisted hg (not_exists.1 hv)⟩

/-- Checks the styles that the entry of a rule declares. -/
def checkStyles (registry : Registry) (code : String) : Except Fault Unit :=
  (registry.supportedStyles code).bind fun declared? =>
    declared?.elim (.ok ()) fun items => Style.checkDeclared (.list items)

theorem checks_checkStyles (h : registry.AsksStyles code declared) : Checks declared (registry.checkStyles code) := by
  unfold checkStyles supportedStyles
  cases h with
  | undeclared hno =>
    rw [field?_eq_none_iff.2 hno]
    exact .of_allMet allMet_nil ()
  | @unlisted v hg hno =>
    have hi : v.items? = none := Option.eq_none_iff_forall_ne_some.2 fun items h => hno items (Value.items?_eq_some_iff.1 h)
    rw [field?_eq_some_iff.2 hg]
    dsimp only
    rw [hi]
    exact .cons_of_not_met (r := listed v) fun ⟨items, hi⟩ => hno items hi
  | @listed v items hg hi =>
    rw [field?_eq_some_iff.2 hg]
    dsimp only
    rw [Value.items?_eq_some_iff.2 hi]
    exact .cons_of_met ⟨items, hi⟩ (Style.checks_checkDeclared items)

end Registry

/-! ## Sections -/

namespace Config

variable {fields : Fields} {key : String} {b : Bool}

/-- A switch is asked to be left out, on or off. -/
def switch (fields : Fields) (key : String) : Requirement where
  met := ∀ v, fields.lookup key = some v → ∃ b, v = .bool b
  fault := .notBoolean key ((fields.lookup key).getD .null)

theorem readSwitch_eq_ok_iff :
    readSwitch fields key = .ok b ↔ (∀ v, fields.lookup key = some v → ∃ b, v = .bool b) ∧
      (b = true ↔ fields.lookup key ≠ some (.bool false)) := by
  unfold readSwitch
  cases hv : fields.lookup key with
  | none => cases b <;> simp
  | some v => cases v with
    | bool b' => cases b <;> cases b' <;> simp
    | _ => simp

theorem checks_readSwitch (fields : Fields) (key : String) : Checks [switch fields key] (readSwitch fields key) := by
  refine .single ⟨fun ⟨b, hb⟩ => (readSwitch_eq_ok_iff.1 hb).1, fun h => ?_⟩ fun f hf => ?_
  · by_cases hoff : fields.lookup key = some (.bool false)
    · exact ⟨false, readSwitch_eq_ok_iff.2 ⟨h, by simp [hoff]⟩⟩
    · exact ⟨true, readSwitch_eq_ok_iff.2 ⟨h, by simp [hoff]⟩⟩
  · unfold readSwitch at hf
    unfold switch
    cases hv : fields.lookup key with
    | none => rw [hv] at hf; cases hf
    | some v =>
      rw [hv] at hf
      cases v with
      | bool b' => cases hf
      | _ => cases hf; rfl

/-- The value that is to name the style: that of the section, else the text of the default style that the registry gives,
and else `check_if_block_truthy`. -/
inductive Chooses (registry : Registry) (code : String) (fields : Fields) : Value → Prop
  | enforced {v : Value} : fields.lookup "EnforcedStyle" = some v → Chooses registry code fields v
  | default {text : String} : fields.lookup "EnforcedStyle" = none →
      registry.GivesText code "default_style" "check_if_block_truthy" text → Chooses registry code fields (.str text)

theorem chooses (registry : Registry) (code : String) (fields : Fields) : Chooses registry code fields
    ((fields.lookup "EnforcedStyle").getD (.str ((registry.defaultStyle? code).getD Style.fallback.name))) := by
  cases he : fields.lookup "EnforcedStyle" with
  | some v => exact .enforced he
  | none => exact .default he (registry.givesText code "default_style" _)

/-- What is asked of a section in which `chosen` is to name the style. -/
def requirements (fields : Fields) (chosen : Value) : List Requirement :=
  [switch fields "Enabled", switch fields "AutoCorrect", Style.named chosen]

/-- Reading a section warns of the keys that mean nothing, whatever comes of its values. -/
theorem load_eq (fields : Fields) (fallback : Value) : load fields fallback =
    ⟨(unknownKeys fields).map .unknownKey,
     (readSwitch fields "Enabled").bind fun enabled =>
       (readSwitch fields "AutoCorrect").bind fun autocorrect =>
         (Style.ofValue ((fields.lookup "EnforcedStyle").getD fallback)).map fun style =>
           { fields, enabled, autocorrect, style }⟩ := by
  unfold load
  cases readSwitch fields "Enabled" with
  | error f => exact congrArg (Traced.mk · _) (List.append_nil _)
  | ok enabled => cases readSwitch fields "AutoCorrect" with
    | error f => exact congrArg (Traced.mk · _) (List.append_nil _)
    | ok autocorrect => cases Style.ofValue ((fields.lookup "EnforcedStyle").getD fallback) with
      | error f => exact congrArg (Traced.mk · _) (List.append_nil _)
      | ok style => exact congrArg (Traced.mk · _) (List.append_nil _)

theorem checks_load (fields : Fields) (fallback : Value) :
    Checks (requirements fields ((fields.lookup "EnforcedStyle").getD fallback)) (load fields fallback).result := by
  rw [load_eq]
  refine (checks_readSwitch fields "Enabled").bind fun enabled _ => ?_
  refine (checks_readSwitch fields "AutoCorrect").bind fun autocorrect _ => ?_
  exact (Style.checks_ofValue _).map

/-- The settings are those of a section in which `chosen` names the style. -/
structure Reads (config : Config) (fields : Fields) (chosen : Value) : Prop where
  kept : config.fields = fields
  enabled : config.enabled = true ↔ fields.lookup "Enabled" ≠ some (.bool false)
  autocorrect : config.autocorrect = true ↔ fields.lookup "AutoCorrect" ≠ some (.bool false)
  style : config.style.NamedBy chosen

theorem reads_of_load {fallback : Value} {config : Config} (h : (load fields fallback).result = .ok config) :
    config.Reads fields ((fields.lookup "EnforcedStyle").getD fallback) := by
  rw [load_eq] at h
  cases he : readSwitch fields "Enabled" with
  | error f => rw [he] at h; cases h
  | ok enabled => cases ha : readSwitch fields "AutoCorrect" with
    | error f => rw [he, ha] at h; cases h
    | ok autocorrect => cases hs : Style.ofValue ((fields.lookup "EnforcedStyle").getD fallback) with
      | error f => rw [he, ha, hs] at h; cases h
      | ok style =>
        rw [he, ha, hs] at h
        cases h
        exact ⟨rfl, (readSwitch_eq_ok_iff.1 he).2, (readSwitch_eq_ok_iff.1 ha).2, Style.ofValue_eq_ok_iff.1 hs⟩

/-- The keys that are warned of are all that mean nothing, in the order of their code points. -/
theorem unknownKeys_sorted (fields : Fields) :
    (unknownKeys fields).Pairwise (· ≤ ·) ∧
      (unknownKeys fields).Perm ((fields.map Prod.fst).filter fun key =>
        key ∉ ["AutoCorrect", "Description", "Enabled", "EnforcedStyle", "Safe", "SafeAutoCorrect", "SupportedStyles",
          "VersionAdded", "VersionChanged"]) := by
  unfold unknownKeys
  refine ⟨?_, List.mergeSort_perm _ _⟩
  refine (List.pairwise_mergeSort ?_ ?_ _).imp fun h => of_decide_eq_true h
  · intro a b c hab hbc
    exact decide_eq_true (String.le_trans (of_decide_eq_true hab) (of_decide_eq_true hbc))
  · intro a b
    simpa using String.le_total a b

end Config

/-! ## Messages -/

/-- The keys of the messages for all switches, in the order in which those without a message are named. -/
def Switch.keys : List (Switch × String) :=
  [(⟨.call, .probe⟩, "block_given_call->defined_yield_probe"),
   (⟨.call, .truthiness⟩, "block_given_call->block_truthy_ref"),
   (⟨.probe, .call⟩, "defined_yield_probe->block_given_call"),
   (⟨.probe, .truthiness⟩, "defined_yield_probe->block_truthy_ref"),
   (⟨.truthiness, .call⟩, "block_truthy_ref->block_given_call"),
   (⟨.truthiness, .probe⟩, "block_truthy_ref->defined_yield_probe")]

theorem Switch.keys_eq : keys = all.map fun s => (s, s.key) := by decide

theorem Switch.key_of_mem_keys {s : Switch × String} (hs : s ∈ keys) : s.1.key = s.2 := by
  rw [keys_eq] at hs
  obtain ⟨s, -, rfl⟩ := List.mem_map.1 hs
  rfl

namespace Registry

variable {registry : Registry} {code key : String} {s : Switch} {v : Value}

/-- The entry of a rule has the message `v` under a key. -/
def Message (registry : Registry) (code key : String) (v : Value) : Prop :=
  ∃ messages, registry.Gives code "messages" (.map messages) ∧ messages.lookup key = some v ∧ ¬ v.Falsy

/-- The message that the entry of a rule has under a key. -/
def message? (registry : Registry) (code key : String) : Option Value :=
  (registry.field? code "messages").bind fun messages => (messages.field? key).filter Value.isTruthy

theorem message?_eq_some_iff : registry.message? code key = some v ↔ registry.Message code key v := by
  simp only [message?, Option.bind_eq_some_iff, Option.filter_eq_some_iff, Value.isTruthy_iff, field?_eq_some_iff]
  constructor
  · rintro ⟨w, hw, hv, ht⟩
    cases w with
    | map messages => exact ⟨messages, hw, hv, ht⟩
    | _ => cases hv
  · rintro ⟨messages, hw, hv, ht⟩
    exact ⟨.map messages, hw, hv, ht⟩

theorem isSome_message?_iff : (registry.message? code key).isSome = true ↔ ∃ v, registry.Message code key v := by
  rw [Option.isSome_iff_exists]
  exact exists_congr fun v => message?_eq_some_iff

instance : Decidable (∃ v, registry.Message code key v) := decidable_of_iff _ isSome_message?_iff

/-- The switches that the entry of a rule has no message for, with their keys. -/
def lacking (registry : Registry) (code : String) : List (Switch × String) :=
  Switch.keys.filter fun s => ¬ ∃ v, registry.Message code s.2 v

/-- What is asked of the messages of a rule: there is an entry, and it has a message for every switch. -/
def messageRequirements (registry : Registry) (code : String) : List Requirement :=
  [⟨∃ entry, registry.Finds code entry, .noEntry code⟩,
   ⟨∀ s ∈ Switch.keys, ∃ v, registry.Message code s.2 v, .noMessages code ((registry.lacking code).map Prod.fst)⟩]

theorem lacking_keys : ((registry.lacking code).map Prod.fst).map Switch.key = (registry.lacking code).map Prod.snd := by
  rw [List.map_map]
  exact List.map_congr_left fun s hs => Switch.key_of_mem_keys (List.mem_filter.1 hs).1

theorem template?_eq {entry : Fields} (he : registry.entry? code = some entry) (s : Switch) :
    template? ((entry.lookup "messages").getD .null) s = (registry.message? code s.key).map fun v => ⟨v.toText⟩ := by
  rw [message?, field?, he, Option.bind_some]
  cases entry.lookup "messages" <;> rfl

theorem lacking_eq {entry : Fields} (he : registry.entry? code = some entry) : (registry.lacking code).map Prod.fst =
    Switch.all.filter fun s => (template? ((entry.lookup "messages").getD .null) s).isNone := by
  rw [lacking, Switch.keys_eq, List.filter_map, List.map_map]
  refine (List.map_id _).trans (List.filter_congr fun s _ => ?_)
  rw [template?_eq he, Option.isNone_map, ← Option.not_isSome, Function.comp_apply, decide_not]
  simp only [← isSome_message?_iff, Bool.decide_eq_true]

theorem checks_templates (registry : Registry) (code : String) :
    Checks (registry.messageRequirements code) (registry.templates code) := by
  unfold messageRequirements templates
  simp only [← entry?_eq_some_iff]
  cases he : registry.entry? code with
  | none => exact .cons_of_not_met (by simp)
  | some entry =>
    refine .cons_of_met ⟨entry, rfl⟩ ?_
    dsimp only
    have hall : (registry.lacking code).map Prod.fst = [] ↔ ∀ s ∈ Switch.keys, ∃ v, registry.Message code s.2 v := by
      simp [lacking, List.filter_eq_nil_iff]
    rw [← lacking_eq he]
    cases hl : (registry.lacking code).map Prod.fst with
    | nil => exact .of_allMet (allMet_cons.2 ⟨hall.1 hl, allMet_nil⟩) _
    | cons s rest =>
      exact .cons_of_not_met fun h => by rw [hall.2 h] at hl; cases hl

/-! ## Instructions -/

theorem occursIn_iff {text : List Char} : ∀ {s : List Char}, occursIn text s = true ↔ text <:+: s
  | [] => by simp [occursIn]
  | c :: rest => by simp [occursIn, List.infix_cons_iff, occursIn_iff]

/-- Defaults that can be asked for instructions: not given, a mapping, or else a text or a list that does not contain the
key. -/
inductive Askable : Value → Prop
  | notGiven {v : Value} : v.Falsy → Askable v
  | map (fields : Fields) : Askable (.map fields)
  | str {s : String} : ¬ "manual_instructions".toList <:+: s.toList → Askable (.str s)
  | list {items : List Value} : .str "manual_instructions" ∉ items → Askable (.list items)

/-- What is asked of the instructions of a rule: they are in its entry, or else the defaults can be asked for them. -/
def instructionRequirements (registry : Registry) (code : String) : List Requirement :=
  [⟨(∀ v, ¬ registry.Gives code "manual_instructions" v) →
      ∀ v, registry.entries.lookup "blockgiven._default" = some v → Askable v,
    .unreadableDefaults ((registry.entries.lookup "blockgiven._default").getD .null)⟩]

theorem checks_defaultInstructions (v : Value) :
    Checks [⟨Askable v, .unreadableDefaults v⟩] (defaultInstructions v) := by
  have hmet : Askable v → ∀ text, Checks [⟨Askable v, .unreadableDefaults v⟩] (.ok text : Except Fault String) :=
    fun h => .of_allMet (allMet_cons.2 ⟨h, allMet_nil⟩)
  unfold defaultInstructions
  by_cases ht : v.isTruthy = true
  · simp only [ht, Bool.not_true, Bool.false_eq_true, if_false]
    cases v with
    | map fields => exact hmet (.map fields) _
    | str s =>
      dsimp only
      by_cases hs : "manual_instructions".toList <:+: s.toList
      · rw [if_pos (occursIn_iff.2 hs)]
        refine .cons_of_not_met fun h => ?_
        cases h with
        | notGiven h => exact Value.isTruthy_iff.1 ht h
        | str h => exact h hs
      · rw [if_neg fun h => hs (occursIn_iff.1 h)]
        exact hmet (.str hs) _
    | list items =>
      have hany : items.any (Value.isText "manual_instructions") = true ↔ .str "manual_instructions" ∈ items := by
        simp [List.any_eq_true, Value.isText_iff]
      dsimp only
      by_cases hi : .str "manual_instructions" ∈ items
      · rw [if_pos (hany.2 hi)]
        refine .cons_of_not_met fun h => ?_
        cases h with
        | notGiven h => exact Value.isTruthy_iff.1 ht h
        | list h => exact h hi
      · rw [if_neg fun h => hi (hany.1 h)]
        exact hmet (.list hi) _
    | _ =>
      refine .cons_of_not_met fun h => ?_
      cases h with
      | notGiven h => exact Value.isTruthy_iff.1 ht h
  · simp only [ht, Bool.not_false, if_true]
    exact hmet (.notGiven (Value.isTruthy_eq_false_iff.1 (Bool.eq_false_iff.2 ht))) _

theorem checks_manualInstructions (registry : Registry) (code : String) :
    Checks (registry.instructionRequirements code) (registry.manualInstructions code) := by
  unfold instructionRequirements manualInstructions
  rw [← field?_eq_none_iff, show "blockgiven._default" = defaultsKey from rfl]
  cases registry.field? code "manual_instructions" with
  | some v => exact .of_allMet (by simp [AllMet]) _
  | none => cases registry.entries.lookup defaultsKey with
    | none => exact .of_allMet (by simp [AllMet]) _
    | some v => simpa using checks_defaultInstructions v

/-- The instructions that a registry has for a rule: those of its entry, else those of the defaults, and else the last
ones. -/
inductive Instructs (registry : Registry) (code : String) : String → Prop
  | own {v : Value} {text : String} : registry.Gives code "manual_instructions" v → v.Written text →
      Instructs registry code text
  | shared {fields : Fields} {v : Value} {text : String} : (∀ v, ¬ registry.Gives code "manual_instructions" v) →
      registry.entries.lookup "blockgiven._default" = some (.map fields) →
      fields.lookup "manual_instructions" = some v → v.Written text → Instructs registry code text
  | last : (∀ v, ¬ registry.Gives code "manual_instructions" v) →
      (∀ fields, registry.entries.lookup "blockgiven._default" = some (.map fields) →
        fields.lookup "manual_instructions" = none) →
      Instructs registry code "Fix the violation at the reported location."

theorem defaultInstructions_eq_ok {text : String} (h : defaultInstructions v = .ok text) :
    (∃ fields w, v = .map fields ∧ fields.lookup "manual_instructions" = some w ∧ w.toText = text) ∨
      lastInstructions = text ∧ ∀ fields, v = .map fields → fields.lookup "manual_instructions" = none := by
  unfold defaultInstructions at h
  by_cases ht : v.isTruthy = true
  · simp only [ht, Bool.not_true, Bool.false_eq_true, if_false] at h
    cases v with
    | map fields =>
      dsimp only at h
      cases hl : fields.lookup "manual_instructions" with
      | none =>
        rw [hl] at h
        exact .inr ⟨Except.ok.inj h, fun _ he => by cases he; exact hl⟩
      | some w =>
        rw [hl] at h
        exact .inl ⟨fields, w, rfl, hl, Except.ok.inj h⟩
    | str s =>
      dsimp only at h
      split at h
      · cases h
      · exact .inr ⟨Except.ok.inj h, fun _ he => by cases he⟩
    | list items =>
      dsimp only at h
      split at h
      · cases h
      · exact .inr ⟨Except.ok.inj h, fun _ he => by cases he⟩
    | _ => cases h
  · simp only [ht, Bool.not_false, if_true] at h
    refine .inr ⟨Except.ok.inj h, ?_⟩
    rintro fields rfl
    -- of the mappings only the empty one counts as not given
    cases Value.isTruthy_eq_false_iff.1 (Bool.eq_false_iff.2 ht)
    rfl

theorem instructs_of_manualInstructions {text : String} (h : registry.manualInstructions code = .ok text) :
    registry.Instructs code text := by
  unfold manualInstructions at h
  cases hf : registry.field? code "manual_instructions" with
  | some v =>
    rw [hf] at h
    exact .own (field?_eq_some_iff.1 hf) (Value.written_iff.2 (Except.ok.inj h))
  | none =>
    rw [hf] at h
    have hno := field?_eq_none_iff.1 hf
    cases hd : registry.entries.lookup defaultsKey with
    | none =>
      rw [hd] at h
      cases h
      exact .last hno fun fields hl => by rw [show "blockgiven._default" = defaultsKey from rfl, hd] at hl; cases hl
    | some v =>
      rw [hd] at h
      rcases defaultInstructions_eq_ok h with ⟨fields, w, rfl, hl, hw⟩ | ⟨rfl, hl⟩
      · exact .shared hno hd hl (Value.written_iff.2 hw)
      · exact .last hno fun fields he => hl fields (Option.some.inj (hd.symm.trans he))

end Registry

end BlockPresence
