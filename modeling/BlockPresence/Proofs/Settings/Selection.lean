import BlockPresence.Proofs.Settings.Acceptance

/-!
# The entry of a rule

Every look-up for a rule goes through one entry, which is found by the code of the rule (`Registry.ofCode?`) or else by its
symbol (`Registry.ofSymbol?`). So of all entries of a registry only those matter that can be found in one of these ways
(`Registry.selects`): what is added, removed, changed or moved besides them makes no difference, but for the instructions
that the defaults hold. And a rule is found by its symbol as by its code, where the symbol is its own
(`Registry.lookups_of_selected`).
-/

namespace BlockPresence

namespace Registry

variable {r s : Registry} {code code' symbol : String} {entry : Fields}

/-! ## Finding an entry -/

/-- No key occurs twice. -/
def DistinctKeys (r : Registry) : Prop := (r.entries.map Prod.fst).Nodup

theorem mem_iff_lookup {fields : Fields} (hk : (fields.map Prod.fst).Nodup) {key : String} {v : Value} :
    (key, v) ∈ fields ↔ fields.lookup key = some v := by
  induction fields with
  | nil => simp
  | cons f fields ih =>
    obtain ⟨k, w⟩ := f
    rw [List.map_cons, List.nodup_cons] at hk
    rw [List.mem_cons, List.lookup_cons, ih hk.2]
    by_cases he : key = k
    · subst he
      have hno : fields.lookup key ≠ some v := fun h =>
        hk.1 (List.mem_map.2 ⟨(key, v), (ih hk.2).2 h, rfl⟩)
      simp [hno, eq_comm]
    · simp [he, beq_false_of_ne he]

theorem ofCode?_eq_some_iff (hk : r.DistinctKeys) :
    r.ofCode? code = some entry ↔ (entryMark ++ code, .map entry) ∈ r.entries := by
  rw [ofCode?, Option.bind_eq_some_iff, mem_iff_lookup hk]
  simp [Value.fields?_eq_some_iff]

theorem isRuleKey_code (hc : code ≠ "_default") : isRuleKey (entryMark ++ code) = true := by
  have hne : entryMark ++ code ≠ defaultsKey := by
    unfold defaultsKey
    simpa using hc
  simp [isRuleKey, hne]

/-! ## The entries that matter -/

/-- Whether a field of a registry is an entry that can be found for a rule: that of a rule, and under this code or with it
as its symbol. -/
def selects (code : String) (f : String × Value) : Bool :=
  f.2.fields?.any fun entry =>
    isRuleKey f.1 && (f.1 == entryMark ++ code || (entry.lookup "symbol").any (Value.isText code))

theorem selects_code (hc : code ≠ "_default") : selects code (entryMark ++ code, .map entry) = true := by
  simp [selects, Value.fields?, isRuleKey_code hc]

theorem selects_of_withSymbol? {f : String × Value} (h : withSymbol? code f = some entry) : selects code f = true := by
  obtain ⟨hv, hk, hs⟩ := withSymbol?_eq_some_iff.1 h
  simp [selects, hv, Value.fields?, hk, hs, Value.isText]

/-- The registry without what cannot be found for a rule. -/
def restrict (r : Registry) (code : String) : Registry := ⟨r.entries.filter (selects code)⟩

theorem DistinctKeys.restrict (hk : r.DistinctKeys) (code : String) : (r.restrict code).DistinctKeys :=
  (List.filter_sublist.map Prod.fst).nodup hk

theorem ofCode?_restrict (hk : r.DistinctKeys) (hc : code ≠ "_default") : (r.restrict code).ofCode? code = r.ofCode? code := by
  refine Option.ext fun entry => ?_
  rw [ofCode?_eq_some_iff (hk.restrict code), ofCode?_eq_some_iff hk, restrict, List.mem_filter,
    and_iff_left (selects_code hc)]

theorem ofSymbol?_restrict : (r.restrict code).ofSymbol? code = r.ofSymbol? code := by
  -- what is left out has no such symbol, and the scan passes it by
  unfold restrict ofSymbol?
  induction r.entries with
  | nil => rfl
  | cons f fields ih =>
    rw [List.filter_cons, List.findSome?_cons]
    cases hf : withSymbol? code f with
    | some entry => simp [selects_of_withSymbol? hf, hf]
    | none => split <;> simp [hf, ih]

/-- **The entry that is found** is among those that matter. -/
theorem entry?_restrict (hk : r.DistinctKeys) (hc : code ≠ "_default") : entry? (r.restrict code) code = r.entry? code := by
  rw [entry?_eq, entry?_eq, ofCode?_restrict hk hc, ofSymbol?_restrict]

/-! ## Look-ups -/

/-- Two registries answer alike what a rule is, each asked for the rule by its own name for it. -/
structure Agree (r s : Registry) (code code' : String) : Prop where
  entry : r.entry? code = s.entry? code'
  defaultStyle : r.defaultStyle? code = s.defaultStyle? code'
  supportedStyles : r.supportedStyles code = s.supportedStyles code'
  shortDescription : r.shortDescription? code = s.shortDescription? code'

theorem field?_congr (h : r.entry? code = s.entry? code') (key : String) : r.field? code key = s.field? code' key := by
  rw [field?, h, field?]

theorem agree_of_eq (h : r.entry? code = s.entry? code') : r.Agree s code code' where
  entry := h
  defaultStyle := by simp only [defaultStyle?, givenText?, field?_congr h]
  supportedStyles := by simp only [supportedStyles, field?_congr h]
  shortDescription := by simp only [shortDescription?, givenText?, field?_congr h]

/-- The message templates of an entry, or else the switches that it has none for. -/
def templatesOf (entry : Fields) : Except (List Switch) Templates :=
  let messages := (entry.lookup "messages").getD .null
  match Switch.all.filter fun s => (template? messages s).isNone with
  | [] => .ok ⟨Switch.all.filterMap fun s => (template? messages s).map fun t => (s, t)⟩
  | missing => .error missing

theorem templates_eq (r : Registry) (code : String) : r.templates code =
    (r.entry? code).elim (.error (.noEntry code)) fun entry => (templatesOf entry).mapError (.noMessages code) := by
  rw [templates]
  cases r.entry? code with
  | none => rfl
  | some entry =>
    simp only [templatesOf, Option.elim_some]
    cases Switch.all.filter fun s => (template? ((entry.lookup "messages").getD .null) s).isNone with
    | nil => rfl
    | cons s missing => rfl

/-- The instructions are those of the entry, or else what the defaults say. -/
theorem manualInstructions_congr (h : r.entry? code = s.entry? code')
    (hd : r.field? code "manual_instructions" = none → r.entries.lookup defaultsKey = s.entries.lookup defaultsKey) :
    r.manualInstructions code = s.manualInstructions code' := by
  rw [manualInstructions, manualInstructions, ← field?_congr h]
  cases hf : r.field? code "manual_instructions" with
  | some v => rfl
  | none => rw [hd hf]

/-- A rule that nothing stands under by its symbol, and whose symbol no other rule has, is found by the symbol. -/
theorem entry?_symbol (hk : r.DistinctKeys) (hc : code ≠ "_default") (he : (entryMark ++ code, .map entry) ∈ r.entries)
    (hs : entry.lookup "symbol" = some (.str symbol))
    (hown : ∀ key e, (key, .map e) ∈ r.entries → isRuleKey key = true → key ≠ entryMark ++ code →
      e.lookup "symbol" ≠ some (.str symbol))
    (hfree : ∀ e, (entryMark ++ symbol, .map e) ∉ r.entries) : r.entry? symbol = some entry := by
  have hcode : r.ofCode? symbol = none := by
    rw [Option.eq_none_iff_forall_ne_some]
    exact fun e h => hfree e ((ofCode?_eq_some_iff hk).1 h)
  have hsome : withSymbol? symbol (entryMark ++ code, .map entry) = some entry :=
    withSymbol?_eq_some_iff.2 ⟨rfl, isRuleKey_code hc, hs⟩
  rw [entry?_eq, hcode, Option.none_or, ofSymbol?]
  cases hf : r.entries.findSome? (withSymbol? symbol) with
  | none => rw [List.findSome?_eq_none_iff.1 hf _ he] at hsome; cases hsome
  | some e =>
    obtain ⟨⟨key, v⟩, hm, hw⟩ := List.exists_of_findSome?_eq_some hf
    obtain ⟨rfl, hrule, hsym⟩ := withSymbol?_eq_some_iff.1 hw
    by_cases hkey : key = entryMark ++ code
    · subst hkey
      have hsame := ((mem_iff_lookup hk).1 hm).symm.trans ((mem_iff_lookup hk).1 he)
      cases hsame
      rfl
    · exact absurd hsym (hown key e hm hrule hkey)

/-- **Look-ups see the selected entry alone, and a rule is found by its symbol as by its code.** Let no key of a registry
occur twice. Of two registries that have the same entries that can be found for a rule, in the same order, all look-ups for
the rule give the same, faults included; but the instructions may differ where the defaults do and the selected entry, if
there is one, has none. In one registry, let the entry under the code of a rule have a symbol that no other rule has and
that is not the code of another one. Then all look-ups by the symbol give the same as those by the code, but for the name
of the rule in the fault for lacking messages. -/
theorem lookups_of_selected :
    (∀ (r s : Registry) (code : String), r.DistinctKeys → s.DistinctKeys → code ≠ "_default" →
      r.entries.filter (selects code) = s.entries.filter (selects code) →
      r.Agree s code code ∧ r.templates code = s.templates code ∧
        (r.manualInstructions code ≠ s.manualInstructions code →
          r.entries.lookup defaultsKey ≠ s.entries.lookup defaultsKey ∧
            ∀ entry, r.entry? code = some entry → entry.lookup "manual_instructions" = none)) ∧
    ∀ (r : Registry) (code symbol : String) (entry : Fields), r.DistinctKeys → code ≠ "_default" →
      (entryMark ++ code, .map entry) ∈ r.entries → entry.lookup "symbol" = some (.str symbol) →
      (∀ key e, (key, .map e) ∈ r.entries → isRuleKey key = true → key ≠ entryMark ++ code →
        e.lookup "symbol" ≠ some (.str symbol)) →
      (∀ e, (entryMark ++ symbol, .map e) ∉ r.entries) →
      r.Agree r code symbol ∧
        ((∃ templates, r.templates code = .ok templates ∧ r.templates symbol = .ok templates) ∨
          ∃ missing, r.templates code = .error (.noMessages code missing) ∧
            r.templates symbol = .error (.noMessages symbol missing)) ∧
        r.manualInstructions code = r.manualInstructions symbol := by
  refine ⟨fun r s code hk hk' hc hsame => ?_, fun r code symbol entry hk hc he hs hown hfree => ?_⟩
  · have hentry : r.entry? code = s.entry? code := by
      rw [← entry?_restrict hk hc, ← entry?_restrict hk' hc, restrict, restrict, hsame]
    refine ⟨agree_of_eq hentry, by rw [templates_eq, templates_eq, hentry], fun hne => ⟨fun hd => ?_, ?_⟩⟩
    · exact hne (manualInstructions_congr hentry fun _ => hd)
    · intro entry he
      cases hm : entry.lookup "manual_instructions" with
      | none => rfl
      | some v =>
        refine absurd (manualInstructions_congr hentry fun hno => ?_) hne
        rw [field?, he, Option.bind_some, hm] at hno
        cases hno
  · have hcode : r.entry? code = some entry := by
      rw [entry?_eq, (ofCode?_eq_some_iff hk).2 he, Option.some_or]
    have hsymbol : r.entry? symbol = some entry := entry?_symbol hk hc he hs hown hfree
    have hentry : r.entry? code = r.entry? symbol := hcode.trans hsymbol.symm
    refine ⟨agree_of_eq hentry, ?_, manualInstructions_congr hentry fun _ => rfl⟩
    rw [templates_eq, templates_eq, hcode, hsymbol]
    cases ht : templatesOf entry with
    | ok templates => exact .inl ⟨templates, by rw [Option.elim_some, ht]; rfl, by rw [Option.elim_some, ht]; rfl⟩
    | error missing => exact .inr ⟨missing, by rw [Option.elim_some, ht]; rfl, by rw [Option.elim_some, ht]; rfl⟩

/-- A registry with the entries of two rules, and what it may become: one of the entries has another symbol, one that is
none has come in front, and the defaults have changed and moved. -/
theorem lookups_of_selected_moved :
    let fast : String × Value := (entryMark ++ "c", .map [("symbol", .str "fast"), ("default_style", .str "x")])
    let slow (symbol : String) : String × Value := (entryMark ++ "d", .map [("symbol", .str symbol)])
    let defaults (text : String) : String × Value := (defaultsKey, .map [("manual_instructions", .str text)])
    let before : Registry := ⟨[defaults "a", fast, slow "slow"]⟩
    let after : Registry := ⟨[("fast", .null), slow "slower", fast, defaults "b"]⟩
    (before.Agree after "c" "c" ∧ before.templates "c" = after.templates "c") ∧
      before.Agree before "c" "fast" ∧ before.manualInstructions "c" = before.manualInstructions "fast" := by
  intro fast slow defaults before after
  have hb : before.DistinctKeys := by unfold DistinctKeys; decide
  have ha : after.DistinctKeys := by unfold DistinctKeys; decide
  have hsame : before.entries.filter (selects "c") = after.entries.filter (selects "c") := by
    have hfast : selects "c" fast = true := by decide
    have hslow : selects "c" (slow "slow") = false ∧ selects "c" (slow "slower") = false := by decide
    have hrest : selects "c" (defaults "a") = false ∧ selects "c" (defaults "b") = false ∧
      selects "c" ("fast", .null) = false := by decide
    simp only [before, after, List.filter_cons, List.filter_nil, hfast, hslow, hrest, if_true, if_false, Bool.false_eq_true]
  have hmoved := lookups_of_selected.1 before after "c" hb ha (by decide) hsame
  have hown : ∀ key e, (key, .map e) ∈ before.entries → isRuleKey key = true → key ≠ entryMark ++ "c" →
      e.lookup "symbol" ≠ some (.str "fast") := by
    intro key e he hrule hkey
    simp only [before, fast, slow, defaults, List.mem_cons, List.not_mem_nil, or_false, Prod.mk.injEq, Value.map.injEq] at he
    obtain ⟨rfl, rfl⟩ | ⟨rfl, rfl⟩ | ⟨rfl, rfl⟩ := he
    · exact absurd hrule (by decide)
    · exact absurd rfl hkey
    · simp
  have hfree : ∀ e, (entryMark ++ "fast", .map e) ∉ before.entries := fun e he => by
    have hno : entryMark ++ "fast" ∉ before.entries.map Prod.fst := by decide
    exact hno (List.mem_map_of_mem he)
  have hnamed := lookups_of_selected.2 before "c" "fast" _ hb (by decide) (.tail _ (.head _)) rfl hown hfree
  exact ⟨⟨hmoved.1, hmoved.2.1⟩, hnamed.1, hnamed.2.2⟩

end Registry

end BlockPresence
