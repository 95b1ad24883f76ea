import BlockPresence.Proofs.Settings.Requirement

/-!
# What a registry gives

The entry that a registry has for a rule stands under the code of the rule or else has it as its symbol
(`Registry.Finds`), and gives values (`Registry.Gives`) and texts (`Registry.GivesText`) under its keys. Of a value it
matters whether it counts as given (`Value.Falsy`), what it lists (`Value.Lists`) and how it reads as a text
(`Value.Written`). These relations are what the look-ups compute (`Registry.entry?_eq_some_iff`,
`Registry.field?_eq_some_iff`).
-/

namespace BlockPresence

/-! ## Values -/

namespace Value

/-- The values that count as not given: null, false, zero and everything empty. -/
inductive Falsy : Value → Prop
  | null : Falsy .null
  | false : Falsy (.bool .false)
  | zero : Falsy (.int 0)
  | real {x : Float} : (x == 0.0) = true → Falsy (.real x)
  | str : Falsy (.str "")
  | list : Falsy (.list [])
  | map : Falsy (.map [])

/-- What a value lists: the characters of a text, the elements of a list, the keys of a mapping. -/
inductive Lists : Value → List Value → Prop
  | chars (s : String) : Lists (.str s) (s.toList.map fun c => .str (String.singleton c))
  | elements (items : List Value) : Lists (.list items) items
  | keys (fields : Fields) : Lists (.map fields) (fields.map fun f => .str f.1)

/-- The values that cannot be members of a set. -/
inductive Compound : Value → Prop
  | list (items : List Value) : Compound (.list items)
  | map (fields : Fields) : Compound (.map fields)

/-- How a value reads as a text: a text is itself, everything else is displayed. -/
inductive Written : Value → String → Prop
  | text (s : String) : Written (.str s) s
  | other {v : Value} : (∀ s, v ≠ .str s) → Written v v.display

variable {v : Value} {s : String} {items : List Value}

theorem isText_iff : v.isText s = true ↔ v = .str s := by
  cases v <;> simp [isText]

theorem isTruthy_eq_false_iff : v.isTruthy = false ↔ v.Falsy := by
  constructor
  · intro h
    cases v with
    | null => exact .null
    | bool b => cases h; exact .false
    | int n =>
      obtain rfl : n = 0 := by simpa [isTruthy] using h
      exact .zero
    | real x => exact .real (by simpa [isTruthy, bne] using h)
    | str s =>
      obtain rfl : s = "" := by simpa [isTruthy] using h
      exact .str
    | list items => cases items with
      | nil => exact .list
      | cons v items => cases h
    | map fields => cases fields with
      | nil => exact .map
      | cons f fields => cases h
  · intro h
    cases h with
    | real h => simp [isTruthy, bne, h]
    | _ => rfl

theorem isTruthy_iff : v.isTruthy = true ↔ ¬ v.Falsy := by
  rw [← isTruthy_eq_false_iff, Bool.not_eq_false]

theorem items?_eq_some_iff : v.items? = some items ↔ v.Lists items := by
  constructor
  · intro h
    cases v with
    | str s => cases h; exact .chars s
    | list items => cases h; exact .elements _
    | map fields => cases h; exact .keys fields
    | _ => cases h
  · rintro (_ | _ | _) <;> rfl

theorem isAtom_iff : v.isAtom = true ↔ ¬ v.Compound := by
  cases v with
  | list items => exact iff_of_false (nomatch ·) fun h => h (.list items)
  | map fields => exact iff_of_false (nomatch ·) fun h => h (.map fields)
  | _ => exact iff_of_true rfl (nomatch ·)

theorem written_iff : v.Written s ↔ v.toText = s := by
  constructor
  · rintro (_ | h)
    · rfl
    · unfold toText
      split
      · exact absurd rfl (h _)
      · rfl
  · rintro rfl
    cases v with
    | str s => exact .text s
    | _ => exact .other fun s h => by cases h

/-- The fields of a mapping. -/
def fields? : Value → Option Fields
  | map fields => some fields
  | _ => none

theorem fields?_eq_some_iff {fields : Fields} : v.fields? = some fields ↔ v = .map fields := by
  cases v <;> simp [fields?]

end Value

/-! ## The entry of a rule -/

namespace Registry

variable {r : Registry} {code symbol key : String} {entry : Fields} {v : Value}

/-- What stands under a key of a registry is the entry of a rule with this symbol. -/
structure HasSymbol (symbol key : String) (entry : Fields) : Prop where
  marked : "blockgiven.".toList <+: key.toList
  ne_defaults : key ≠ "blockgiven._default"
  symbol : entry.lookup "symbol" = some (.str symbol)

/-- The entry that a registry has for a rule: the mapping under its code, or else the first entry with this symbol. -/
inductive Finds (r : Registry) (code : String) : Fields → Prop
  | underCode {entry : Fields} : r.entries.lookup ("blockgiven." ++ code) = some (.map entry) → Finds r code entry
  | bySymbol {before after : Fields} {key : String} {entry : Fields} :
      (∀ e, r.entries.lookup ("blockgiven." ++ code) ≠ some (.map e)) →
      r.entries = before ++ (key, .map entry) :: after → HasSymbol code key entry →
      (∀ f ∈ before, ∀ e, f.2 = .map e → ¬ HasSymbol code f.1 e) → Finds r code entry

/-- The entry that a registry has for a rule gives `v` under a key. -/
def Gives (r : Registry) (code key : String) (v : Value) : Prop :=
  ∃ entry, r.Finds code entry ∧ entry.lookup key = some v

/-- The text that the entry of a rule gives under a key, or else `last`. -/
inductive GivesText (r : Registry) (code key last : String) : String → Prop
  | given {v : Value} {text : String} : r.Gives code key v → ¬ v.Falsy → v.Written text →
      GivesText r code key last text
  | last : (∀ v, r.Gives code key v → v.Falsy) → GivesText r code key last last

/-- The entry that stands under the code of a rule. -/
def ofCode? (r : Registry) (code : String) : Option Fields := (r.entries.lookup (entryMark ++ code)).bind Value.fields?

/-- What a field of a registry is, if it is the entry of a rule with this symbol. -/
def withSymbol? (symbol : String) (f : String × Value) : Option Fields :=
  f.2.fields?.filter fun entry => isRuleKey f.1 && (entry.lookup "symbol").any (Value.isText symbol)

/-- The first entry of a rule with this symbol. -/
def ofSymbol? (r : Registry) (symbol : String) : Option Fields := r.entries.findSome? (withSymbol? symbol)

theorem entry?_eq (r : Registry) (code : String) : r.entry? code = (r.ofCode? code).or (r.ofSymbol? code) := by
  unfold entry? ofCode?
  split
  · rename_i entry h
    rw [h]
    rfl
  · rename_i hmap
    have hcode : (r.entries.lookup (entryMark ++ code)).bind Value.fields? = none := by
      rw [Option.bind_eq_none_iff]
      intro v hv
      cases v with
      | map entry => exact absurd hv (hmap entry)
      | _ => rfl
    rw [hcode, Option.none_or, ofSymbol?]
    congr 1
    funext f
    obtain ⟨key, v⟩ := f
    cases v <;> simp [withSymbol?, Value.fields?, Option.filter]

theorem isRuleKey_iff : isRuleKey key = true ↔ "blockgiven.".toList <+: key.toList ∧ key ≠ "blockgiven._default" := by
  rw [isRuleKey, Bool.and_eq_true, List.isPrefixOf_iff_prefix, bne_iff_ne]
  rfl

theorem withSymbol?_eq_some_iff {f : String × Value} : withSymbol? symbol f = some entry ↔
    f.2 = .map entry ∧ isRuleKey f.1 = true ∧ entry.lookup "symbol" = some (.str symbol) := by
  simp [withSymbol?, Option.filter_eq_some_iff, Value.fields?_eq_some_iff, Option.any_eq_true, Value.isText_iff]

theorem withSymbol?_eq_some_iff_hasSymbol {f : String × Value} :
    withSymbol? symbol f = some entry ↔ f.2 = .map entry ∧ HasSymbol symbol f.1 entry := by
  rw [withSymbol?_eq_some_iff, isRuleKey_iff]
  exact and_congr_right fun _ => ⟨fun ⟨⟨hm, hd⟩, hs⟩ => ⟨hm, hd, hs⟩, fun ⟨hm, hd, hs⟩ => ⟨⟨hm, hd⟩, hs⟩⟩

theorem entry?_eq_some_iff : r.entry? code = some entry ↔ r.Finds code entry := by
  have hcode : ∀ e, r.ofCode? code = some e ↔ r.entries.lookup ("blockgiven." ++ code) = some (.map e) := fun e => by
    simp [ofCode?, Option.bind_eq_some_iff, Value.fields?_eq_some_iff, entryMark]
  rw [entry?_eq, Option.or_eq_some_iff, hcode, Option.eq_none_iff_forall_ne_some, ofSymbol?, List.findSome?_eq_some_iff]
  constructor
  · rintro (h | ⟨hno, before, ⟨key, v⟩, after, he, hw, hbefore⟩)
    · exact .underCode h
    · obtain ⟨rfl, hs⟩ := withSymbol?_eq_some_iff_hasSymbol.1 hw
      refine .bySymbol (fun e h => hno e ((hcode e).2 h)) he hs fun f hf e hfe hse => ?_
      have hwe := withSymbol?_eq_some_iff_hasSymbol.2 ⟨hfe, hse⟩
      rw [hbefore f hf] at hwe
      cases hwe
  · rintro (h | ⟨hno, he, hs, hbefore⟩)
    · exact .inl h
    · refine .inr ⟨fun e h => hno e ((hcode e).1 h), _, _, _, he,
        withSymbol?_eq_some_iff_hasSymbol.2 ⟨rfl, hs⟩, fun f hf => ?_⟩
      rw [Option.eq_none_iff_forall_ne_some]
      intro e hwe
      obtain ⟨hfe, hse⟩ := withSymbol?_eq_some_iff_hasSymbol.1 hwe
      exact hbefore f hf e hfe hse

theorem field?_eq_some_iff : r.field? code key = some v ↔ r.Gives code key v := by
  rw [field?, Option.bind_eq_some_iff]
  exact exists_congr fun entry => and_congr_left fun _ => entry?_eq_some_iff

theorem Gives.unique {v' : Value} (h : r.Gives code key v) (h' : r.Gives code key v') : v = v' :=
  Option.some.inj ((field?_eq_some_iff.2 h).symm.trans (field?_eq_some_iff.2 h'))

theorem field?_eq_none_iff : r.field? code key = none ↔ ∀ v, ¬ r.Gives code key v := by
  rw [Option.eq_none_iff_forall_ne_some]
  exact forall_congr' fun v => not_congr field?_eq_some_iff

theorem givesText (r : Registry) (code key last : String) :
    r.GivesText code key last ((r.givenText? code key).getD last) := by
  rw [givenText?]
  cases hf : (r.field? code key).filter Value.isTruthy with
  | none =>
    refine .last fun v hv => ?_
    have hn := Option.filter_eq_none_iff.1 hf v (field?_eq_some_iff.2 hv)
    exact Value.isTruthy_eq_false_iff.1 (Bool.eq_false_iff.2 hn)
  | some v =>
    obtain ⟨hv, ht⟩ := Option.filter_eq_some_iff.1 hf
    exact .given (field?_eq_some_iff.1 hv) (Value.isTruthy_iff.1 ht) (Value.written_iff.2 rfl)

end Registry

end BlockPresence
