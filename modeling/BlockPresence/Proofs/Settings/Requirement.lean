import BlockPresence.Settings.Config
import BlockPresence.Settings.Packaged

/-!
# Requirements

What is asked of a section and a registry, as conditions with the faults that report them. A computation checks a list of
requirements if it fails just with the fault of the first one that is not met (`Requirement.Checks`). Computations that
check requirements can be put one after the other (`Requirement.Checks.bind`), and each look-up of the settings checks
some.
-/

namespace BlockPresence

/-- A condition, with the fault when it does not hold. -/
structure Requirement where
  met : Prop
  fault : Fault

namespace Requirement

variable {α β : Type} {r : Requirement} {rs rs' : List Requirement} {f : Fault}

/-! ## The first that is not met -/

def AllMet (rs : List Requirement) : Prop := ∀ r ∈ rs, r.met

/-- The fault of the first requirement that is not met. -/
def FirstUnmet (rs : List Requirement) (f : Fault) : Prop :=
  ∃ before r after, rs = before ++ r :: after ∧ AllMet before ∧ ¬ r.met ∧ f = r.fault

theorem allMet_nil : AllMet [] := fun _ h => (nomatch h)

theorem allMet_cons : AllMet (r :: rs) ↔ r.met ∧ AllMet rs := List.forall_mem_cons

theorem not_firstUnmet_nil : ¬ FirstUnmet [] f := by
  rintro ⟨before, r, after, h, -⟩
  cases before <;> cases h

theorem firstUnmet_cons : FirstUnmet (r :: rs) f ↔ ¬ r.met ∧ f = r.fault ∨ r.met ∧ FirstUnmet rs f := by
  constructor
  · rintro ⟨before, q, after, h, hb, hq, rfl⟩
    cases before with
    | nil =>
      obtain ⟨rfl, -⟩ := List.cons.inj h
      exact .inl ⟨hq, rfl⟩
    | cons b before =>
      obtain ⟨rfl, rfl⟩ := List.cons.inj h
      obtain ⟨hr, hb⟩ := allMet_cons.1 hb
      exact .inr ⟨hr, before, q, after, rfl, hb, hq, rfl⟩
  · rintro (⟨hr, rfl⟩ | ⟨hr, before, q, after, rfl, hb, hq, rfl⟩)
    · exact ⟨[], r, rs, rfl, fun _ h => (nomatch h), hr, rfl⟩
    · exact ⟨r :: before, q, after, rfl, allMet_cons.2 ⟨hr, hb⟩, hq, rfl⟩

theorem firstUnmet_append : FirstUnmet (rs ++ rs') f ↔ FirstUnmet rs f ∨ AllMet rs ∧ FirstUnmet rs' f := by
  induction rs with
  | nil => simp [not_firstUnmet_nil, AllMet]
  | cons r rs ih =>
    rw [List.cons_append, firstUnmet_cons, firstUnmet_cons, ih, allMet_cons]
    by_cases hr : r.met <;> simp [hr]

theorem exists_firstUnmet_iff : (∃ f, FirstUnmet rs f) ↔ ¬ AllMet rs := by
  induction rs with
  | nil => simp [not_firstUnmet_nil, AllMet]
  | cons r rs ih =>
    simp only [firstUnmet_cons, allMet_cons, exists_or, exists_and_left, exists_eq, ih]
    by_cases hr : r.met <;> simp [hr]

/-! ## Checks -/

/-- The computation fails just with the fault of the first requirement that is not met. -/
def Checks (rs : List Requirement) (x : Except Fault α) : Prop := ∀ f, x = .error f ↔ FirstUnmet rs f

namespace Checks

variable {x : Except Fault α}

/-- There is a result just if all requirements are met. -/
theorem exists_ok_iff (h : Checks rs x) : (∃ a, x = .ok a) ↔ AllMet rs := by
  have hf : (∃ f, x = .error f) ↔ ¬ AllMet rs := (exists_congr h).trans exists_firstUnmet_iff
  cases x with
  | error f => simpa using hf
  | ok a => simpa using hf

theorem of_allMet (h : AllMet rs) (a : α) : Checks rs (.ok a : Except Fault α) := fun f =>
  iff_of_false (nomatch ·) fun hf => exists_firstUnmet_iff.1 ⟨f, hf⟩ h

theorem map {g : α → β} (h : Checks rs x) : Checks rs (x.map g) := by
  intro f
  rw [← h f]
  cases x <;> simp [Except.map]

theorem cons_of_met (hr : r.met) (h : Checks rs x) : Checks (r :: rs) x := by
  intro f
  simp [firstUnmet_cons, hr, h f]

theorem cons_of_not_met (hr : ¬ r.met) : Checks (r :: rs) (.error r.fault : Except Fault α) := by
  intro f
  simp [firstUnmet_cons, hr, eq_comm]

/-- A computation with one fault checks one requirement. -/
theorem single (hx : (∃ a, x = .ok a) ↔ r.met) (hf : ∀ f, x = .error f → f = r.fault) : Checks [r] x := by
  cases x with
  | error f =>
    obtain rfl := hf f rfl
    exact cons_of_not_met fun hr => by simpa using hx.2 hr
  | ok a => exact cons_of_met (hx.1 ⟨a, rfl⟩) (of_allMet allMet_nil a)

/-- **One computation after the other** checks the requirements of the first and then those of the second. -/
theorem bind {g : α → Except Fault β} (hx : Checks rs x) (hg : ∀ a, x = .ok a → Checks rs' (g a)) :
    Checks (rs ++ rs') (x.bind g) := by
  intro f
  rw [firstUnmet_append, ← hx f]
  cases hxa : x with
  | error e =>
    have hn : ¬ AllMet rs := fun h => by
      obtain ⟨a, ha⟩ := hx.exists_ok_iff.2 h
      rw [hxa] at ha
      cases ha
    simp [Except.bind, hn]
  | ok a =>
    have hall : AllMet rs := hx.exists_ok_iff.1 ⟨a, hxa⟩
    simp [Except.bind, hall, hg a hxa f]

end Checks

end Requirement

end BlockPresence
