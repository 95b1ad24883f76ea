import BlockPresence.Advice.Correction
import Mathlib.Data.List.Basic

/-!
# Edits from right to left

A correction leaves alone what stands before its extent. So what stands before all of some corrections is as it was when
they have been carried out (`Correction.toList_applyAll`).
-/

namespace BlockPresence.Correction

/-- The source with some corrections carried out, one after the other. -/
def applyAll (cs : List Correction) (source : String) : String := cs.foldl (fun text c => c.apply text) source

variable {c : Correction} {cs : List Correction} {text : String} {before after : List Char}

theorem toList_apply (ht : text.toList = before ++ after) (hc : before.length ≤ c.extent.start) :
    ∃ after', (c.apply text).toList = before ++ after' := by
  rw [apply, String.toList_ofList, ht, List.take_append, List.take_of_length_le hc, List.append_assoc, List.append_assoc]
  exact ⟨_, rfl⟩

/-- **What stands before** all of the corrections stays. -/
theorem toList_applyAll (ht : text.toList = before ++ after) (hcs : ∀ c ∈ cs, before.length ≤ c.extent.start) :
    ∃ after', (applyAll cs text).toList = before ++ after' := by
  induction cs generalizing text after with
  | nil => exact ⟨after, ht⟩
  | cons c cs ih =>
    obtain ⟨after', ht'⟩ := toList_apply ht (hcs c List.mem_cons_self)
    exact ih ht' fun d hd => hcs d (List.mem_cons_of_mem _ hd)

end BlockPresence.Correction
