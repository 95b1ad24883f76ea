import BlockPresence.Report.Event
import BlockPresence.Report.Fault

/-!
# Computations with a log

A computation that writes events to a log and may fail. What it logged before a fault stays logged.
-/

namespace BlockPresence

/-- The outcome of a computation with what it logged on the way. -/
structure Traced (α : Type) where
  log : List Event
  result : Except Fault α

namespace Traced

variable {α β : Type}

/-- Continues with a result; a fault ends the computation. -/
def andThen (x : Traced α) (f : α → Traced β) : Traced β :=
  match x.result with
  | .error fault => ⟨x.log, .error fault⟩
  | .ok a =>
    let y := f a
    ⟨x.log ++ y.log, y.result⟩

/-- The same computation with another result. -/
def map (f : α → β) (x : Traced α) : Traced β := ⟨x.log, x.result.map f⟩

instance : Monad Traced where
  pure a := ⟨[], .ok a⟩
  bind := andThen
  map := map

theorem map_eq_andThen (f : α → β) (x : Traced α) : x.map f = x.andThen fun a => pure (f a) := by
  obtain ⟨log, _ | a⟩ := x
  · rfl
  · simp [map, andThen, pure, Except.map]

theorem andThen_assoc {γ : Type} (x : Traced α) (f : α → Traced β) (g : β → Traced γ) :
    (x.andThen f).andThen g = x.andThen fun a => (f a).andThen g := by
  obtain ⟨log, _ | a⟩ := x
  · rfl
  · cases h : (f a).result <;> simp [andThen, h]

instance : LawfulMonad Traced :=
  LawfulMonad.mk' Traced
    (fun x => by obtain ⟨log, _ | a⟩ := x <;> rfl)
    (fun _ _ => rfl)
    andThen_assoc
    (fun _ _ => rfl)
    (fun _ _ => rfl)
    (fun _ _ => rfl)
    (fun f x => (map_eq_andThen f x).symm)
    (fun _ _ => rfl)

/-- Writes one event to the log. -/
def record (e : Event) : Traced Unit := ⟨[e], .ok ()⟩

/-- Writes some events to the log. -/
def recordAll (es : List Event) : Traced Unit := ⟨es, .ok ()⟩

/-- Fails. -/
def fail (fault : Fault) : Traced α := ⟨[], .error fault⟩

/-- A computation that logs nothing. -/
def ofExcept (x : Except Fault α) : Traced α := ⟨[], x⟩

end Traced

end BlockPresence
