import RestconfApi.Failure
import RestconfApi.Log

/-!
# Logged results

A result or a failure together with the log records written on the way. The records stay when the
computation fails.
-/

namespace RestconfApi

structure Logged (α : Type) where
  records : List Record
  result : Except Failure α

namespace Logged

variable {α β : Type}

def pure (a : α) : Logged α := ⟨[], .ok a⟩

def bind (x : Logged α) (f : α → Logged β) : Logged β :=
  match x.result with
  | .ok a => ⟨x.records ++ (f a).records, (f a).result⟩
  | .error e => ⟨x.records, .error e⟩

instance : Monad Logged where
  pure := pure
  bind := bind

def fail (e : Failure) : Logged α := ⟨[], .error e⟩

def write (level : Level) (text : String) : Logged Unit := ⟨[⟨level, text⟩], .ok ()⟩

def ofExcept (x : Except Failure α) : Logged α := ⟨[], x⟩

instance : MonadExcept Failure Logged where
  throw := fail
  tryCatch x handle :=
    match x.result with
    | .ok _ => x
    | .error e => ⟨x.records ++ (handle e).records, (handle e).result⟩

@[simp] theorem result_pure (a : α) : (Pure.pure a : Logged α).result = .ok a := rfl

@[simp] theorem records_pure (a : α) : (Pure.pure a : Logged α).records = [] := rfl

theorem result_bind (x : Logged α) (f : α → Logged β) :
    (x >>= f).result = x.result >>= fun a => (f a).result := by
  obtain ⟨r, x⟩ := x
  cases x <;> rfl

instance : LawfulMonad Logged :=
  LawfulMonad.mk' Logged
    (fun ⟨r, x⟩ => by cases x <;> simp [Functor.map, bind, pure])
    (fun _ _ => by simp [Bind.bind, Pure.pure, bind, pure])
    (fun ⟨r, x⟩ f g => by
      cases x with
      | error e => rfl
      | ok a =>
        simp only [Bind.bind, bind]
        cases (f a).result <;> simp)

/-- Steps that succeed one after the other succeed each. -/
theorem ok_of_bind {x : Logged α} {f : α → Logged β} {b : β}
    (h : (x >>= f).result = .ok b) : ∃ a, x.result = .ok a ∧ (f a).result = .ok b := by
  rw [result_bind] at h
  cases hx : x.result with
  | error e =>
    rw [hx] at h
    cases h
  | ok a =>
    rw [hx] at h
    exact ⟨a, rfl, h⟩

end Logged

end RestconfApi
