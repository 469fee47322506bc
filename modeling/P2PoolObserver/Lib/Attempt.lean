/-
# Lib.Attempt -- stateful computations whose changes survive a failure

An `Attempt` threads a state and may fail; unlike `Except` over a state it keeps
what had been done by then, as an imperative procedure with early returns does.
`on` runs one from a state, and the lemmas below evaluate a `do` block step by step.
-/
import Mathlib.Tactic.Common

namespace P2PoolObserver.Lib

abbrev Attempt (σ ε α : Type) := ExceptT ε (StateM σ) α

namespace Attempt

variable {σ ε α β : Type}

/-- The outcome of running `x` from `s`, and the state it leaves. -/
def on (x : Attempt σ ε α) (s : σ) : Except ε α × σ := x.run.run s

theorem on_eq {x : Attempt σ ε α} {s : σ} {a : α} (outcome : (x.on s).1 = .ok a) :
    x.on s = (.ok a, (x.on s).2) := by
  rw [← outcome]

@[simp] theorem on_pure (a : α) (s : σ) : (pure a : Attempt σ ε α).on s = (.ok a, s) := rfl

@[simp] theorem on_throw (e : ε) (s : σ) : (throw e : Attempt σ ε α).on s = (.error e, s) := rfl

@[simp] theorem on_get (s : σ) : (get : Attempt σ ε σ).on s = (.ok s, s) := rfl

@[simp] theorem on_set (s t : σ) : (set t : Attempt σ ε PUnit).on s = (.ok (), t) := rfl

theorem on_bind (x : Attempt σ ε α) (f : α → Attempt σ ε β) (s : σ) :
    (x >>= f).on s = match x.on s with
      | (.ok a, t) => (f a).on t
      | (.error e, t) => (.error e, t) := by
  simp only [on, ExceptT.run_bind, StateT.run_bind]
  rcases x.run.run s with ⟨e | a, t⟩ <;> rfl

theorem on_bind_ok {x : Attempt σ ε α} {s t : σ} {a : α} (run : x.on s = (.ok a, t))
    (f : α → Attempt σ ε β) : (x >>= f).on s = (f a).on t := by
  rw [on_bind, run]

@[simp] theorem on_liftExcept_ok (a : α) (s : σ) :
    (liftExcept (.ok a : Except ε α) : Attempt σ ε α).on s = (.ok a, s) := rfl

@[simp] theorem on_liftExcept_error (e : ε) (s : σ) :
    (liftExcept (.error e : Except ε α) : Attempt σ ε α).on s = (.error e, s) := rfl

/-- What holds before `x` holds after it, failed or not. -/
def Preserves (P : σ → Prop) (x : Attempt σ ε α) : Prop := ∀ s, P s → P (x.on s).2

section Preserves

variable {P : σ → Prop}

theorem preserves_pure (a : α) : Preserves P (pure a : Attempt σ ε α) := fun _ => id

theorem preserves_throw (e : ε) : Preserves P (throw e : Attempt σ ε α) := fun _ => id

theorem preserves_liftExcept (r : Except ε α) : Preserves P (liftExcept r : Attempt σ ε α) := by
  cases r <;> exact fun _ => id

theorem Preserves.bind {x : Attempt σ ε α} {g : α → Attempt σ ε β} (first : Preserves P x)
    (second : ∀ a, Preserves P (g a)) : Preserves P (x >>= g) := by
  intro s start
  rw [on_bind]
  have middle := first s start
  rcases run : x.on s with ⟨e | a, t⟩ <;> rw [run] at middle
  · exact middle
  · exact second a t middle

theorem preserves_get_bind {g : σ → Attempt σ ε β} (next : ∀ s, P s → P ((g s).on s).2) :
    Preserves P ((get : Attempt σ ε σ) >>= g) := by
  intro s start
  rw [on_bind_ok (on_get s)]
  exact next s start

theorem preserves_set_bind {t : σ} {g : PUnit → Attempt σ ε β} (holds : P t)
    (next : Preserves P (g ())) : Preserves P ((set t : Attempt σ ε PUnit) >>= g) := by
  intro s _
  rw [on_bind_ok (on_set s t)]
  exact next t holds

end Preserves

end Attempt

end P2PoolObserver.Lib
