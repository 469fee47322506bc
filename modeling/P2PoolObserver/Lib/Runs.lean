/-
# Lib.Runs -- procedures over a state, described by a step relation

A procedure on a state `σ` that may fault is described by the steps it takes:
`Runs R Stuck o s x` says that, started in `s`, the call `x` takes steps of `R`
to the state of its result, or steps to a state that is `Stuck`, where it panics.
Nothing is said when the fuel runs out.
-/
import P2PoolObserver.Lib.Loop
import Mathlib.Logic.Relation

namespace P2PoolObserver.Lib

variable {σ α β τ ρ : Type} {R : σ → σ → Prop} {Stuck : σ → String → Prop}

theorem reaches_inv {Inv : σ → Prop} (step : ∀ s s', Inv s → R s s' → Inv s') {s s' : σ}
    (start : Inv s) (reach : Relation.ReflTransGen R s s') : Inv s' := by
  induction reach with
  | refl => exact start
  | tail _ last ih => exact step _ _ ih last

def Runs (R : σ → σ → Prop) (Stuck : σ → String → Prop) (o : α → σ) (s : σ) :
    Except Fault α → Prop
  | .ok a => Relation.ReflTransGen R s (o a)
  | .error .outOfFuel => True
  | .error (.panic message) => ∃ s', Relation.ReflTransGen R s s' ∧ Stuck s' message

namespace Runs

variable {o : α → σ} {o' : β → σ} {s s' : σ} {x : Except Fault α}

theorem ok {a : α} (reach : Relation.ReflTransGen R s (o a)) : Runs R Stuck o s (.ok a) := reach

theorem after (reach : Relation.ReflTransGen R s s') (run : Runs R Stuck o s' x) : Runs R Stuck o s x := by
  match x, run with
  | .ok _, run => exact reach.trans run
  | .error .outOfFuel, _ => trivial
  | .error (.panic _), ⟨stuck, more, faults⟩ => exact ⟨stuck, reach.trans more, faults⟩

theorem bind {f : α → Except Fault β} (first : Runs R Stuck o s x)
    (second : ∀ a, x = .ok a → Runs R Stuck o' (o a) (f a)) : Runs R Stuck o' s (x >>= f) := by
  match x, first, second with
  | .ok a, reach, second => exact after reach (second a rfl)
  | .error .outOfFuel, _, _ => trivial
  | .error (.panic _), stuck, _ => exact stuck

theorem pureBind {y : Except Fault β} {f : β → Except Fault α} (calm : ∀ m, y ≠ .error (.panic m))
    (second : ∀ b, y = .ok b → Runs R Stuck o s (f b)) : Runs R Stuck o s (y >>= f) := by
  match y, calm, second with
  | .ok b, _, second => exact second b rfl
  | .error .outOfFuel, _, _ => trivial
  | .error (.panic m), calm, _ => exact absurd rfl (calm m)

end Runs

def Step.state (next : τ → σ) (done : ρ → σ) : Step τ ρ → σ
  | .next t => next t
  | .done r => done r

theorem runs_loop {step : τ → Except Fault (Step τ ρ)} {next : τ → σ} {done : ρ → σ} {Inv : τ → Prop}
    (each : ∀ t, Inv t → Runs R Stuck (Step.state next done) (next t) (step t))
    (keep : ∀ t t', Inv t → step t = .ok (.next t') → Inv t') :
    ∀ (fuel : Nat) {t : τ}, Inv t → Runs R Stuck done (next t) (loop step fuel t)
  | 0, _, _ => trivial
  | fuel + 1, t, inv => by
    have one := each t inv
    unfold loop
    cases outcome : step t with
    | error e =>
      rw [outcome] at one
      cases e with
      | outOfFuel => trivial
      | panic message => exact one
    | ok result =>
      rw [outcome] at one
      cases result with
      | done r => exact one
      | next t' => exact Runs.after one (runs_loop each keep fuel (keep t t' inv outcome))

end P2PoolObserver.Lib
