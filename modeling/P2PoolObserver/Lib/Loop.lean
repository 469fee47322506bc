/-
# Lib.Loop -- unbounded loops with fuel, and the rules to reason about them

A source loop `for { .. }` is `loop step fuel s`: `step` does one iteration and
either goes on with a new state or leaves the loop.  Running out of fuel is a
`Fault` of its own, apart from a run-time panic, so that no statement about a
returned value is about a truncated run.

* `loop_inv`: what one iteration preserves holds of whatever the loop returns.
* `Yields`: the same result for all large enough fuel; calls in sequence compose.
-/
import Mathlib.Order.Basic
import Mathlib.Tactic.Common

namespace P2PoolObserver.Lib

inductive Fault where
  | outOfFuel
  | panic (message : String)
  deriving DecidableEq

/-- One iteration of a loop: go on, or leave with a result. -/
inductive Step (σ ρ : Type) where
  | next (s : σ)
  | done (r : ρ)

section Loop

variable {σ ρ α β : Type}

def loop (step : σ → Except Fault (Step σ ρ)) : Nat → σ → Except Fault ρ
  | 0, _ => .error .outOfFuel
  | fuel + 1, s =>
    match step s with
    | .error e => .error e
    | .ok (.done r) => .ok r
    | .ok (.next s') => loop step fuel s'

variable {step : σ → Except Fault (Step σ ρ)}

theorem loop_inv {Inv : σ → Prop} {Post : ρ → Prop} (next : ∀ s s', Inv s → step s = .ok (.next s') → Inv s')
    (done : ∀ s r, Inv s → step s = .ok (.done r) → Post r) :
    ∀ {fuel : Nat} {s : σ} {r : ρ}, Inv s → loop step fuel s = .ok r → Post r
  | 0, _, _, _, run => by simp [loop] at run
  | fuel + 1, s, r, inv, run => by
    unfold loop at run
    split at run
    · cases run
    · rename_i r' left
      cases run
      exact done s r inv left
    · rename_i s' onward
      exact loop_inv next done (next s s' inv onward) run

def loopStates (step : σ → Except Fault (Step σ ρ)) : Nat → σ → List σ
  | 0, _ => []
  | fuel + 1, s => s ::
      match step s with
      | .ok (.next s') => loopStates step fuel s'
      | _ => []

theorem loop_inv_states {Inv Good : σ → Prop} {Post : ρ → Prop}
    (next : ∀ s s', Good s → Inv s → step s = .ok (.next s') → Inv s')
    (done : ∀ s r, Good s → Inv s → step s = .ok (.done r) → Post r) :
    ∀ {fuel : Nat} {s : σ} {r : ρ}, (∀ t ∈ loopStates step fuel s, Good t) → Inv s →
      loop step fuel s = .ok r → Post r
  | 0, _, _, _, _, run => by simp [loop] at run
  | fuel + 1, s, r, good, inv, run => by
    unfold loop at run
    split at run
    · cases run
    · rename_i r' left
      cases run
      exact done s r (good s (.head _)) inv left
    · rename_i s' onward
      have later : ∀ t ∈ loopStates step fuel s', Good t := by
        intro t mem
        refine good t ?_
        rw [loopStates, onward]
        exact .tail s mem
      exact loop_inv_states next done later (next s s' (good s (.head _)) inv onward) run

/-! ## Termination -/

def Yields (f : Nat → Except Fault α) (r : α) : Prop := ∃ N, ∀ fuel, N ≤ fuel → f fuel = .ok r

/-- More fuel than some number is at least one step. -/
theorem forall_of_succ {P : Nat → Prop} {n : Nat} (each : ∀ fuel, n ≤ fuel → P (fuel + 1)) : ∀ fuel, n < fuel → P fuel
  | fuel + 1, enough => each fuel (Nat.le_of_lt_succ enough)

end Loop

/-! ## Sequencing faulting calls -/

theorem except_bind_eq_ok {ε α β : Type} {x : Except ε α} {f : α → Except ε β} {b : β} :
    (x >>= f) = .ok b ↔ ∃ a, x = .ok a ∧ f a = .ok b := by
  cases x with
  | error e | ok a => simp [Bind.bind, Except.bind]

/-! ## Early returns -/

/-- `P` holds of what is returned early, `Q` of what the computation goes on with. -/
def Outcome {ε α : Type} (P : ε → Prop) (Q : α → Prop) : Except ε α → Prop
  | .error e => P e
  | .ok a => Q a

theorem Outcome.imp {ε α : Type} {P P' : ε → Prop} {Q Q' : α → Prop} {x : Except ε α}
    (outcome : Outcome P Q x) (early : ∀ e, P e → P' e) (late : ∀ a, Q a → Q' a) : Outcome P' Q' x := by
  cases x with
  | error e => exact early e outcome
  | ok a => exact late a outcome

theorem Outcome.bind {ε α β : Type} {P : ε → Prop} {Q : α → Prop} {Q' : β → Prop} {x : Except ε α}
    {f : α → Except ε β} (first : Outcome P Q x) (second : ∀ a, Q a → Outcome P Q' (f a)) :
    Outcome P Q' (x >>= f) := by
  cases x with
  | error e => exact first
  | ok a => exact second a first

theorem outcome_foldlM {ε α β : Type} {P : ε → Prop} {Q : β → Prop} {f : β → α → Except ε β} :
    ∀ {l : List α} {b : β}, (∀ a ∈ l, ∀ b, Q b → Outcome P Q (f b a)) → Q b → Outcome P Q (l.foldlM f b)
  | [], _, _, start => start
  | a :: l, b, each, start => by
    rw [List.foldlM_cons]
    exact Outcome.bind (each a (.head _) b start) fun b' next =>
      outcome_foldlM (fun a' mem => each a' (.tail a mem)) next

end P2PoolObserver.Lib
