/-
# Lib.Session -- calls on one cache, one after the other

A session calls programs on a cache and clears it in between; the cache may lose any entries
before each operation.  Programs that end with one result whatever good entries their
lookups find (`Program.Ends`) answer every call of every session with that result
(`answers_eq`).
-/
import P2PoolObserver.Lib.Workers

namespace P2PoolObserver.Lib

open Lib.Workers (Coherent)

namespace Session

variable {K : Type} {V : K → Type} {Q α : Type} {good : (k : K) → V k → Prop}

/-- The cache, and how many operations were made on it. -/
structure Memory (V : K → Type) where
  count : Nat
  cache : (k : K) → Option (V k)

/-- The operation that comes next finds the cache without what is lost by then. -/
def Memory.turn (lose : Nat → K → Bool) (m : Memory V) : Memory V where
  count := m.count + 1
  cache := fun k => if lose m.count k then none else m.cache k

def Memory.cleared (m : Memory V) : Memory V := { m with cache := fun _ => none }

theorem coherent_turn (lose : Nat → K → Bool) {m : Memory V} (coherent : Coherent good m.cache) :
    Coherent good (m.turn lose).cache := by
  intro k v entry
  change (if lose m.count k then none else m.cache k) = some v at entry
  split at entry
  · cases entry
  · exact coherent k v entry

theorem coherent_cleared (m : Memory V) : Coherent good m.cleared.cache := by
  intro k v entry
  cases entry

variable [DecidableEq K]

def Memory.put (m : Memory V) (k : K) (v : V k) : Memory V :=
  { m with cache := Function.update m.cache k (some v) }

/-- Runs a program; before operation `n` the entries `lose n` are lost. -/
def exec (lose : Nat → K → Bool) : Program V α → Memory V → Option α × Memory V
  | .done a, m => (some a, m)
  | .crash, m => (none, m)
  | .get k next, m => exec lose (next ((m.turn lose).cache k)) (m.turn lose)
  | .set k v next, m => exec lose next ((m.turn lose).put k v)

inductive Action (Q : Type) where
  | call (q : Q)
  | clear

def calls : List (Action Q) → List Q
  | [] => []
  | .call q :: rest => q :: calls rest
  | .clear :: rest => calls rest

/-- What the calls of a session return; `none` is a call that does not return. -/
def answers (program : Q → Program V α) (lose : Nat → K → Bool) : List (Action Q) → Memory V → List (Option α)
  | [], _ => []
  | .call q :: rest, m => (exec lose (program q) m).1 :: answers program lose rest (exec lose (program q) m).2
  | .clear :: rest, m => answers program lose rest m.cleared

theorem exec_ends (lose : Nat → K → Bool) {p : Program V α} {r : Option α} (ends : p.Ends good r) {m : Memory V}
    (coherent : Coherent good m.cache) : (exec lose p m).1 = r ∧ Coherent good (exec lose p m).2.cache := by
  induction p generalizing m with
  | done a | crash => exact ⟨ends.symm, coherent⟩
  | get k next ih =>
    have kept := coherent_turn lose coherent
    rw [exec]
    cases entry : (m.turn lose).cache k with
    | none => exact ih none ends.1 kept
    | some v => exact ih (some v) (ends.2 v (kept k v entry)) kept
  | set k v next ih => exact ih ends.2 ((coherent_turn lose coherent).update ends.1)

theorem answers_eq {program : Q → Program V α} {result : Q → Option α}
    (ends : ∀ q, (program q).Ends good (result q)) (lose : Nat → K → Bool) (actions : List (Action Q)) {m : Memory V}
    (coherent : Coherent good m.cache) : answers program lose actions m = (calls actions).map result := by
  induction actions generalizing m with
  | nil => rfl
  | cons action rest ih =>
    cases action with
    | call q =>
      obtain ⟨same, kept⟩ := exec_ends lose (ends q) coherent
      rw [answers, calls, List.map_cons, same, ih kept]
    | clear => exact ih (coherent_cleared m)

end Session

end P2PoolObserver.Lib
