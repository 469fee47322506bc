/-
# Lib.Program -- programs that share a cache

A program looks entries of a cache up and stores entries, one operation at a time, and may
crash.  Several of them run at once on the same cache, which may drop entries at any time,
so that a lookup finds nothing or something that was stored before.
-/
import Mathlib.Logic.Function.Basic

namespace P2PoolObserver.Lib

variable {K : Type} {V : K → Type} {α β : Type}

inductive Program (V : K → Type) (α : Type) where
  | done (a : α)
  | crash
  | get (k : K) (next : Option (V k) → Program V α)
  | set (k : K) (v : V k) (next : Program V α)

namespace Program

def bind : Program V α → (α → Program V β) → Program V β
  | done a, f => f a
  | crash, _ => crash
  | get k next, f => get k fun v => (next v).bind f
  | set k v next, f => set k v (next.bind f)

instance : Monad (Program V) where
  pure := done
  bind := bind

def lookup (k : K) : Program V (Option (V k)) := get k done

def store (k : K) (v : V k) : Program V Unit := set k v (done ())

def deref : Option α → Program V α
  | some a => done a
  | none => crash

/-! ## What a program ends with -/

section Ends

variable (good : (k : K) → V k → Prop)

/-- Stores good entries only and ends so, whatever good entries the lookups find. -/
def Ends : Program V α → Option α → Prop
  | done a, r => r = some a
  | crash, r => r = none
  | get _ next, r => Ends (next none) r ∧ ∀ v, good _ v → Ends (next (some v)) r
  | set k v next, r => good k v ∧ Ends next r

variable {good}
variable {p : Program V α} {f : α → Program V β} {r : Option β}

theorem ends_pure (a : α) : Ends good (pure a : Program V α) (some a) := rfl

theorem ends_bind {a : α} : Ends good p (some a) → Ends good (f a) r → Ends good (p >>= f) r := by
  intro first second
  induction p with
  | done a' =>
    obtain rfl : a = a' := Option.some.inj first
    exact second
  | crash => cases first
  | get k next ih => exact ⟨ih none first.1, fun v holds => ih (some v) (first.2 v holds)⟩
  | set k v next ih => exact ⟨first.1, ih first.2⟩

theorem ends_bind_crash : Ends good p none → Ends good (p >>= f) none := by
  intro first
  induction p with
  | done a => cases first
  | crash => rfl
  | get k next ih => exact ⟨ih none first.1, fun v holds => ih (some v) (first.2 v holds)⟩
  | set k v next ih => exact ⟨first.1, ih first.2⟩

theorem ends_lookup {k : K} {f : Option (V k) → Program V β}
    (missing : Ends good (f none) r) (found : ∀ v, good k v → Ends good (f (some v)) r) :
    Ends good (lookup k >>= f) r := ⟨missing, found⟩

theorem ends_store {k : K} {v : V k} {f : Unit → Program V β}
    (holds : good k v) (rest : Ends good (f ()) r) : Ends good (store k v >>= f) r := ⟨holds, rest⟩

theorem ends_map {f : α → β} {r : Option α} (ends : Ends good p r) :
    Ends good (p >>= fun a => pure (f a)) (r.map f) := by
  cases r with
  | none => exact ends_bind_crash ends
  | some a => exact ends_bind ends (ends_pure (f a))

theorem ends_deref (a : Option α) : Ends good (deref a : Program V α) a := by
  cases a <;> rfl

end Ends

variable {p : Program V α} {m n : Nat} {k : K}

/-! ## How long a program takes -/

def Within : Program V α → Nat → Prop
  | done _, _ => True
  | crash, _ => True
  | get _ _, 0 => False
  | get _ next, n + 1 => ∀ v, Within (next v) n
  | set _ _ _, 0 => False
  | set _ _ next, n + 1 => Within next n

theorem Within.mono (within : Within p m) (le : m ≤ n) : Within p n := by
  induction p generalizing m n with
  | done a => trivial
  | crash => trivial
  | get k next ih =>
    cases m with
    | zero => cases within
    | succ m =>
      cases n with
      | zero => cases le
      | succ n => exact fun v => ih v (within v) (Nat.le_of_succ_le_succ le)
  | set k v next ih =>
    cases m with
    | zero => cases within
    | succ m =>
      cases n with
      | zero => cases le
      | succ n => exact ih within (Nat.le_of_succ_le_succ le)

theorem within_bind {f : α → Program V β}
    (first : Within p m) (second : ∀ a, Within (f a) n) : Within (p >>= f) (m + n) := by
  induction p generalizing m with
  | done a => exact (second a).mono (Nat.le_add_left n m)
  | crash => trivial
  | get k next ih =>
    cases m with
    | zero => cases first
    | succ m =>
      rw [Nat.add_right_comm]
      exact fun v => ih v (first v)
  | set k v next ih =>
    cases m with
    | zero => cases first
    | succ m =>
      rw [Nat.add_right_comm]
      exact ih first

theorem within_pure (a : α) (n : Nat) : Within (pure a : Program V α) n := trivial

theorem within_lookup {f : Option (V k) → Program V β}
    (rest : ∀ v, Within (f v) n) : Within (lookup k >>= f) (n + 1) := rest

theorem within_store {v : V k} {f : Unit → Program V β}
    (rest : Within (f ()) n) : Within (store k v >>= f) (n + 1) := rest

theorem within_deref (a : Option α) (n : Nat) : Within (deref a : Program V α) n := by
  cases a <;> trivial

end Program

end P2PoolObserver.Lib
