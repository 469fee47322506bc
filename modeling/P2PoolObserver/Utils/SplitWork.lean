/-
# Utils.SplitWork -- work split over goroutines (`concurrency.go`)

`SplitWork` starts goroutines one after the other, and each adds to one counter for its next
index until the counter is above the work size or the work fails.  A step of the
model is one action of the caller or of one goroutine, and a run is any sequence of them.

The caller is told of an error by the flag `failed`.  A failed `init` always sets it; a failed
`do` sets it only inside the check that there is an `errorFunc`.
-/
import P2PoolObserver.Utils.ParseUint
import Mathlib.Logic.Relation
import Mathlib.Data.List.Nodup

namespace P2PoolObserver

/-! ## The source -/

/-- The arguments of a call; of the callbacks, whether they are there. -/
structure SplitWork where
  numCPU : Nat
  routines : Int
  workSize : UInt64
  hasInit : Bool
  hasErrorFunc : Bool

namespace SplitWork

def count (p : SplitWork) : Nat :=
  let routines := if p.routines ≤ 0 then max (Int.bmod (p.numCPU - p.routines) (2 ^ 64)) 4 else p.routines
  if p.workSize.toNat < routines.toNat then p.workSize.toNat else routines.toNat

inductive Goroutine where
  | ready
  | working (workIndex : UInt64)
  | stopped
  deriving DecidableEq

structure State (ε : Type) where
  routineIndex : Nat
  counter : UInt64
  goroutines : List (Nat × Goroutine)
  failed : Bool
  adds : Nat
  calls : List (UInt64 × Nat)
  initErrors : List (Nat × ε)
  doErrors : List (Nat × ε)
  reported : List (Nat × ε)

variable {ε : Type}

def start : State ε := ⟨0, 0, [], false, 0, [], [], [], []⟩

def report (p : SplitWork) (s : State ε) (routineIndex : Nat) (err : ε) : List (Nat × ε) :=
  if p.hasErrorFunc then s.reported ++ [(routineIndex, err)] else s.reported

inductive Step (p : SplitWork) (s : State ε) : State ε → Prop
  | start (more : s.routineIndex < p.count) :
      Step p s { s with
        routineIndex := s.routineIndex + 1, goroutines := s.goroutines ++ [(s.routineIndex, .ready)] }
  | initFails (more : s.routineIndex < p.count) (has : p.hasInit = true) (err : ε) :
      Step p s { s with
        routineIndex := s.routineIndex + 1, failed := true,
        initErrors := s.initErrors ++ [(s.routineIndex, err)], reported := p.report s s.routineIndex err }
  | leave {left right : List (Nat × Goroutine)} {r : Nat} (stands : s.goroutines = left ++ (r, .ready) :: right)
      (beyond : s.counter + 1 > p.workSize) :
      Step p s { s with
        counter := s.counter + 1, adds := s.adds + 1, goroutines := left ++ (r, .stopped) :: right }
  | take {left right : List (Nat × Goroutine)} {r : Nat} (stands : s.goroutines = left ++ (r, .ready) :: right)
      (within : ¬ s.counter + 1 > p.workSize) :
      Step p s { s with
        counter := s.counter + 1, adds := s.adds + 1,
        goroutines := left ++ (r, .working (s.counter + 1 - 1)) :: right,
        calls := s.calls ++ [(s.counter + 1 - 1, r)] }
  | done {left right : List (Nat × Goroutine)} {r : Nat} {workIndex : UInt64}
      (stands : s.goroutines = left ++ (r, .working workIndex) :: right) :
      Step p s { s with goroutines := left ++ (r, .ready) :: right }
  | fail {left right : List (Nat × Goroutine)} {r : Nat} {workIndex : UInt64}
      (stands : s.goroutines = left ++ (r, .working workIndex) :: right) (err : ε) :
      Step p s { s with
        -- the flag is set where the error is reported
        failed := s.failed || p.hasErrorFunc, doErrors := s.doErrors ++ [(r, err)],
        reported := p.report s r err, goroutines := left ++ (r, .stopped) :: right }

def State.Ended (p : SplitWork) (s : State ε) : Prop :=
  s.routineIndex = p.count ∧ ∀ g ∈ s.goroutines, g.2 = .stopped

def State.result (s : State ε) : Bool := !s.failed

abbrev Run (p : SplitWork) : State ε → State ε → Prop := Relation.ReflTransGen (Step p)

/-! ## The invariant -/

theorem count_pos (p : SplitWork) (work : 0 < p.workSize.toNat) : 0 < p.count := by
  unfold count
  dsimp only
  split_ifs <;> omega

/-- The invariant of a run. -/
structure Inv (p : SplitWork) (s : State ε) : Prop where
  started : s.goroutines.length + s.initErrors.length = s.routineIndex
  routineIndex : s.routineIndex ≤ p.count
  counter : s.counter.toNat = s.adds % 2 ^ 64
  calls : s.adds < 2 ^ 64 → s.calls.map (fun c => c.1.toNat) = List.range (min s.adds p.workSize.toNat)
  wrapped : 2 ^ 64 ≤ s.adds → ∃ r, (maxUint64, r) ∈ s.calls
  failed : s.failed = true ↔ s.initErrors ≠ [] ∨ (p.hasErrorFunc = true ∧ s.doErrors ≠ [])
  stopped : ∀ g ∈ s.goroutines, g.2 = .stopped → s.doErrors ≠ [] ∨ p.workSize.toNat < s.adds
  left : s.adds < 2 ^ 64 → s.adds ≤ p.workSize.toNat + s.goroutines.countP fun g => g.2 = .stopped

theorem inv_start (p : SplitWork) : Inv p (start : State ε) where
  started := rfl
  routineIndex := Nat.zero_le _
  counter := rfl
  calls _ := by simp [start]
  wrapped many := absurd many (by simp [start])
  failed := by simp [start]
  stopped := nofun
  left _ := Nat.zero_le _

theorem counter_add {counter : UInt64} {adds : Nat} (same : counter.toNat = adds % 2 ^ 64) :
    (counter + 1).toNat = (adds + 1) % 2 ^ 64 := by
  rw [UInt64.toNat_add, same]
  exact Nat.mod_add_mod adds (2 ^ 64) 1

theorem countP_middle (left right : List (Nat × Goroutine)) (r : Nat) (g : Goroutine) :
    (left ++ (r, g) :: right).countP (fun g => g.2 = .stopped) =
      (left ++ right).countP (fun g => g.2 = .stopped) + if g = .stopped then 1 else 0 := by
  rw [List.countP_append, List.countP_append, List.countP_cons]
  simp [Nat.add_assoc]

section Steps

variable {p : SplitWork} {s t : State ε}

theorem Inv.leave (inv : Inv p s) {left right : List (Nat × Goroutine)} {r : Nat}
    (stands : s.goroutines = left ++ (r, .ready) :: right) (beyond : s.counter + 1 > p.workSize) :
    Inv p { s with
      counter := s.counter + 1, adds := s.adds + 1, goroutines := left ++ (r, .stopped) :: right } := by
  have counter := counter_add inv.counter
  have bound := Nat.mod_le (s.adds + 1) (2 ^ 64)
  rw [gt_iff_lt, UInt64.lt_iff_toNat_lt, counter] at beyond
  refine ⟨?_, inv.routineIndex, counter, fun few => ?_, fun many => ?_, inv.failed, fun g _ _ => .inr ?_, fun few => ?_⟩
  · rw [← inv.started, stands]
    simp
  · have few : s.adds + 1 < 2 ^ 64 := few
    dsimp only
    rw [Nat.mod_eq_of_lt few] at beyond
    rw [inv.calls (Nat.lt_of_succ_lt few), Nat.min_eq_right (by omega), Nat.min_eq_right (by omega)]
  · rcases Nat.lt_or_ge s.adds (2 ^ 64) with few | before
    · -- the addition that comes to zero is not over the work size
      have last : s.adds + 1 = 2 ^ 64 := by dsimp only at many; omega
      rw [last, Nat.mod_self] at beyond
      exact absurd beyond (Nat.not_lt_zero _)
    · exact inv.wrapped before
  · exact Nat.lt_of_lt_of_le beyond bound
  · have left := inv.left (Nat.lt_of_succ_lt few)
    rw [stands, countP_middle] at left
    rw [countP_middle]
    simp only [reduceCtorEq, if_false, if_true] at left ⊢
    omega

theorem Inv.take (inv : Inv p s) {left right : List (Nat × Goroutine)} {r : Nat}
    (stands : s.goroutines = left ++ (r, .ready) :: right) (within : ¬ s.counter + 1 > p.workSize) :
    Inv p { s with
      counter := s.counter + 1, adds := s.adds + 1,
      goroutines := left ++ (r, .working (s.counter + 1 - 1)) :: right,
      calls := s.calls ++ [(s.counter + 1 - 1, r)] } := by
  have counter := counter_add inv.counter
  have index : s.counter + 1 - 1 = s.counter := by grind
  rw [gt_iff_lt, UInt64.lt_iff_toNat_lt, counter, Nat.not_lt] at within
  refine ⟨?_, inv.routineIndex, counter, fun few => ?_, fun many => ?_, inv.failed, fun g present => ?_, fun few => ?_⟩
  · rw [← inv.started, stands]
    simp
  · have few : s.adds + 1 < 2 ^ 64 := few
    dsimp only
    rw [Nat.mod_eq_of_lt few] at within
    have before := Nat.lt_of_succ_lt few
    rw [index, List.map_append, inv.calls before, Nat.min_eq_left (by omega), Nat.min_eq_left within, List.range_succ,
      List.map_singleton, inv.counter, Nat.mod_eq_of_lt before]
  · rcases Nat.lt_or_ge s.adds (2 ^ 64) with few | before
    · refine ⟨r, List.mem_append_right _ (List.mem_singleton.mpr ?_)⟩
      have last : s.adds = 2 ^ 64 - 1 := by dsimp only at many; omega
      have full : s.counter = maxUint64 := UInt64.toNat_inj.mp (by rw [inv.counter, last]; rfl)
      rw [index, full]
    · obtain ⟨r', present⟩ := inv.wrapped before
      exact ⟨r', List.mem_append_left _ present⟩
  · intro stopped
    have old : g ∈ s.goroutines := by
      rw [stands]
      rcases List.mem_append.mp present with before | after
      · exact List.mem_append_left _ before
      · rcases List.mem_cons.mp after with rfl | after
        · cases stopped
        · exact List.mem_append_right _ (.tail _ after)
    exact (inv.stopped g old stopped).imp id Nat.lt_succ_of_lt
  · rw [Nat.mod_eq_of_lt few] at within
    exact Nat.le_add_right_of_le within

theorem Inv.replace (inv : Inv p s) {left right : List (Nat × Goroutine)} {r : Nat} {g g' : Goroutine}
    (stands : s.goroutines = left ++ (r, g) :: right) (working : g ≠ .stopped) (failed : Bool)
    (errors reported : List (Nat × ε))
    (flag : failed = true ↔ s.initErrors ≠ [] ∨ (p.hasErrorFunc = true ∧ errors ≠ []))
    (more : s.doErrors ≠ [] → errors ≠ []) (stops : g' = .stopped → errors ≠ []) : Inv p { s with
      failed, doErrors := errors, reported, goroutines := left ++ (r, g') :: right } := by
  refine ⟨?_, inv.routineIndex, inv.counter, inv.calls, inv.wrapped, flag, fun h present => ?_, fun few => ?_⟩
  · rw [← inv.started, stands]
    simp
  · intro stopped
    rcases List.mem_append.mp present with before | after
    · exact (inv.stopped h (by rw [stands]; exact List.mem_append_left _ before) stopped).imp more id
    · rcases List.mem_cons.mp after with rfl | after
      · exact .inl (stops stopped)
      · exact (inv.stopped h (by rw [stands]; exact List.mem_append_right _ (.tail _ after)) stopped).imp
          more id
  · have before := inv.left few
    rw [stands, countP_middle, if_neg working] at before
    rw [countP_middle]
    dsimp only
    omega

theorem Inv.step (inv : Inv p s) (step : Step p s t) : Inv p t := by
  cases step with
  | start more =>
    refine ⟨?_, more, inv.counter, inv.calls, inv.wrapped, inv.failed, fun g present => ?_, fun few => ?_⟩
    · have started := inv.started
      dsimp only
      rw [List.length_append, List.length_singleton]
      omega
    · rcases List.mem_append.mp present with before | new
      · exact inv.stopped g before
      · rw [List.mem_singleton.mp new]
        exact fun stopped => by cases stopped
    · rw [List.countP_append]
      exact Nat.le_trans (inv.left few) (Nat.add_le_add_left (Nat.le_add_right _ _) _)
  | initFails more has err =>
    refine ⟨?_, more, inv.counter, inv.calls, inv.wrapped, ?_, inv.stopped, inv.left⟩
    · have started := inv.started
      dsimp only
      rw [List.length_append, List.length_singleton]
      omega
    · simp
  | leave stands beyond => exact inv.leave stands beyond
  | take stands within => exact inv.take stands within
  | done stands =>
    exact inv.replace stands (by simp) s.failed s.doErrors s.reported inv.failed id (by simp)
  | fail stands err =>
    refine inv.replace stands (by simp) _ _ _ ?_ (by simp) (by simp)
    rw [Bool.or_eq_true, inv.failed]
    cases p.hasErrorFunc <;> simp

theorem Inv.run (run : Run p start t) : Inv p (t : State ε) := by
  induction run with
  | refl => exact inv_start p
  | tail _ step ih => exact ih.step step

/-- A goroutine that adds to the counter has not stopped, so that there is room for one more addition. -/
theorem Inv.room (inv : Inv p s) (fits : p.workSize.toNat + p.count < 2 ^ 64) (few : s.adds < 2 ^ 64)
    {left right : List (Nat × Goroutine)} {r : Nat} (stands : s.goroutines = left ++ (r, .ready) :: right) :
    s.adds + 1 < 2 ^ 64 := by
  have before := inv.left few
  have started := inv.started
  have bound := inv.routineIndex
  have others := List.countP_le_length (p := fun g : Nat × Goroutine => decide (g.2 = .stopped)) (l := left ++ right)
  rw [stands, countP_middle] at before
  rw [stands, List.length_append, List.length_cons] at started
  rw [List.length_append] at others
  simp only [reduceCtorEq, if_false] at before
  omega

theorem adds_lt (fits : p.workSize.toNat + p.count < 2 ^ 64) (run : Run p start t) : (t : State ε).adds < 2 ^ 64 := by
  induction run with
  | refl => exact Nat.two_pow_pos 64
  | tail before step few =>
    have inv := Inv.run before
    cases step with
    | start more | initFails more has err => exact few
    | leave stands beyond | take stands within => exact inv.room fits few stands
    | done stands | fail stands err => exact few

end Steps

/-! ## The guarantee -/

/-- No index is passed twice, every index is in range, and a call that returns true has done all the
work without an error. -/
structure DoesTheWork (p : SplitWork) (s : State ε) : Prop where
  once : (s.calls.map Prod.fst).Nodup
  inRange : ∀ c ∈ s.calls, c.1 < p.workSize
  complete : s.Ended p → s.result = true →
    s.initErrors = [] ∧ s.doErrors = [] ∧ (s.calls.map fun c => c.1.toNat).Perm (List.range p.workSize.toNat)

theorem Inv.indices {p : SplitWork} {s : State ε} (inv : Inv p s) (few : s.adds < 2 ^ 64) :
    (s.calls.map Prod.fst).Nodup ∧ ∀ c ∈ s.calls, c.1 < p.workSize := by
  have calls := inv.calls few
  constructor
  · refine List.Nodup.of_map UInt64.toNat ?_
    rw [List.map_map]
    exact calls ▸ List.nodup_range
  · intro c present
    have member : c.1.toNat ∈ s.calls.map fun c => c.1.toNat := List.mem_map_of_mem present
    rw [calls, List.mem_range] at member
    exact UInt64.lt_iff_toNat_lt.mpr (by omega)

theorem Inv.complete {p : SplitWork} {s : State ε} (inv : Inv p s) (few : s.adds < 2 ^ 64) (ended : s.Ended p)
    (noInit : s.initErrors = []) (noDo : s.doErrors = []) :
    (s.calls.map fun c => c.1.toNat).Perm (List.range p.workSize.toNat) := by
  rw [inv.calls few]
  rcases Nat.eq_zero_or_pos p.workSize.toNat with none | work
  · rw [none, Nat.min_zero]
  · -- some goroutine was started, and it stopped because the counter was over the work size
    have started := inv.started
    have some' := p.count_pos work
    rw [noInit, List.length_nil, ended.1] at started
    obtain ⟨g, present⟩ := List.exists_mem_of_length_pos (by omega : 0 < s.goroutines.length)
    rcases inv.stopped g present (ended.2 g present) with errors | beyond
    · exact absurd noDo errors
    · rw [Nat.min_eq_right beyond.le]

/-- In a state of a run the guarantee holds exactly if the counter was added to less than `2 ^ 64`
times and, at the end, an error of `do` is not lost: there is an `errorFunc`, or no call of `do` failed,
or one of `init` did.  Where the work size and the goroutines are fewer than `2 ^ 64` together, so are
the additions. -/
theorem doesTheWork_iff (p : SplitWork) {s : State ε} (run : Run p start s) :
    (DoesTheWork p s ↔ s.adds < 2 ^ 64 ∧
      (s.Ended p → p.hasErrorFunc = true ∨ s.doErrors = [] ∨ s.initErrors ≠ [])) ∧
    (p.workSize.toNat + p.count < 2 ^ 64 → s.adds < 2 ^ 64) := by
  have inv := Inv.run run
  constructor
  · constructor
    · intro works
      constructor
      · by_contra many
        obtain ⟨r, present⟩ := inv.wrapped (Nat.not_lt.mp many)
        have below := UInt64.lt_iff_toNat_lt.mp (works.inRange _ present)
        have bound := p.workSize.toNat_lt
        rw [show maxUint64.toNat = 2 ^ 64 - 1 from rfl] at below
        omega
      · intro ended
        by_contra lost
        obtain ⟨noFunc, errors, noInit⟩ : ¬ p.hasErrorFunc = true ∧ s.doErrors ≠ [] ∧ s.initErrors = [] := by
          simpa only [not_or, not_not] using lost
        have quiet : s.failed = false := by
          refine Bool.eq_false_iff.mpr fun failed => ?_
          rcases inv.failed.mp failed with init | ⟨has, -⟩
          · exact init noInit
          · exact noFunc has
        exact errors (works.complete ended (by rw [State.result, quiet]; rfl)).2.1
    · rintro ⟨few, kept⟩
      obtain ⟨once, inRange⟩ := inv.indices few
      refine ⟨once, inRange, fun ended succeeds => ?_⟩
      have quiet : ¬ (s.initErrors ≠ [] ∨ (p.hasErrorFunc = true ∧ s.doErrors ≠ [])) := by
        rw [← inv.failed]
        simpa [State.result] using succeeds
      obtain ⟨noInit, noReport⟩ := not_or.mp quiet
      have noInit := not_not.mp noInit
      have noDo : s.doErrors = [] := by
        rcases kept ended with has | none | init
        · exact not_not.mp fun errors => noReport ⟨has, errors⟩
        · exact none
        · exact absurd noInit init
      exact ⟨noInit, noDo, inv.complete few ended noInit noDo⟩
  · exact fun fits => adds_lt fits run

def pair : SplitWork := ⟨8, 2, 3, false, true⟩

def pairDone : State Unit :=
  ⟨2, 5, [(0, .stopped), (1, .stopped)], false, 5, [(0, 0), (1, 1), (2, 0)], [], [], []⟩

theorem run_pair : Run pair start pairDone :=
  .tail (.tail (.tail (.tail (.tail (.tail (.tail (.tail (.tail (.single
    (.start Nat.zero_lt_two))
    (@Step.take _ _ _ [] [] 0 rfl (by decide : ¬ (0 : UInt64) + 1 > 3)))
    (.start Nat.one_lt_two))
    (@Step.take _ _ _ [(0, .working 0)] [] 1 rfl (by decide : ¬ (1 : UInt64) + 1 > 3)))
    (@Step.done _ _ _ [] [(1, .working 1)] 0 0 rfl))
    (@Step.take _ _ _ [] [(1, .working 1)] 0 rfl (by decide : ¬ (2 : UInt64) + 1 > 3)))
    (@Step.done _ _ _ [(0, .working 2)] [] 1 1 rfl))
    (@Step.leave _ _ _ [(0, .working 2)] [] 1 rfl (by decide : (3 : UInt64) + 1 > 3)))
    (@Step.done _ _ _ [] [(1, .stopped)] 0 2 rfl))
    (@Step.leave _ _ _ [] [(1, .stopped)] 0 rfl (by decide : (4 : UInt64) + 1 > 3))

/-- Two goroutines do three pieces of work, with two more additions at the end. -/
theorem doesTheWork_pair : DoesTheWork pair pairDone ∧ pairDone.Ended pair ∧ pairDone.result = true :=
  ⟨(doesTheWork_iff pair run_pair).1.mpr ⟨by decide, fun _ => .inl rfl⟩, ⟨rfl, by decide⟩, rfl⟩

def single : SplitWork := ⟨8, 1, 1, false, false⟩

/-- The only goroutine fails at its only piece of work. -/
def singleFailed : State Unit := ⟨1, 1, [(0, .stopped)], false, 1, [(0, 0)], [], [(0, ())], []⟩

/-- Without an `errorFunc`, the only call of `do` fails, and `SplitWork` returns true. -/
theorem doesTheWork_lost : Run single start singleFailed ∧ singleFailed.Ended single ∧
    singleFailed.result = true ∧ ¬ DoesTheWork single singleFailed := by
  have ended : singleFailed.Ended single := ⟨rfl, by decide⟩
  have taken : Run single start ⟨1, 1, [(0, .working 0)], false, 1, [(0, 0)], [], [], ([] : List (Nat × Unit))⟩ :=
    .tail (.single (.start Nat.zero_lt_one)) (@Step.take _ _ _ [] [] 0 rfl (by decide : ¬ (0 : UInt64) + 1 > 1))
  refine ⟨taken.tail (@Step.fail _ _ _ [] [] 0 0 rfl ()), ended, rfl, fun works => ?_⟩
  obtain ⟨-, errors, -⟩ := works.complete ended rfl
  cases errors

end SplitWork

end P2PoolObserver
