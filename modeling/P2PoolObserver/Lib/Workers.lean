/-
# Lib.Workers -- work split over workers that share a cache

Workers take the numbers `0 .. size - 1` from a counter and run the program of each.  A
worker that gets an error stops, one that crashes takes all others with it, and one that
finds the counter at the end stops too.  Steps interleave in any order, and between two steps
others may change the cache to anything that is coherent.

* `mem_indices_iff`: a number is taken if fewer numbers before it fail than there are workers.
* `never_crashes_iff`: a run crashes exactly if a number that is taken does.
-/
import Mathlib.Data.List.Perm.Basic
import Mathlib.Data.List.Range
import P2PoolObserver.Lib.Program

namespace P2PoolObserver.Lib.Workers

/-! ## Workers and their steps -/

inductive Worker {K : Type} (V : K → Type) (ε α : Type) where
  | idle
  | busy (i : Nat) (p : Program V (Except ε α))
  | stopped

/-- The numbers to work on and what is done for each. -/
structure Work {K : Type} (V : K → Type) (ε α : Type) where
  size : Nat
  job : Nat → Program V (Except ε α)

structure Crew {K : Type} (V : K → Type) (ε α : Type) where
  cache : (k : K) → Option (V k)
  next : Nat
  workers : List (Worker V ε α)
  log : List (Nat × Except ε α)
  crashed : Bool

variable {K : Type} [DecidableEq K] {V : K → Type} {ε α : Type}

inductive Step (w : Work V ε α) (s : Crew V ε α) : Crew V ε α → Prop
  | take {left right : List (Worker V ε α)} (stands : s.workers = left ++ .idle :: right)
      (more : s.next < w.size) :
      Step w s { s with next := s.next + 1, workers := left ++ .busy s.next (w.job s.next) :: right }
  | leave {left right : List (Worker V ε α)} (stands : s.workers = left ++ .idle :: right)
      (none : ¬ s.next < w.size) : Step w s { s with workers := left ++ .stopped :: right }
  | get {left right : List (Worker V ε α)} {i : Nat} {k : K}
      {next : Option (V k) → Program V (Except ε α)}
      (stands : s.workers = left ++ .busy i (.get k next) :: right) :
      Step w s { s with workers := left ++ .busy i (next (s.cache k)) :: right }
  | set {left right : List (Worker V ε α)} {i : Nat} {k : K} {v : V k}
      {next : Program V (Except ε α)}
      (stands : s.workers = left ++ .busy i (.set k v next) :: right) :
      Step w s { s with
        cache := Function.update s.cache k (some v), workers := left ++ .busy i next :: right }
  | done {left right : List (Worker V ε α)} {i : Nat} {a : α}
      (stands : s.workers = left ++ .busy i (.done (.ok a)) :: right) :
      Step w s { s with workers := left ++ .idle :: right, log := s.log ++ [(i, .ok a)] }
  | fail {left right : List (Worker V ε α)} {i : Nat} {e : ε}
      (stands : s.workers = left ++ .busy i (.done (.error e)) :: right) :
      Step w s { s with workers := left ++ .stopped :: right, log := s.log ++ [(i, .error e)] }
  | crash {left right : List (Worker V ε α)} {i : Nat}
      (stands : s.workers = left ++ .busy i .crash :: right) : Step w s { s with crashed := true }

def Coherent (good : (k : K) → V k → Prop) (cache : (k : K) → Option (V k)) : Prop :=
  ∀ k v, cache k = some v → good k v

theorem Coherent.update {good : (k : K) → V k → Prop} {cache : (k : K) → Option (V k)}
    (coherent : Coherent good cache) {k : K} {v : V k} (holds : good k v) :
    Coherent good (Function.update cache k (some v)) := by
  intro k' v' entry
  by_cases same : k' = k
  · subst same
    rw [Function.update_self] at entry
    cases entry
    exact holds
  · rw [Function.update_of_ne same] at entry
    exact coherent k' v' entry

/-- A step of one worker, after others may have used the cache. -/
def Turn (good : (k : K) → V k → Prop) (w : Work V ε α) (s t : Crew V ε α) : Prop :=
  s.crashed = false ∧ ∃ cache, Coherent good cache ∧ Step w { s with cache } t

inductive Run (good : (k : K) → V k → Prop) (w : Work V ε α) (s : Crew V ε α) :
    Nat → Crew V ε α → Prop
  | refl : Run good w s 0 s
  | turn {n : Nat} {t u : Crew V ε α} (before : Run good w s n t) (last : Turn good w t u) :
      Run good w s (n + 1) u

def Crew.start (cache : (k : K) → Option (V k)) (routines : Nat) : Crew V ε α :=
  ⟨cache, 0, List.replicate routines .idle, [], false⟩

def Crew.Ended (s : Crew V ε α) : Prop := s.crashed = true ∨ ∀ x ∈ s.workers, x = .stopped

/-! ## The invariant -/

def isError : Option (Except ε α) → Bool
  | some (.error _) => true
  | _ => false

def failures (verdict : Nat → Option (Except ε α)) (i : Nat) : Nat :=
  (List.range i).countP fun j => isError (verdict j)

theorem failures_succ (verdict : Nat → Option (Except ε α)) (i : Nat) :
    failures verdict (i + 1) = failures verdict i + if isError (verdict i) then 1 else 0 := by
  simp [failures, List.range_succ, List.countP_append, List.countP_cons]

theorem failures_mono (verdict : Nat → Option (Except ε α)) {i j : Nat} (le : i ≤ j) :
    failures verdict i ≤ failures verdict j := by
  induction le with
  | refl => exact Nat.le_refl _
  | step _ ih =>
    rw [failures_succ]
    omega

namespace Worker

def index? : Worker V ε α → Option Nat
  | busy i _ => some i
  | _ => none

def spent (verdict : Nat → Option (Except ε α)) : Worker V ε α → Bool
  | idle => false
  | busy i _ => isError (verdict i)
  | stopped => true

end Worker

/-- Each number below `next` is logged with its verdict or still worked on, and fewer numbers than
workers failed before it. -/
structure Crew.Inv (good : (k : K) → V k → Prop) (w : Work V ε α)
    (verdict : Nat → Option (Except ε α)) (routines : Nat) (s : Crew V ε α) : Prop where
  coherent : Coherent good s.cache
  crew : s.workers.length = routines
  taken : s.next ≤ w.size
  indices : (s.log.map Prod.fst ++ s.workers.filterMap Worker.index?).Perm (List.range s.next)
  logged : ∀ p ∈ s.log, verdict p.1 = some p.2
  running : ∀ i p, .busy i p ∈ s.workers → p.Ends good (verdict i)
  reached : ∀ i < s.next, failures verdict i < routines
  spent : s.next < w.size → failures verdict s.next = s.workers.countP (Worker.spent verdict)
  crashed : s.crashed = true → ∃ i < s.next, verdict i = none

section Invariant

variable {good : (k : K) → V k → Prop} {w : Work V ε α} {verdict : Nat → Option (Except ε α)}
  {routines : Nat} {s t : Crew V ε α}

namespace Crew.Inv

omit [DecidableEq K] in
theorem start {cache : (k : K) → Option (V k)} (coherent : Coherent good cache) :
    (Crew.start cache routines).Inv good w verdict routines where
  coherent := coherent
  crew := List.length_replicate
  taken := Nat.zero_le _
  indices := by
    simp [Crew.start, List.filterMap_replicate, Worker.index?]
  logged := nofun
  running i p present := by cases List.eq_of_mem_replicate present
  reached := nofun
  spent _ := by
    simp [Crew.start, failures, List.countP_replicate, Worker.spent]
  crashed := nofun

omit [DecidableEq K] in
theorem lt_next (inv : s.Inv good w verdict routines) {i : Nat} {p : Program V (Except ε α)}
    (busy : .busy i p ∈ s.workers) : i < s.next := by
  refine List.mem_range.mp (inv.indices.subset (List.mem_append_right _ ?_))
  exact List.mem_filterMap.mpr ⟨_, busy, rfl⟩

omit [DecidableEq K] in
theorem others (inv : s.Inv good w verdict routines) {cache : (k : K) → Option (V k)}
    (coherent : Coherent good cache) : { s with cache }.Inv good w verdict routines :=
  ⟨coherent, inv.crew, inv.taken, inv.indices, inv.logged, inv.running, inv.reached, inv.spent,
    inv.crashed⟩

omit [DecidableEq K] in
theorem replace (inv : s.Inv good w verdict routines) {cache : (k : K) → Option (V k)}
    (coherent : Coherent good cache) {left right : List (Worker V ε α)} {x : Worker V ε α}
    (stands : s.workers = left ++ x :: right) (y : Worker V ε α) (more : List (Nat × Except ε α))
    (index : x.index?.toList = more.map Prod.fst ++ y.index?.toList)
    (logged : ∀ p ∈ more, verdict p.1 = some p.2) (running : ∀ i p, y = .busy i p → p.Ends good (verdict i))
    (spent : s.next < w.size → y.spent verdict = x.spent verdict) : Crew.Inv good w verdict routines
      { s with cache, workers := left ++ y :: right, log := s.log ++ more } where
  coherent := coherent
  crew := by
    have crew := inv.crew
    rw [stands] at crew
    simpa using crew
  taken := inv.taken
  indices := by
    refine List.Perm.trans ?_ inv.indices
    have cons : ∀ z : Worker V ε α, (z :: right).filterMap Worker.index? =
        z.index?.toList ++ right.filterMap Worker.index? := by
      intro z
      cases same : z.index? with
      | none | some i => simp [same]
    simp only [stands, List.filterMap_append, cons, index, List.map_append, List.append_assoc]
    refine List.Perm.append_left _ ?_
    rw [← List.append_assoc, ← List.append_assoc (left.filterMap _)]
    exact List.Perm.append_right _ List.perm_append_comm
  logged p present := by
    rcases List.mem_append.mp present with before | new
    · exact inv.logged p before
    · exact logged p new
  running i p present := by
    rcases List.mem_append.mp present with before | after
    · exact inv.running i p (by rw [stands]; exact List.mem_append_left _ before)
    · rcases List.mem_cons.mp after with same | after
      · exact running i p same.symm
      · exact inv.running i p (by rw [stands]; exact List.mem_append_right _ (.tail _ after))
  reached := inv.reached
  spent below := by
    rw [inv.spent below, stands, List.countP_append, List.countP_append, List.countP_cons,
      List.countP_cons, spent below]
  crashed := inv.crashed

omit [DecidableEq K] in
theorem take (ends : ∀ i < w.size, (w.job i).Ends good (verdict i))
    (inv : s.Inv good w verdict routines) {left right : List (Worker V ε α)}
    (stands : s.workers = left ++ .idle :: right) (more : s.next < w.size) : Crew.Inv good w verdict routines
      { s with next := s.next + 1, workers := left ++ .busy s.next (w.job s.next) :: right } := by
  have spent := inv.spent more
  have crew := inv.crew
  rw [stands] at spent crew
  simp only [List.countP_append, List.countP_cons, List.length_append, List.length_cons,
    Worker.spent, Bool.false_eq_true, if_false] at spent crew
  have few := List.countP_le_length (p := Worker.spent verdict) (l := left)
  have few' := List.countP_le_length (p := Worker.spent verdict) (l := right)
  refine ⟨inv.coherent, ?_, more, ?_, inv.logged, ?_, ?_, ?_, ?_⟩
  · simpa using crew
  · have before := inv.indices
    simp only [stands, List.filterMap_append, List.filterMap_cons, Worker.index?] at before ⊢
    rw [List.range_succ]
    refine List.Perm.trans ?_ (before.append_right [s.next])
    simp only [List.append_assoc]
    refine List.Perm.append_left _ (List.Perm.append_left _ ?_)
    exact (List.perm_append_singleton _ _).symm
  · intro i p present
    rcases List.mem_append.mp present with before | after
    · exact inv.running i p (by rw [stands]; exact List.mem_append_left _ before)
    · rcases List.mem_cons.mp after with same | after
      · cases same
        exact ends s.next more
      · exact inv.running i p (by rw [stands]; exact List.mem_append_right _ (.tail _ after))
  · intro i below
    rcases Nat.lt_succ_iff_lt_or_eq.mp below with before | rfl
    · exact inv.reached i before
    · omega
  · intro _
    rw [failures_succ, spent, List.countP_append, List.countP_cons]
    exact Nat.add_assoc _ _ _
  · intro crashed
    obtain ⟨i, below, none⟩ := inv.crashed crashed
    exact ⟨i, Nat.lt_succ_of_lt below, none⟩

theorem step (ends : ∀ i < w.size, (w.job i).Ends good (verdict i))
    (inv : s.Inv good w verdict routines) (step : Step w s t) : t.Inv good w verdict routines := by
  have busy : ∀ {left right : List (Worker V ε α)} {i : Nat} {p : Program V (Except ε α)},
      s.workers = left ++ .busy i p :: right → .busy i p ∈ s.workers := by
    intro left right i p stands
    rw [stands]
    exact List.mem_append_right _ (.head _)
  cases step with
  | take stands more => exact inv.take ends stands more
  | leave stands none =>
    have left := inv.replace inv.coherent stands .stopped [] rfl nofun nofun
      fun more => absurd more none
    rwa [List.append_nil] at left
  | @get left right i k next stands =>
    obtain ⟨missing, found⟩ := inv.running _ _ (busy stands)
    have ends : (next (s.cache k)).Ends good (verdict i) := by
      cases entry : s.cache k with
      | none => exact missing
      | some v => exact found v (inv.coherent k v entry)
    have kept := inv.replace inv.coherent stands (.busy i (next (s.cache k))) [] rfl nofun
      (by rintro _ _ ⟨⟩; exact ends) fun _ => rfl
    rwa [List.append_nil] at kept
  | @set left right i k v next stands =>
    obtain ⟨holds, ends⟩ := inv.running _ _ (busy stands)
    have kept := inv.replace (inv.coherent.update holds) stands (.busy i next) [] rfl nofun
      (by rintro _ _ ⟨⟩; exact ends) fun _ => rfl
    rwa [List.append_nil] at kept
  | @done left right i a stands =>
    have result : verdict i = some (.ok a) := inv.running _ _ (busy stands)
    refine inv.replace inv.coherent stands .idle [(i, .ok a)] rfl ?_ nofun fun _ => ?_
    · intro p new
      rw [List.mem_singleton.mp new]
      exact result
    · simp only [Worker.spent, result]
      rfl
  | @fail left right i e stands =>
    have result : verdict i = some (.error e) := inv.running _ _ (busy stands)
    refine inv.replace inv.coherent stands .stopped [(i, .error e)] rfl ?_ nofun fun _ => ?_
    · intro p new
      rw [List.mem_singleton.mp new]
      exact result
    · simp only [Worker.spent, result]
      rfl
  | @crash left right i stands =>
    have result : verdict i = none := inv.running _ _ (busy stands)
    exact { inv with crashed := fun _ => ⟨i, inv.lt_next (busy stands), result⟩ }

theorem run (ends : ∀ i < w.size, (w.job i).Ends good (verdict i)) {n : Nat}
    (inv : s.Inv good w verdict routines) (run : Run good w s n t) : t.Inv good w verdict routines := by
  induction run with
  | refl => exact inv
  | turn before last ih =>
    obtain ⟨-, cache, coherent, step⟩ := last
    exact (ih.others coherent).step ends step

end Crew.Inv

end Invariant

/-! ## Every run ends -/

section Length

variable {good : (k : K) → V k → Prop} {w : Work V ε α} {depth : Nat} {s t : Crew V ε α}

/-- Steps that a worker can still make without taking a number. -/
def Worker.Cost : Worker V ε α → Nat → Prop
  | idle, c => c = 1
  | busy _ p, c => ∃ n, p.Within n ∧ c = n + 2
  | stopped, c => c = 0

def Costs : List (Worker V ε α) → Nat → Prop
  | [], m => m = 0
  | x :: xs, m => ∃ c rest, x.Cost c ∧ Costs xs rest ∧ m = c + rest

omit [DecidableEq K] in
theorem costs_middle {left right : List (Worker V ε α)} {x : Worker V ε α} {m : Nat}
    (costs : Costs (left ++ x :: right) m) : ∃ c rest, x.Cost c ∧ m = c + rest ∧
      ∀ (y : Worker V ε α) (c' : Nat), y.Cost c' → Costs (left ++ y :: right) (c' + rest) := by
  induction left generalizing m with
  | nil =>
    obtain ⟨c, rest, cost, others, rfl⟩ := costs
    exact ⟨c, rest, cost, rfl, fun y c' cost' => ⟨c', rest, cost', others, rfl⟩⟩
  | cons z left ih =>
    obtain ⟨d, others, first, costs, rfl⟩ := costs
    obtain ⟨c, rest, cost, rfl, replace⟩ := ih costs
    refine ⟨c, d + rest, cost, by omega, fun y c' cost' => ?_⟩
    exact ⟨d, c' + rest, first, replace y c' cost', by omega⟩

/-- Steps that are left at most, where each number takes `depth` operations. -/
def Crew.Potential (w : Work V ε α) (depth : Nat) (s : Crew V ε α) (m : Nat) : Prop :=
  ∃ costs, Costs s.workers costs ∧
    m = costs + (w.size - s.next) * (depth + 2) + if s.crashed then 0 else 1

omit [DecidableEq K] in
theorem Crew.Potential.start (cache : (k : K) → Option (V k)) (routines : Nat) :
    (Crew.start cache routines).Potential w depth (routines + w.size * (depth + 2) + 1) := by
  have idle : Costs (List.replicate routines (Worker.idle : Worker V ε α)) routines := by
    induction routines with
    | zero => rfl
    | succ n ih => exact ⟨1, n, rfl, ih, Nat.add_comm n 1⟩
  exact ⟨routines, idle, rfl⟩

omit [DecidableEq K] in
theorem Crew.Potential.less {m : Nat} (potential : s.Potential w depth m)
    {left right : List (Worker V ε α)} {x : Worker V ε α} (stands : s.workers = left ++ x :: right)
    (y : Worker V ε α) (cheaper : ∀ c, x.Cost c → ∃ c' < c, y.Cost c')
    (cache : (k : K) → Option (V k)) (log : List (Nat × Except ε α)) :
    ∃ m' < m, Crew.Potential w depth { s with cache, workers := left ++ y :: right, log } m' := by
  obtain ⟨total, costs, rfl⟩ := potential
  rw [stands] at costs
  obtain ⟨c, rest, cost, rfl, replace⟩ := costs_middle costs
  obtain ⟨c', less, cost'⟩ := cheaper c cost
  refine ⟨_, ?_, c' + rest, replace y c' cost', rfl⟩
  dsimp only
  omega

theorem Crew.Potential.step {m : Nat} (potential : s.Potential w depth m)
    (short : ∀ i < w.size, (w.job i).Within depth) (running : s.crashed = false) (step : Step w s t) :
    ∃ m' < m, t.Potential w depth m' := by
  cases step with
  | @take left right stands more =>
    obtain ⟨total, costs, rfl⟩ := potential
    rw [stands] at costs
    obtain ⟨c, rest, rfl, rfl, replace⟩ := costs_middle costs
    refine ⟨_, ?_, depth + 2 + rest, replace _ _ ⟨depth, short s.next more, rfl⟩, rfl⟩
    have left : w.size - s.next = w.size - (s.next + 1) + 1 := by omega
    simp only [left, Nat.add_mul]
    omega
  | leave stands none =>
    refine potential.less stands .stopped (fun c cost => ⟨0, ?_, rfl⟩) _ _
    obtain rfl : c = 1 := cost
    exact Nat.one_pos
  | @get left right i k next stands =>
    refine potential.less stands _ (fun c cost => ?_) _ _
    obtain ⟨n, within, rfl⟩ := cost
    cases n with
    | zero => cases within
    | succ n => exact ⟨n + 2, by omega, n, within _, rfl⟩
  | @set left right i k v next stands =>
    refine potential.less stands _ (fun c cost => ?_) _ _
    obtain ⟨n, within, rfl⟩ := cost
    cases n with
    | zero => cases within
    | succ n => exact ⟨n + 2, by omega, n, within, rfl⟩
  | done stands =>
    refine potential.less stands .idle (fun c cost => ⟨1, ?_, rfl⟩) _ _
    obtain ⟨n, -, rfl⟩ := cost
    omega
  | fail stands =>
    refine potential.less stands .stopped (fun c cost => ⟨0, ?_, rfl⟩) _ _
    obtain ⟨n, -, rfl⟩ := cost
    omega
  | crash stands =>
    obtain ⟨total, costs, rfl⟩ := potential
    refine ⟨_, ?_, total, costs, rfl⟩
    simp [running]

theorem Crew.Potential.turn {m : Nat} (short : ∀ i < w.size, (w.job i).Within depth)
    (potential : s.Potential w depth m) (turn : Turn good w s t) : ∃ m' < m, t.Potential w depth m' := by
  obtain ⟨running, cache, -, step⟩ := turn
  have same : Crew.Potential w depth { s with cache } m := potential
  exact same.step short running step

theorem Crew.Potential.run {m n : Nat} (short : ∀ i < w.size, (w.job i).Within depth)
    (potential : s.Potential w depth m) (run : Run good w s n t) :
    ∃ rest, t.Potential w depth rest ∧ n + rest ≤ m := by
  induction run with
  | refl => exact ⟨m, potential, by omega⟩
  | turn before last ih =>
    obtain ⟨rest, left, total⟩ := ih
    obtain ⟨rest', less, left'⟩ := left.turn short last
    exact ⟨rest', left', by omega⟩

theorem Run.length_le {cache : (k : K) → Option (V k)} {routines n : Nat}
    (short : ∀ i < w.size, (w.job i).Within depth) (run : Run good w (Crew.start cache routines) n t) :
    n ≤ routines + w.size * (depth + 2) + 1 := by
  obtain ⟨rest, -, total⟩ := (Crew.Potential.start cache routines).run short run
  omega

omit [DecidableEq K] in
theorem exists_other_worker (s : Crew V ε α) (working : ¬ ∀ x ∈ s.workers, x = .stopped) :
    ∃ left x right, s.workers = left ++ x :: right ∧ x ≠ .stopped := by
  obtain ⟨x, present, other⟩ : ∃ x ∈ s.workers, x ≠ .stopped := by
    by_contra none
    exact working fun x present => not_not.mp fun other => none ⟨x, present, other⟩
  obtain ⟨left, right, stands⟩ := List.append_of_mem present
  exact ⟨left, x, right, stands, other⟩

theorem exists_turn (good : (k : K) → V k → Prop) (w : Work V ε α) (running : ¬ s.Ended) :
    ∃ t, Turn good w s t := by
  obtain ⟨standing, working⟩ := not_or.mp running
  have standing : s.crashed = false := Bool.eq_false_iff.mpr standing
  suffices next : ∃ t, Step w { s with cache := fun _ => none } t by
    obtain ⟨t, step⟩ := next
    refine ⟨t, standing, _, ?_, step⟩
    intro k v entry
    cases entry
  obtain ⟨left, x, right, stands, other⟩ := exists_other_worker s working
  cases x with
  | idle =>
    by_cases more : s.next < w.size
    · exact ⟨_, .take stands more⟩
    · exact ⟨_, .leave stands more⟩
  | busy i p =>
    cases p with
    | done r =>
      cases r with
      | ok a => exact ⟨_, .done stands⟩
      | error e => exact ⟨_, .fail stands⟩
    | crash => exact ⟨_, .crash stands⟩
    | get k next => exact ⟨_, .get stands⟩
    | set k v next => exact ⟨_, .set stands⟩
  | stopped => exact absurd rfl other

theorem Run.trans {u : Crew V ε α} {m n : Nat} (first : Run good w s m t) (second : Run good w t n u) :
    Run good w s (m + n) u := by
  induction second with
  | refl => exact first
  | turn before last ih => exact .turn ih last

theorem exists_end (good : (k : K) → V k → Prop) (short : ∀ i < w.size, (w.job i).Within depth) :
    ∀ {m : Nat} {s : Crew V ε α}, s.Potential w depth m → ∃ n t, Run good w s n t ∧ t.Ended := by
  intro m
  induction m using Nat.strongRecOn with
  | _ m ih =>
    intro s potential
    by_cases ended : s.Ended
    · exact ⟨0, s, .refl, ended⟩
    · obtain ⟨t, last⟩ := exists_turn good w ended
      obtain ⟨m', less, left⟩ := potential.turn short last
      obtain ⟨n, u, run, done⟩ := ih m' less left
      exact ⟨1 + n, u, (Run.refl.turn last).trans run, done⟩

end Length

/-! ## What a run does -/

section Results

variable {good : (k : K) → V k → Prop} {w : Work V ε α} {verdict : Nat → Option (Except ε α)}
  {cache : (k : K) → Option (V k)} {routines : Nat} {t : Crew V ε α}

/-- At its end, a run that did not crash has worked on each number that fewer numbers before
fail than there are workers. -/
theorem mem_indices_iff (ends : ∀ i < w.size, (w.job i).Ends good (verdict i))
    (coherent : Coherent good cache) {n : Nat} (run : Run good w (Crew.start cache routines) n t)
    (standing : t.crashed = false) (ended : t.Ended) (i : Nat) :
    i ∈ t.log.map Prod.fst ↔ i < w.size ∧ failures verdict i < routines := by
  have inv := (Crew.Inv.start coherent).run ends run
  have stopped : ∀ x ∈ t.workers, x = .stopped := by
    rcases ended with crashed | stopped
    · rw [standing] at crashed
      cases crashed
    · exact stopped
  have none : t.workers.filterMap Worker.index? = [] := by
    refine List.filterMap_eq_nil_iff.mpr fun x present => ?_
    rw [stopped x present]
    rfl
  have indices := inv.indices
  rw [none, List.append_nil] at indices
  rw [indices.mem_iff, List.mem_range]
  constructor
  · intro below
    exact ⟨below.trans_le inv.taken, inv.reached i below⟩
  · rintro ⟨below, few⟩
    -- a number left over would mean that all workers had failed before
    by_contra left
    have more : t.next < w.size := by omega
    have all : t.workers.countP (Worker.spent verdict) = t.workers.length :=
      List.countP_eq_length.mpr fun x present => by rw [stopped x present]; rfl
    have failed := inv.spent more
    rw [all, inv.crew] at failed
    have mono := failures_mono verdict (not_lt.mp left)
    omega

theorem exists_crash {depth : Nat} (short : ∀ i < w.size, (w.job i).Within depth)
    (ends : ∀ i < w.size, (w.job i).Ends good (verdict i)) (coherent : Coherent good cache) {i : Nat}
    (below : i < w.size) (few : failures verdict i < routines) (crashes : verdict i = none) :
    ∃ n t, Run good w (Crew.start cache routines) n t ∧ t.crashed = true := by
  have left : (Crew.start cache routines).Potential w depth _ := .start cache routines
  obtain ⟨n, t, run, ended⟩ := exists_end good short left
  refine ⟨n, t, run, ?_⟩
  cases standing : t.crashed with
  | true => rfl
  | false =>
    have taken := mem_indices_iff ends coherent run standing ended i
    obtain ⟨⟨i', r⟩, present, rfl⟩ := List.mem_map.mp (taken.mpr ⟨below, few⟩)
    have result := ((Crew.Inv.start coherent).run ends run).logged _ present
    rw [crashes] at result
    cases result

theorem never_crashes_iff {depth : Nat} (short : ∀ i < w.size, (w.job i).Within depth)
    (ends : ∀ i < w.size, (w.job i).Ends good (verdict i)) (coherent : Coherent good cache) :
    (∀ n t, Run good w (Crew.start cache routines) n t → t.crashed = false) ↔
      ∀ i < w.size, failures verdict i < routines → verdict i ≠ none := by
  constructor
  · intro never i below few crashes
    obtain ⟨n, t, run, crashed⟩ := exists_crash short ends coherent below few crashes
    rw [never n t run] at crashed
    cases crashed
  · intro safe n t run
    have first : (Crew.start cache routines).Inv good w verdict routines := .start coherent
    have inv := first.run ends run
    cases crashed : t.crashed with
    | false => rfl
    | true =>
      obtain ⟨i, below, none⟩ := inv.crashed crashed
      exact absurd none (safe i (below.trans_le inv.taken) (inv.reached i below))

end Results

end P2PoolObserver.Lib.Workers
