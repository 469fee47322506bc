/-
# Mempool.PerfectSum -- selections that pay an exact fee (`mempool.go`)

`PerfectSum` goes through all selections, each transaction taken before it is left out, and sends
those whose fees add up to the target.  A branch ends as soon as the sum is reached or passed,
which loses nothing as long as every fee is positive.

All partial selections live in one array: `append` writes the next transaction behind the
current selection, over what an earlier branch left there.  What is sent is a copy, so that the
receiver sees no later write (`perfectSumRecursion_shows`).
-/
import P2PoolObserver.Lib.Backing
import P2PoolObserver.Mempool.Pick
import Mathlib.Data.List.Sublists

namespace P2PoolObserver.Mempool

open Lib

/-! ## The source -/

/-- The arrays behind all slices, what was sent, and both after each write so far. -/
structure Search where
  arrays : Arrays MempoolEntry
  sent : List BackedSlice
  moments : List (Arrays MempoolEntry × List BackedSlice)

namespace Search

def next (s : Search) (arrays : Arrays MempoolEntry) (sent : List BackedSlice) : Search :=
  ⟨arrays, sent, s.moments ++ [(arrays, sent)]⟩

def append (grow : Nat → Nat) (s : Search) (m2 : BackedSlice) (e : MempoolEntry) : BackedSlice × Search :=
  let (m3, arrays) := s.arrays.append grow m2 e
  (m3, s.next arrays s.sent)

def send (grow : Nat → Nat) (s : Search) (m2 : BackedSlice) : Search :=
  let (copy, arrays) := s.arrays.clone grow m2
  let s := s.next arrays s.sent
  s.next s.arrays (s.sent ++ [copy])

end Search

section Source

variable (grow : Nat → Nat) (targetFee : UInt64)

/-- `perfectSumRecursion` on the transactions from the index on; the pointer `top` serves the log. -/
def perfectSumRecursion : Mempool → UInt64 → BackedSlice → Search → Search
  | [], currentSum, m2, s => if currentSum = targetFee then s.send grow m2 else s
  | e :: rest, currentSum, m2, s =>
    if currentSum = targetFee then s.send grow m2
    else if currentSum < targetFee then
      let (m3, s) := s.append grow m2 e
      let s := perfectSumRecursion rest (currentSum + e.fee) m3 s
      perfectSumRecursion rest currentSum m2 s
    else s

def perfectSum (m : Mempool) : Search :=
  let (m2, arrays) := Arrays.make [] m.length
  perfectSumRecursion grow targetFee m 0 m2 ⟨arrays, [], [(arrays, [])]⟩

end Source

/-! ## The selections -/

section Selections

variable {α : Type}

def matching (fee : α → Nat) (target sum : Nat) (xs : List α) : List (List α) :=
  xs.sublists'.reverse.filter fun chosen => sum + (chosen.map fee).sum = target

theorem matching_cons (fee : α → Nat) (target sum : Nat) (x : α) (xs : List α) :
    matching fee target sum (x :: xs) =
      (matching fee target (sum + fee x) xs).map (x :: ·) ++ matching fee target sum xs := by
  unfold matching
  rw [List.sublists'_cons, List.reverse_append, List.filter_append, ← List.map_reverse, List.filter_map]
  congr 3
  funext chosen
  simp [Nat.add_assoc]

theorem matching_nil (fee : α → Nat) {target sum : Nat} (other : sum ≠ target) : matching fee target sum [] = [] := by
  simp [matching, other]

theorem matching_passed (fee : α → Nat) {target sum : Nat} (passed : target < sum) (xs : List α) :
    matching fee target sum xs = [] := by
  refine List.filter_eq_nil_iff.mpr fun chosen _ => ?_
  simp only [decide_eq_true_eq]
  omega

theorem matching_done (fee : α → Nat) (target : Nat) : ∀ {xs : List α}, (∀ x ∈ xs, 0 < fee x) →
    matching fee target target xs = [[]] := by
  intro xs
  induction xs with
  | nil => simp [matching]
  | cons x xs ih =>
    intro positive
    obtain ⟨first, rest⟩ := List.forall_mem_cons.mp positive
    rw [matching_cons, matching_passed fee (Nat.lt_add_of_pos_right first), ih rest]
    rfl

theorem matching_map {β : Type} (f : α → β) (fee : β → Nat) (target sum : Nat) (xs : List α) :
    matching fee target sum (xs.map f) = (matching (fee ∘ f) target sum xs).map (List.map f) := by
  unfold matching
  rw [List.sublists'_map, ← List.map_reverse, List.filter_map]
  congr 2
  funext chosen
  simp

end Selections

/-! ## The recursion -/

/-- What was sent reads as `results`, was a part of them at every moment, and lies in no cell that is
still written. -/
structure Search.Shows (a : Nat) (s : Search) (results : List Mempool) : Prop where
  apart : ∀ t ∈ s.sent, Arrays.Apart a s.arrays t
  sent : s.sent.map s.arrays.read = results.map (List.map some)
  moments : ∀ p ∈ s.moments, p.2.map p.1.read <+: results.map (List.map some)

namespace Search.Shows

variable {a : Nat} {s : Search} {results : List Mempool}

theorem keep (shows : s.Shows a results) {arrays : Arrays MempoolEntry} (keeps : Arrays.Keeps a s.arrays arrays) :
    (s.next arrays s.sent).Shows a results := by
  have sent : s.sent.map arrays.read = results.map (List.map some) := by
    rw [← shows.sent]
    exact List.map_congr_left fun t present => keeps.read (shows.apart t present)
  refine ⟨fun t present => keeps.apart (shows.apart t present), sent, fun p present => ?_⟩
  rcases List.mem_append.mp present with before | now
  · exact shows.moments p before
  · rw [List.mem_singleton.mp now, sent]

theorem send (grow : Nat → Nat) {m2 : BackedSlice} {chosen : Mempool} (shows : s.Shows m2.array results)
    (holds : s.arrays.Holds m2 chosen) : (s.send grow m2).Shows m2.array (results ++ [chosen]) := by
  have kept := shows.keep (Arrays.clone_keeps grow m2.array s.arrays m2)
  have sent : (s.sent ++ [(s.arrays.clone grow m2).1]).map (s.arrays.clone grow m2).2.read =
      (results ++ [chosen]).map (List.map some) := by
    rw [List.map_append, List.map_append, ← kept.sent, List.map_singleton, Arrays.clone_read grow holds]
    rfl
  refine ⟨fun t present => ?_, sent, fun p present => ?_⟩
  · rcases List.mem_append.mp present with before | new
    · exact kept.apart t before
    · rw [List.mem_singleton.mp new]
      exact Arrays.clone_apart grow holds.present
  · rcases List.mem_append.mp present with before | now
    · rw [List.map_append]
      exact (kept.moments p before).trans (List.prefix_append _ _)
    · rw [List.mem_singleton.mp now]
      exact sent ▸ List.prefix_rfl

end Search.Shows

theorem send_shows (grow : Nat → Nat) {targetFee : UInt64} {rest : Mempool} {m2 : BackedSlice} {s : Search}
    {chosen : Mempool} {results : List Mempool} (positive : ∀ e ∈ rest, 0 < e.fee)
    (shows : s.Shows m2.array results) (holds : s.arrays.Holds m2 chosen) :
    (s.send grow m2).Shows m2.array (results ++
        (matching (fun e => e.fee.toNat) targetFee.toNat targetFee.toNat rest).map (chosen ++ ·)) ∧
      (s.send grow m2).arrays.Holds m2 chosen := by
  rw [matching_done _ _ fun e present => UInt64.lt_iff_toNat_lt.mp (positive e present), List.map_singleton,
    List.append_nil]
  exact ⟨shows.send grow holds, Arrays.clone_holds grow holds⟩

/-- By induction on the transactions that are left.  The array of the partial selections is written
behind the selection only, so that it still holds it when the branch comes back. -/
theorem perfectSumRecursion_shows (grow : Nat → Nat) (targetFee : UInt64) : ∀ {rest : Mempool} {currentSum : UInt64}
    {m2 : BackedSlice} {s : Search} {chosen : Mempool} {results : List Mempool},
    (∀ e ∈ rest, 0 < e.fee) → currentSum.toNat + (rest.map fun e => e.fee.toNat).sum < 2 ^ 64 →
    s.Shows m2.array results → s.arrays.Holds m2 chosen → m2.len + rest.length ≤ m2.cap →
      (perfectSumRecursion grow targetFee rest currentSum m2 s).Shows m2.array (results ++
          (matching (fun e => e.fee.toNat) targetFee.toNat currentSum.toNat rest).map (chosen ++ ·)) ∧
        (perfectSumRecursion grow targetFee rest currentSum m2 s).arrays.Holds m2 chosen := by
  intro rest
  induction rest with
  | nil =>
    intro currentSum m2 s chosen results positive fits shows holds room
    rw [perfectSumRecursion]
    split_ifs with reached
    · subst reached
      exact send_shows grow positive shows holds
    · rw [matching_nil _ fun same => reached (UInt64.toNat_inj.mp same), List.map_nil, List.append_nil]
      exact ⟨shows, holds⟩
  | cons e rest ih =>
    intro currentSum m2 s chosen results positive fits shows holds room
    rw [perfectSumRecursion]
    split_ifs with reached below
    · subst reached
      exact send_shows grow positive shows holds
    · obtain ⟨-, positive⟩ := List.forall_mem_cons.mp positive
      rw [List.map_cons, List.sum_cons] at fits
      rw [List.length_cons] at room
      have sum : (currentSum + e.fee).toNat = currentSum.toNat + e.fee.toNat := by
        rw [UInt64.toNat_add, Nat.mod_eq_of_lt (by omega)]
      have fitsTaken : (currentSum + e.fee).toNat + (rest.map fun e => e.fee.toNat).sum < 2 ^ 64 := by omega
      have fitsLeft : currentSum.toNat + (rest.map fun e => e.fee.toNat).sum < 2 ^ 64 := by omega
      have fresh : m2.len < m2.cap := by omega
      have longer : (s.arrays.append grow m2 e).1 = { m2 with len := m2.len + 1 } := by
        rw [Arrays.append, if_pos fresh]
      have kept : (s.append grow m2 e).2.Shows ({ m2 with len := m2.len + 1 } : BackedSlice).array results :=
        shows.keep (Arrays.append_keeps grow s.arrays m2 e)
      have held := Arrays.append_holds grow holds fresh e
      rw [longer] at held
      -- the branch that takes the transaction, and then, with the same selection, the one that leaves it
      obtain ⟨taken, held⟩ := ih positive fitsTaken kept held (by dsimp only; omega)
      have back := held.shorter
      rw [← holds.len] at back
      have both := @ih currentSum m2 _ chosen _ positive fitsLeft taken back (by omega)
      have found : (matching (fun e => e.fee.toNat) targetFee.toNat currentSum.toNat (e :: rest)).map (chosen ++ ·) =
          (matching (fun e => e.fee.toNat) targetFee.toNat (currentSum + e.fee).toNat rest).map (chosen ++ [e] ++ ·) ++
            (matching (fun e => e.fee.toNat) targetFee.toNat currentSum.toNat rest).map (chosen ++ ·) := by
        rw [matching_cons, List.map_append, List.map_map, sum]
        congr 2
        funext more
        simp
      rw [found, ← List.append_assoc]
      dsimp only [Search.append]
      rw [longer]
      exact both
    · have passed : targetFee.toNat < currentSum.toNat := by
        rw [UInt64.lt_iff_toNat_lt] at below
        rw [← UInt64.toNat_inj] at reached
        omega
      rw [matching_passed _ passed, List.map_nil, List.append_nil]
      exact ⟨shows, holds⟩

/-! ## The whole search -/

def entries (m : Mempool) (indices : List Nat) : List (Option MempoolEntry) := indices.map fun i => m[i]?

def feeSum (m : Mempool) (indices : List Nat) : Nat :=
  (indices.map fun i => (m[i]?.map fun e => e.fee.toNat).getD 0).sum

theorem matching_eq_entries (m : Mempool) (target : Nat) :
    (matching (fun e => e.fee.toNat) target 0 m).map (List.map some) =
      (matching (fun i => (m[i]?.map fun e => e.fee.toNat).getD 0) target 0 (List.range m.length)).map m.entries := by
  have byIndex : m.map some = (List.range m.length).map fun i => m[i]? := by
    refine List.ext_getElem? fun i => ?_
    by_cases inside : i < m.length
    · simp [inside]
    · simp [Nat.not_lt.mp inside]
  have byValue := matching_map some (fun o : Option MempoolEntry => (o.map fun e => e.fee.toNat).getD 0) target 0 m
  rw [byIndex, matching_map] at byValue
  exact byValue.symm

/-- The search sends exactly the selections of indices, in order, whose fees add up to the target,
each once; and at every moment a receiver reads from what was sent by then the first of them. -/
theorem perfectSum_enumerates (grow : Nat → Nat) (m : Mempool) (targetFee : UInt64)
    (positive : ∀ e ∈ m, 0 < e.fee) (fits : (m.map fun e => e.fee.toNat).sum < 2 ^ 64) :
    ∃ selections : List (List Nat), selections.Nodup ∧
      (∀ indices, indices ∈ selections ↔
        indices.Sublist (List.range m.length) ∧ feeSum m indices = targetFee.toNat) ∧
      (perfectSum grow targetFee m).sent.map (perfectSum grow targetFee m).arrays.read =
        selections.map m.entries ∧
      ∀ p ∈ (perfectSum grow targetFee m).moments, p.2.map p.1.read <+: selections.map m.entries := by
  have start : Search.Shows (Arrays.make [] m.length : BackedSlice × Arrays MempoolEntry).1.array
      ⟨(Arrays.make [] m.length).2, [], [((Arrays.make [] m.length).2, [])]⟩ [] := by
    refine ⟨nofun, rfl, fun p present => ?_⟩
    rw [List.mem_singleton.mp present]
    exact List.prefix_rfl
  have room : (Arrays.make [] m.length : BackedSlice × Arrays MempoolEntry).1.len + m.length ≤
      (Arrays.make [] m.length : BackedSlice × Arrays MempoolEntry).1.cap := (Nat.zero_add _).le
  have sum : (0 : UInt64).toNat + (m.map fun e => e.fee.toNat).sum < 2 ^ 64 := by
    rw [UInt64.toNat_zero, Nat.zero_add]
    exact fits
  obtain ⟨shows, -⟩ := perfectSumRecursion_shows grow targetFee positive sum start (Arrays.make_holds [] m.length) room
  have values : ∀ xss : List Mempool, xss.map (([] : Mempool) ++ ·) = xss := fun xss => List.map_id xss
  rw [List.nil_append, values] at shows
  refine ⟨matching (fun i => (m[i]?.map fun e => e.fee.toNat).getD 0) targetFee.toNat 0 (List.range m.length),
    ?_, fun indices => ?_, ?_, fun p present => ?_⟩
  · exact (List.nodup_reverse.mpr (List.nodup_sublists'.mpr List.nodup_range)).filter _
  · rw [matching, List.mem_filter, List.mem_reverse, List.mem_sublists', decide_eq_true_eq, Nat.zero_add]
    rfl
  · rw [← matching_eq_entries]
    exact shows.sent
  · rw [← matching_eq_entries]
    exact shows.moments p present

/-- A pool of three, two selections of which pay 5. -/
theorem perfectSum_three : ∃ selections : List (List Nat), selections.Nodup ∧
      (∀ indices, indices ∈ selections ↔ indices.Sublist (List.range 3) ∧
        feeSum [⟨1, 10, 2⟩, ⟨2, 10, 3⟩, ⟨3, 10, 3⟩] indices = 5) ∧
      (perfectSum id 5 [⟨1, 10, 2⟩, ⟨2, 10, 3⟩, ⟨3, 10, 3⟩]).sent.map
          (perfectSum id 5 [⟨1, 10, 2⟩, ⟨2, 10, 3⟩, ⟨3, 10, 3⟩]).arrays.read =
        selections.map (entries [⟨1, 10, 2⟩, ⟨2, 10, 3⟩, ⟨3, 10, 3⟩]) ∧
      ∀ p ∈ (perfectSum id 5 [⟨1, 10, 2⟩, ⟨2, 10, 3⟩, ⟨3, 10, 3⟩]).moments,
        p.2.map p.1.read <+: selections.map (entries [⟨1, 10, 2⟩, ⟨2, 10, 3⟩, ⟨3, 10, 3⟩]) :=
  perfectSum_enumerates id [⟨1, 10, 2⟩, ⟨2, 10, 3⟩, ⟨3, 10, 3⟩] 5 (by decide) (by decide)

end P2PoolObserver.Mempool
