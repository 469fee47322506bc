/-
# Mempool.Pick -- the transactions of a block template (`mempool.go`)

`Pick` goes over the transactions from the best fee per weight down.  A transaction that raises
the reward is to be appended, and above the median weight it may replace one taken before.  One
variable holds both decisions: `k` is the index of the transaction itself, or that of the entry
to replace.  The source sets it to `1`, not to the index, so that only the second transaction is
ever appended, and any other writes behind the end of the selection.
-/
import P2PoolObserver.Lib.Slice
import P2PoolObserver.Types
import Mathlib.Data.List.Perm.Subperm
import Mathlib.Data.List.Sort

namespace P2PoolObserver

open Lib

structure MempoolEntry where
  id : Hash
  weight : UInt64
  fee : UInt64
  deriving DecidableEq

/-- `Compare`; the products are those of the machine. -/
def MempoolEntry.compare (t o : MempoolEntry) : Ordering :=
  let a := t.fee * o.weight
  let b := o.fee * t.weight
  if a > b then .lt
  else if a < b then .gt
  else if t.weight < o.weight then .lt
  else if t.weight > o.weight then .gt
  else t.id.compare o.id

abbrev Mempool := List MempoolEntry

/-- `slices.SortFunc`: with any comparison it permutes the slice. -/
structure SortFunc where
  sort : {α : Type} → (α → α → Ordering) → List α → List α
  perm : ∀ {α : Type} (cmp : α → α → Ordering) (xs : List α), (sort cmp xs).Perm xs

/-- `GetBlockReward`.  The product has 128 bits, and the divisor is not zero: a median weight of
zero has been handled before. -/
def getBlockReward (baseReward medianWeight fees weight : UInt64) : UInt64 :=
  if weight ≤ medianWeight then baseReward + fees
  else if weight > medianWeight * 2 then 0
  else
    UInt64.ofNat (baseReward.toNat * (medianWeight * 2 - weight).toNat / medianWeight.toNat /
      medianWeight.toNat) + fees

namespace Mempool

def fees (m : Mempool) : UInt64 := m.foldl (fun r e => r + e.fee) 0

def weight (m : Mempool) : UInt64 := m.foldl (fun r e => r + e.weight) 0

/-! ## The source -/

structure PickState where
  finalReward : UInt64
  finalFees : UInt64
  finalWeight : UInt64
  m2 : Mempool
  deriving DecidableEq

section Pick

variable (baseReward minerTxWeight medianWeight : UInt64)

def replaceVisit (s : PickState) (best : UInt64 × Int) (j : Nat) : Except Fault (UInt64 × Int) := do
  let prevTx ← index s.m2 j
  let reward2 := getBlockReward baseReward medianWeight (s.finalFees + prevTx.fee) (s.finalWeight + prevTx.weight)
  if reward2 > best.1 then return (reward2, j) else return best

def decideTx (s : PickState) (tx : MempoolEntry) : Except Fault (UInt64 × Int) :=
  let reward := getBlockReward baseReward medianWeight (s.finalFees + tx.fee) (s.finalWeight + tx.weight)
  let best := if reward > s.finalReward then (reward, 1) else (s.finalReward, -1)
  if s.finalWeight + tx.weight > medianWeight then
    -- from the last entry down, not more than 100 deep
    ((List.range s.m2.length).reverse.take 100).foldlM (replaceVisit baseReward medianWeight s) best
  else .ok best

def pickTx (s : PickState) (i : Nat) (tx : MempoolEntry) : Except Fault PickState := do
  let (finalReward, k) ← decideTx baseReward medianWeight s tx
  if k = i then
    return ⟨finalReward, s.finalFees + tx.fee, s.finalWeight + tx.weight, s.m2 ++ [tx]⟩
  else if k ≥ 0 then
    let prevTx ← index s.m2 k.toNat
    let m2 ← store s.m2 k.toNat tx
    return ⟨finalReward, s.finalFees + (tx.fee - prevTx.fee), s.finalWeight + (tx.weight - prevTx.weight), m2⟩
  else return { s with finalReward := finalReward }

def pickLoop : Nat → Mempool → PickState → Except Fault PickState
  | _, [], s => .ok s
  | i, tx :: m, s => do
    let s ← pickTx baseReward medianWeight s i tx
    pickLoop (i + 1) m s

def pickStart : PickState := ⟨baseReward, 0, minerTxWeight, []⟩

def pick (slices : SortFunc) (m : Mempool) : Except Fault Mempool := do
  let s ← pickLoop baseReward medianWeight 0 (slices.sort MempoolEntry.compare m) (pickStart baseReward minerTxWeight)
  return s.m2

end Pick

/-! ## The running totals -/

variable {baseReward minerTxWeight medianWeight : UInt64}
variable {s s' : PickState} {i : Nat} {tx : MempoolEntry}

/-- The running totals are those of the selection. -/
structure PickState.Totals (minerTxWeight : UInt64) (s : PickState) : Prop where
  fees : s.finalFees = s.m2.fees
  weight : s.finalWeight = minerTxWeight + s.m2.weight

theorem foldl_add_eq (f : MempoolEntry → UInt64) : ∀ (m : Mempool) (r : UInt64),
    m.foldl (fun r e => r + f e) r = r + (m.map f).sum := by
  intro m
  induction m with
  | nil => intro r; simp
  | cons e m ih =>
    intro r
    rw [List.foldl_cons, ih, List.map_cons, List.sum_cons, add_assoc]

theorem fees_eq_sum (m : Mempool) : m.fees = (m.map MempoolEntry.fee).sum := by
  rw [fees, foldl_add_eq MempoolEntry.fee, zero_add]

theorem weight_eq_sum (m : Mempool) : m.weight = (m.map MempoolEntry.weight).sum := by
  rw [weight, foldl_add_eq MempoolEntry.weight, zero_add]

theorem sum_map_set (f : MempoolEntry → UInt64) (tx : MempoolEntry) : ∀ {m : Mempool} {k : Nat} {prev : MempoolEntry},
    m[k]? = some prev → ((m.set k tx).map f).sum = (m.map f).sum + (f tx - f prev) := by
  intro m
  induction m with
  | nil => exact fun there => nomatch there
  | cons e m ih =>
    intro k prev there
    cases k with
    | zero =>
      cases there
      simp only [List.set_cons_zero, List.map_cons, List.sum_cons]
      grind
    | succ k =>
      rw [List.set_cons_succ, List.map_cons, List.map_cons, List.sum_cons, List.sum_cons, ih there,
        UInt64.add_assoc]

theorem pickTx_cases (run : pickTx baseReward medianWeight s i tx = .ok s') : ∃ finalReward,
      s' = ⟨finalReward, s.finalFees + tx.fee, s.finalWeight + tx.weight, s.m2 ++ [tx]⟩ ∨
      (∃ k prev, s.m2[k]? = some prev ∧ s' = ⟨finalReward, s.finalFees + (tx.fee - prev.fee),
        s.finalWeight + (tx.weight - prev.weight), s.m2.set k tx⟩) ∨
      s' = { s with finalReward := finalReward } := by
  unfold pickTx at run
  dsimp only [bind, Except.bind, pure, Except.pure] at run
  cases decided : decideTx baseReward medianWeight s tx with
  | error e =>
    rw [decided] at run
    cases run
  | ok decision =>
    obtain ⟨finalReward, k⟩ := decision
    rw [decided] at run
    refine ⟨finalReward, ?_⟩
    dsimp only at run
    split_ifs at run with here taken
    · cases run
      exact .inl rfl
    · cases there : s.m2[k.toNat]? with
      | none =>
        rw [index, there] at run
        cases run
      | some prev =>
        have inRange : k.toNat < s.m2.length := (List.getElem?_eq_some_iff.mp there).1
        rw [index_of_getElem? there, store_of_lt inRange] at run
        cases run
        exact .inr (.inl ⟨k.toNat, prev, there, rfl⟩)
    · cases run
      exact .inr (.inr rfl)

theorem pickTx_totals (run : pickTx baseReward medianWeight s i tx = .ok s') (totals : s.Totals minerTxWeight) :
    s'.Totals minerTxWeight := by
  obtain ⟨fees, weight⟩ := totals
  rw [fees_eq_sum] at fees
  rw [weight_eq_sum] at weight
  obtain ⟨finalReward, rfl | ⟨k, prev, there, rfl⟩ | rfl⟩ := pickTx_cases run
  · constructor
    · simp [fees_eq_sum, fees]
    · simp [weight_eq_sum, weight, UInt64.add_assoc]
  · constructor
    · simp only [fees_eq_sum, fees, sum_map_set MempoolEntry.fee tx there]
    · simp only [weight_eq_sum, weight, sum_map_set MempoolEntry.weight tx there, UInt64.add_assoc]
  · exact ⟨by rw [fees_eq_sum]; exact fees, by rw [weight_eq_sum]; exact weight⟩

theorem pickTx_subperm {seen : Mempool}
    (run : pickTx baseReward medianWeight s i tx = .ok s') (members : s.m2.Subperm seen) :
    s'.m2.Subperm (seen ++ [tx]) := by
  obtain ⟨finalReward, rfl | ⟨k, prev, there, rfl⟩ | rfl⟩ := pickTx_cases run
  · exact members.append (List.Subperm.refl [tx])
  · have inRange : k < s.m2.length := (List.getElem?_eq_some_iff.mp there).1
    have others : (s.m2.eraseIdx k).Subperm seen := (List.eraseIdx_sublist s.m2 k).subperm.trans members
    have moved : (s.m2.set k tx).Perm (tx :: s.m2.eraseIdx k) := List.set_perm_cons_eraseIdx inRange tx
    exact (moved.trans (List.perm_append_singleton tx _).symm).subperm.trans
      (others.append (List.Subperm.refl [tx]))
  · exact members.trans (List.sublist_append_left seen [tx]).subperm

theorem pickLoop_inv : ∀ {m seen : Mempool} {i : Nat},
    pickLoop baseReward medianWeight i m s = .ok s' → s.Totals minerTxWeight → s.m2.Subperm seen →
      s'.Totals minerTxWeight ∧ s'.m2.Subperm (seen ++ m) := by
  intro m
  induction m generalizing s with
  | nil =>
    intro seen i run totals members
    cases run
    rw [List.append_nil]
    exact ⟨totals, members⟩
  | cons tx m ih =>
    intro seen i run totals members
    rw [pickLoop] at run
    dsimp only [bind, Except.bind] at run
    cases step : pickTx baseReward medianWeight s i tx with
    | error e =>
      rw [step] at run
      cases run
    | ok next =>
      rw [step] at run
      rw [List.append_cons]
      exact ih run (pickTx_totals step totals) (pickTx_subperm step members)

/-! ## What is selected -/

section Selected

variable (baseReward minerTxWeight medianWeight)

def alone (x : MempoolEntry) : UInt64 := getBlockReward baseReward medianWeight x.fee (minerTxWeight + x.weight)

def both (x t : MempoolEntry) : UInt64 :=
  getBlockReward baseReward medianWeight (x.fee + t.fee) (minerTxWeight + x.weight + t.weight)

/-- The transaction `t` replaces `x`: the source compares the reward with `x` taken twice. -/
def Replaces (reward : UInt64) (x t : MempoolEntry) : Prop :=
  medianWeight < minerTxWeight + x.weight + t.weight ∧
    reward < both baseReward minerTxWeight medianWeight x x ∧
    both baseReward minerTxWeight medianWeight x t < both baseReward minerTxWeight medianWeight x x

instance (reward : UInt64) (x t : MempoolEntry) :
    Decidable (Replaces baseReward minerTxWeight medianWeight reward x t) := inferInstanceAs (Decidable (_ ∧ _))

/-- With `x` selected, no later transaction raises the reward without replacing the selected
one, and the last one selected pays. -/
def Survives (reward : UInt64) (x : MempoolEntry) : Mempool → Prop
  | [] => baseReward ≤ alone baseReward minerTxWeight medianWeight x
  | t :: m =>
    if Replaces baseReward minerTxWeight medianWeight reward x t then
      Survives (both baseReward minerTxWeight medianWeight x x) t m
    else both baseReward minerTxWeight medianWeight x t ≤ reward ∧ Survives reward x m

instance decidableSurvives : ∀ (reward : UInt64) (x : MempoolEntry) (m : Mempool),
    Decidable (Survives baseReward minerTxWeight medianWeight reward x m)
  | _, _, [] => inferInstanceAs (Decidable (_ ≤ _))
  | reward, x, t :: m =>
    have := decidableSurvives (both baseReward minerTxWeight medianWeight x x) t m
    have := decidableSurvives reward x m
    inferInstanceAs (Decidable (if Replaces baseReward minerTxWeight medianWeight reward x t then
      Survives baseReward minerTxWeight medianWeight (both baseReward minerTxWeight medianWeight x x) t m
      else both baseReward minerTxWeight medianWeight x t ≤ reward ∧
        Survives baseReward minerTxWeight medianWeight reward x m))

/-- The first transaction does not raise the reward; if the second does, it is the one selected,
and otherwise no later one does. -/
def SafePool : Mempool → Prop
  | [] => True
  | [first] => alone baseReward minerTxWeight medianWeight first ≤ baseReward
  | first :: second :: m =>
    alone baseReward minerTxWeight medianWeight first ≤ baseReward ∧
      if baseReward < alone baseReward minerTxWeight medianWeight second then
        Survives baseReward minerTxWeight medianWeight (alone baseReward minerTxWeight medianWeight second) second m
      else ∀ t ∈ m, alone baseReward minerTxWeight medianWeight t ≤ baseReward

instance : ∀ m : Mempool, Decidable (SafePool baseReward minerTxWeight medianWeight m)
  | [] => inferInstanceAs (Decidable True)
  | [_] => inferInstanceAs (Decidable (_ ≤ _))
  | first :: second :: m =>
    inferInstanceAs (Decidable (alone baseReward minerTxWeight medianWeight first ≤ baseReward ∧
      if baseReward < alone baseReward minerTxWeight medianWeight second then
        Survives baseReward minerTxWeight medianWeight (alone baseReward minerTxWeight medianWeight second) second m
      else ∀ t ∈ m, alone baseReward minerTxWeight medianWeight t ≤ baseReward))

def PickState.single (reward : UInt64) (x : MempoolEntry) : PickState :=
  ⟨reward, x.fee, minerTxWeight + x.weight, [x]⟩

end Selected

theorem pickTx_start (i : Nat) (t : MempoolEntry) :
    pickTx baseReward medianWeight (pickStart baseReward minerTxWeight) i t =
      if baseReward < alone baseReward minerTxWeight medianWeight t then
        if i = 1 then .ok (.single minerTxWeight (alone baseReward minerTxWeight medianWeight t) t)
        else .error (.panic "index out of range")
      else .ok (pickStart baseReward minerTxWeight) := by
  have decided : decideTx baseReward medianWeight (pickStart baseReward minerTxWeight) t =
      .ok (if baseReward < alone baseReward minerTxWeight medianWeight t then
        (alone baseReward minerTxWeight medianWeight t, 1) else (baseReward, -1)) := by
    simp only [decideTx, pickStart, UInt64.zero_add, List.length_nil, List.range_zero, List.reverse_nil,
      List.take_nil, List.foldlM_nil]
    exact ite_self _
  unfold pickTx
  rw [decided]
  dsimp only [bind, Except.bind, pure, Except.pure]
  by_cases gain : baseReward < alone baseReward minerTxWeight medianWeight t
  · rw [if_pos gain, if_pos gain]
    by_cases second : i = 1
    · subst second
      simp [pickStart, PickState.single]
    · have other : ¬ (1 : Int) = i := by omega
      rw [if_neg second]
      dsimp only
      rw [if_neg other, if_pos (by omega)]
      rfl
  · rw [if_neg gain, if_neg gain]
    dsimp only
    rw [if_neg (by omega), if_neg (by omega)]
    rfl

theorem decideTx_single (reward : UInt64) (x t : MempoolEntry) :
    decideTx baseReward medianWeight (.single minerTxWeight reward x) t =
      .ok (if Replaces baseReward minerTxWeight medianWeight reward x t then
          (both baseReward minerTxWeight medianWeight x x, 0)
        else if reward < both baseReward minerTxWeight medianWeight x t then
          (both baseReward minerTxWeight medianWeight x t, 1)
        else (reward, -1)) := by
  have better : ∀ twice : UInt64, (if reward < both baseReward minerTxWeight medianWeight x t then
      (both baseReward minerTxWeight medianWeight x t, (1 : Int)) else (reward, -1)).1 < twice ↔
        reward < twice ∧ both baseReward minerTxWeight medianWeight x t < twice := by
    intro twice
    split_ifs with gain
    · exact ⟨fun more => ⟨UInt64.lt_trans gain more, more⟩, And.right⟩
    · exact ⟨fun more => ⟨more, UInt64.lt_of_le_of_lt (UInt64.not_lt.mp gain) more⟩, And.left⟩
  unfold decideTx Replaces
  change (if medianWeight < minerTxWeight + x.weight + t.weight then
    (replaceVisit baseReward medianWeight (.single minerTxWeight reward x)
      (if reward < both baseReward minerTxWeight medianWeight x t then
        (both baseReward minerTxWeight medianWeight x t, (1 : Int)) else (reward, -1)) 0 >>= pure) else _) = _
  rw [bind_pure]
  by_cases heavy : medianWeight < minerTxWeight + x.weight + t.weight
  · rw [if_pos heavy]
    change (if _ < both baseReward minerTxWeight medianWeight x x then _ else _) = _
    simp only [better, heavy, true_and]
    split_ifs
    · rfl
    · rfl
    · rfl
  · simp only [heavy, false_and, if_false]
    rfl

theorem pickTx_single {i : Nat} (late : 1 < i) (reward : UInt64) (x t : MempoolEntry) :
    pickTx baseReward medianWeight (.single minerTxWeight reward x) i t =
      if Replaces baseReward minerTxWeight medianWeight reward x t then
        .ok (.single minerTxWeight (both baseReward minerTxWeight medianWeight x x) t)
      else if both baseReward minerTxWeight medianWeight x t ≤ reward then .ok (.single minerTxWeight reward x)
      else .error (.panic "index out of range") := by
  unfold pickTx
  rw [decideTx_single]
  dsimp only [bind, Except.bind, pure, Except.pure]
  by_cases replaces : Replaces baseReward minerTxWeight medianWeight reward x t
  · have fees : x.fee + (t.fee - x.fee) = t.fee := by grind
    have weight : minerTxWeight + x.weight + (t.weight - x.weight) = minerTxWeight + t.weight := by grind
    rw [if_pos replaces, if_pos replaces]
    dsimp only
    rw [if_neg (by omega), if_pos (by omega)]
    simp [PickState.single, index, store, fees, weight]
  · rw [if_neg replaces, if_neg replaces]
    by_cases gain : reward < both baseReward minerTxWeight medianWeight x t
    · rw [if_pos gain, if_neg (UInt64.not_le.mpr gain)]
      dsimp only
      rw [if_neg (by omega), if_pos (by omega)]
      rfl
    · rw [if_neg gain, if_pos (UInt64.not_lt.mp gain)]
      dsimp only
      rw [if_neg (by omega), if_neg (by omega)]
      rfl

def Pays (baseReward minerTxWeight medianWeight : UInt64) (m : Mempool) : Prop :=
  baseReward ≤ getBlockReward baseReward medianWeight m.fees (minerTxWeight + m.weight)

theorem pays_single (x : MempoolEntry) : Pays baseReward minerTxWeight medianWeight [x] ↔
    baseReward ≤ alone baseReward minerTxWeight medianWeight x := by
  simp [Pays, alone, fees, weight]

theorem pickLoop_single : ∀ {m : Mempool} {i : Nat} {reward : UInt64} {x : MempoolEntry}, 1 < i →
    ((∃ s, pickLoop baseReward medianWeight i m (.single minerTxWeight reward x) = .ok s ∧
      Pays baseReward minerTxWeight medianWeight s.m2) ↔
    Survives baseReward minerTxWeight medianWeight reward x m) := by
  intro m
  induction m with
  | nil =>
    intro i reward x _
    rw [Survives, ← pays_single]
    exact ⟨fun ⟨s, run, pays⟩ => by cases run; exact pays, fun pays => ⟨_, rfl, pays⟩⟩
  | cons t m ih =>
    intro i reward x late
    rw [pickLoop, pickTx_single late, Survives]
    by_cases replaces : Replaces baseReward minerTxWeight medianWeight reward x t
    · rw [if_pos replaces, if_pos replaces]
      exact ih (by omega)
    · rw [if_neg replaces, if_neg replaces]
      by_cases kept : both baseReward minerTxWeight medianWeight x t ≤ reward
      · rw [if_pos kept]
        exact (ih (by omega)).trans (and_iff_right kept).symm
      · rw [if_neg kept]
        exact ⟨fun ⟨_, run, _⟩ => (nomatch run), fun survives => absurd survives.1 kept⟩

theorem pays_start (fits : minerTxWeight ≤ medianWeight) :
    Pays baseReward minerTxWeight medianWeight (pickStart baseReward minerTxWeight).m2 := by
  simp [Pays, pickStart, fees, weight, getBlockReward, fits]

theorem pickLoop_start (fits : minerTxWeight ≤ medianWeight) : ∀ {m : Mempool} {i : Nat}, 1 < i →
    ((∃ s, pickLoop baseReward medianWeight i m (pickStart baseReward minerTxWeight) = .ok s ∧
      Pays baseReward minerTxWeight medianWeight s.m2) ↔
    ∀ t ∈ m, alone baseReward minerTxWeight medianWeight t ≤ baseReward) := by
  intro m
  induction m with
  | nil => exact fun _ => ⟨fun _ => nofun, fun _ => ⟨_, rfl, pays_start fits⟩⟩
  | cons t m ih =>
    intro i late
    rw [pickLoop, pickTx_start, List.forall_mem_cons]
    by_cases gain : baseReward < alone baseReward minerTxWeight medianWeight t
    · rw [if_pos gain, if_neg (by omega)]
      exact ⟨fun ⟨_, run, _⟩ => (nomatch run), fun none => absurd none.1 (UInt64.not_le.mpr gain)⟩
    · rw [if_neg gain]
      exact (ih (by omega)).trans (and_iff_right (UInt64.not_lt.mp gain)).symm

theorem pickLoop_pays_iff (fits : minerTxWeight ≤ medianWeight) (m : Mempool) :
    (∃ s, pickLoop baseReward medianWeight 0 m (pickStart baseReward minerTxWeight) = .ok s ∧
      Pays baseReward minerTxWeight medianWeight s.m2) ↔ SafePool baseReward minerTxWeight medianWeight m := by
  match m with
  | [] => exact ⟨fun _ => trivial, fun _ => ⟨_, rfl, pays_start fits⟩⟩
  | first :: m =>
    by_cases gain : baseReward < alone baseReward minerTxWeight medianWeight first
    · rw [pickLoop, pickTx_start, if_pos gain, if_neg (by omega)]
      refine ⟨fun ⟨_, run, _⟩ => (nomatch run), fun safe => ?_⟩
      have low : alone baseReward minerTxWeight medianWeight first ≤ baseReward := by
        match m, safe with
        | [], low => exact low
        | _ :: _, low => exact low.1
      exact absurd low (UInt64.not_le.mpr gain)
    · rw [pickLoop, pickTx_start, if_neg gain]
      match m with
      | [] => exact ⟨fun _ => UInt64.not_lt.mp gain, fun _ => ⟨_, rfl, pays_start fits⟩⟩
      | second :: m =>
        rw [SafePool, and_iff_right (UInt64.not_lt.mp gain)]
        dsimp only [bind, Except.bind]
        rw [pickLoop, pickTx_start]
        by_cases taken : baseReward < alone baseReward minerTxWeight medianWeight second
        · rw [if_pos taken, if_pos taken, if_pos rfl]
          exact pickLoop_single (by omega)
        · rw [if_neg taken, if_neg taken]
          exact pickLoop_start fits (by omega)

/-- `Pick` returns a part of the pool that pays at least the base reward, and keeps its totals exact. -/
structure PickSound (baseReward minerTxWeight medianWeight : UInt64) (slices : SortFunc) (pool : Mempool) : Prop where
  returns : ∃ picked, pick baseReward minerTxWeight medianWeight slices pool = .ok picked ∧
    picked.Subperm pool ∧ Pays baseReward minerTxWeight medianWeight picked
  totals : ∀ n s, pickLoop baseReward medianWeight 0 ((slices.sort MempoolEntry.compare pool).take n)
    (pickStart baseReward minerTxWeight) = .ok s → s.Totals minerTxWeight

/-- `Pick` is sound exactly if the pool, in the order of `Compare`, is a `SafePool`. -/
theorem pick_sound_iff (slices : SortFunc) (pool : Mempool) (fits : minerTxWeight ≤ medianWeight) :
    PickSound baseReward minerTxWeight medianWeight slices pool ↔
      SafePool baseReward minerTxWeight medianWeight (slices.sort MempoolEntry.compare pool) := by
  have start : (pickStart baseReward minerTxWeight).Totals minerTxWeight := ⟨rfl, by simp [pickStart, weight]⟩
  have none : (pickStart baseReward minerTxWeight).m2.Subperm [] := List.Subperm.refl []
  rw [← pickLoop_pays_iff fits]
  constructor
  · rintro ⟨⟨picked, run, -, pays⟩, -⟩
    unfold pick at run
    cases loop : pickLoop baseReward medianWeight 0 (slices.sort MempoolEntry.compare pool)
        (pickStart baseReward minerTxWeight) with
    | error e =>
      rw [loop] at run
      cases run
    | ok s =>
      rw [loop] at run
      cases run
      exact ⟨s, rfl, pays⟩
  · rintro ⟨s, run, pays⟩
    refine ⟨⟨s.m2, ?_, ?_, pays⟩, fun n s run => (pickLoop_inv run start none).1⟩
    · rw [pick, run]
      rfl
    · exact (pickLoop_inv run start none).2.trans (slices.perm MempoolEntry.compare pool).subperm

/-! ## Pools -/

def insertionSort : SortFunc where
  sort cmp xs := xs.insertionSort fun a b => cmp a b ≠ .gt
  perm _ xs := List.perm_insertionSort _ xs

/-- The best transaction is too heavy, the second is selected, and the third pays nothing. -/
theorem pick_sound_second : PickSound 100 1 10 insertionSort [⟨3, 1, 0⟩, ⟨2, 2, 4⟩, ⟨1, 20, 100⟩] ∧
    pick 100 1 10 insertionSort [⟨3, 1, 0⟩, ⟨2, 2, 4⟩, ⟨1, 20, 100⟩] = .ok [⟨2, 2, 4⟩] :=
  ⟨(pick_sound_iff insertionSort _ (by decide)).mpr (by decide +kernel), by decide +kernel⟩

/-- One transaction that fits and pays makes `Pick` panic.  And where one is selected, a heavy one
replaces it, and the reward falls below the base reward. -/
theorem pick_single_panics :
    pick 100 1 10 insertionSort [⟨1, 2, 4⟩] = .error (.panic "index out of range") ∧
      ¬ PickSound 100 1 10 insertionSort [⟨1, 2, 4⟩] ∧
      pick 100 1 10 insertionSort [⟨1, 20, 100⟩, ⟨2, 2, 4⟩, ⟨3, 10, 1⟩] = .ok [⟨3, 10, 1⟩] ∧
      getBlockReward 100 10 (fees [⟨3, 10, 1⟩]) (1 + weight [⟨3, 10, 1⟩]) = 10 := by
  have panics : pick 100 1 10 insertionSort [⟨1, 2, 4⟩] = .error (.panic "index out of range") := by
    decide +kernel
  refine ⟨panics, fun sound => ?_, by decide +kernel, by decide +kernel⟩
  obtain ⟨picked, run, -⟩ := sound.returns
  rw [panics] at run
  cases run

end Mempool

end P2PoolObserver
