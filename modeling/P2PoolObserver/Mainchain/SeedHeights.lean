/-
# Mainchain.SeedHeights -- what `cleanup` leaves for the validation of later headers

The RandomX seed of a block is the id of a block up to 2112 below it, at a multiple of 2048
(`toNat_seedHeight`).  `cleanup` keeps the last 720 headers and the three latest seed heights:
these are enough for every header that is still kept (`cleanup_keeps_needed`).
-/
import P2PoolObserver.Mainchain.MainIndex

namespace P2PoolObserver

/-! ## Seed heights -/

theorem toNat_and_epoch (x : UInt64) : (x &&& ~~~(seedHashEpochBlocks - 1)).toNat = x.toNat / 2048 * 2048 := by
  have mask : (~~~(seedHashEpochBlocks - 1)).toNat = 2 ^ 64 - (2 ^ 11 - 1 + 1) := rfl
  have shifted : x.toNat / 2048 * 2048 = x.toNat >>> 11 <<< 11 := by
    rw [Nat.shiftLeft_eq, Nat.shiftRight_eq_div_pow]
  rw [UInt64.toNat_and, mask, shifted]
  apply Nat.eq_of_testBit_eq
  intro i
  rw [Nat.testBit_and, Nat.testBit_two_pow_sub_succ (by decide), Nat.testBit_two_pow_sub_one,
    Nat.testBit_shiftLeft, Nat.testBit_shiftRight]
  by_cases low : i < 11
  · have below : ¬ i ≥ 11 := by omega
    simp [low, below]
  · have place : 11 + (i - 11) = i := by omega
    rw [place]
    by_cases high : i < 64
    · simp [low, high, not_lt.mp low]
    · have beyond : x.toNat.testBit i = false := by
        apply Nat.testBit_lt_two_pow
        exact x.toNat_lt.trans_le (Nat.pow_le_pow_right (by norm_num) (not_lt.mp high))
      simp [beyond]

theorem seedHeight_of_le {height : UInt64} (early : height.toNat ≤ 2112) : seedHeight height = 0 := by
  have small : height ≤ seedHashEpochBlocks + seedHashEpochLag := UInt64.le_iff_toNat_le.mpr early
  rw [seedHeight, if_pos small]

theorem toNat_seedHeight {height : UInt64} (late : 2112 < height.toNat) :
    (seedHeight height).toNat = (height.toNat - 65) / 2048 * 2048 := by
  have large : ¬ height ≤ seedHashEpochBlocks + seedHashEpochLag := by
    rw [UInt64.le_iff_toNat_le, not_le]
    exact late
  have less : (height - seedHashEpochLag - 1).toNat = height.toNat - 65 := by
    have lag : seedHashEpochLag ≤ height := UInt64.le_iff_toNat_le.mpr (by change 64 ≤ _; omega)
    have first := UInt64.toNat_sub_of_le _ _ lag
    have lagNat : seedHashEpochLag.toNat = 64 := rfl
    have one : (1 : UInt64) ≤ height - seedHashEpochLag := by
      rw [UInt64.le_iff_toNat_le, first]
      change 1 ≤ _
      omega
    have oneNat : (1 : UInt64).toNat = 1 := rfl
    rw [UInt64.toNat_sub_of_le _ _ one, first]
    omega
  rw [seedHeight, if_neg large, toNat_and_epoch, less]

theorem seedHeight_cases (height : UInt64) : height.toNat ≤ 2112 ∧ (seedHeight height).toNat = 0 ∨
      2112 < height.toNat ∧ (seedHeight height).toNat = (height.toNat - 65) / 2048 * 2048 := by
  rcases Nat.lt_or_ge 2112 height.toNat with late | early
  · exact .inr ⟨late, toNat_seedHeight late⟩
  · exact .inl ⟨early, by rw [seedHeight_of_le early]; rfl⟩

theorem dvd_seedHeight (height : UInt64) : 2048 ∣ (seedHeight height).toNat := by
  rcases seedHeight_cases height with ⟨-, zero⟩ | ⟨-, multiple⟩
  · rw [zero]
    exact dvd_zero _
  · rw [multiple]
    exact dvd_mul_left _ _

theorem seedHeight_mono {g h : UInt64} (le : g ≤ h) : seedHeight g ≤ seedHeight h := by
  have below := UInt64.le_iff_toNat_le.mp le
  rw [UInt64.le_iff_toNat_le]
  rcases seedHeight_cases g with ⟨-, zero⟩ | ⟨late, multiple⟩
  · rw [zero]
    exact Nat.zero_le _
  · rw [multiple, toNat_seedHeight (late.trans_le below)]
    omega

theorem seedHeight_near {g : UInt64} (late : 2112 < g.toNat) :
    (seedHeight g).toNat + 65 ≤ g.toNat ∧ g.toNat ≤ (seedHeight g).toNat + 2112 := by
  rw [toNat_seedHeight late]
  omega

namespace MainIndex

/-! ## What is kept -/

theorem mem_seedHeights {height h : UInt64} {k : Nat} (few : k < 3)
    (seed : h.toNat + 2048 * k = (seedHeight height).toNat) : h ∈ seedHeights height := by
  have two : (2048 : UInt64).toNat = 2048 := rfl
  have four : (2048 * 2 : UInt64).toNat = 4096 := rfl
  have bound := (seedHeight height).toNat_lt
  have same : ∀ d : UInt64, d.toNat = 2048 * k → h = seedHeight height - d := by
    intro d size
    apply UInt64.toNat_inj.mp
    rw [UInt64.toNat_sub_of_le _ _ (UInt64.le_iff_toNat_le.mpr (by omega))]
    omega
  unfold seedHeights
  simp only [List.mem_cons, List.not_mem_nil, or_false]
  obtain rfl | rfl | rfl : k = 0 ∨ k = 1 ∨ k = 2 := by omega
  · exact .inl (by simpa using same 0 rfl)
  · exact .inr (.inl (same 2048 two))
  · exact .inr (.inr (same (2048 * 2) four))

theorem exists_of_mem_seedHeights {height h : UInt64} (low : h.toNat < 2 ^ 63) (mem : h ∈ seedHeights height) :
    ∃ k < 3, h.toNat + 2048 * k = (seedHeight height).toNat := by
  have unwrapped : ∀ d : UInt64, d.toNat ≤ 4096 → h = seedHeight height - d →
      h.toNat + d.toNat = (seedHeight height).toNat := by
    rintro d small rfl
    rw [UInt64.toNat_sub] at low ⊢
    have bound := (seedHeight height).toNat_lt
    omega
  unfold seedHeights at mem
  simp only [List.mem_cons, List.not_mem_nil, or_false] at mem
  rcases mem with same | same | same
  · exact ⟨0, by norm_num, by rw [same, Nat.mul_zero, Nat.add_zero]⟩
  · exact ⟨1, by norm_num, unwrapped 2048 (by decide) same⟩
  · exact ⟨2, by norm_num, unwrapped (2048 * 2) (by decide) same⟩

variable {c : MainIndex} {height : UInt64}

theorem getChainMainByHeight_cleanup {n : UInt64} (kept : ¬ Prunes height n) :
    (c.cleanup height).getChainMainByHeight n = c.getChainMainByHeight n := by
  have same : (c.cleanup height).mainchainByHeight.lookup n = c.mainchainByHeight.lookup n := by
    apply Option.ext
    intro p
    rw [lookup_height_cleanup]
    exact and_iff_left kept
  rw [getChainMainByHeight, getChainMainByHeight, same, cleanup_entry]

theorem getChainMainByHeight_cleanup_none {n : UInt64} (pruned : Prunes height n) :
    (c.cleanup height).getChainMainByHeight n = none := by
  rw [getChainMainByHeight, Option.map_eq_none_iff, Option.eq_none_iff_forall_ne_some]
  intro p found
  exact (lookup_height_cleanup.mp found).2 pruned

theorem prunes_iff {n : UInt64} (low : n.toNat < 2 ^ 63) :
    Prunes height n ↔ n.toNat + 720 < height.toNat ∧ ∀ k < 3, n.toNat + 2048 * k ≠ (seedHeight height).toNat := by
  have old : ¬ n + blockHeadersRequired ≥ height ↔ n.toNat + 720 < height.toNat := by
    rw [ge_iff_le, UInt64.le_iff_toNat_le, not_le, UInt64.toNat_add, show blockHeadersRequired.toNat = 720 from rfl,
      Nat.mod_eq_of_lt (by omega)]
  unfold Prunes
  rw [old]
  refine and_congr_right fun _ => ⟨fun other k few seed => other (mem_seedHeights few seed), fun other mem => ?_⟩
  obtain ⟨k, few, seed⟩ := exists_of_mem_seedHeights low mem
  exact other k few seed

theorem seed_kept {g n : UInt64} (low : g.toNat < 2 ^ 63) (recent : height.toNat ≤ g.toNat + 720) (le : g ≤ height)
    (seed : n = seedHeight g ∨ n = seedHeight (g + seedHashEpochLag)) : ¬ Prunes height n := by
  have sum : (g + seedHashEpochLag).toNat = g.toNat + 64 := by
    rw [UInt64.toNat_add, show seedHashEpochLag.toNat = 64 from rfl, Nat.mod_eq_of_lt (by omega)]
  have below := UInt64.le_iff_toNat_le.mp le
  have own := seedHeight_cases g
  have next := seedHeight_cases (g + seedHashEpochLag)
  have tip := seedHeight_cases height
  rw [sum] at next
  -- at most one epoch before the seed of the tip, or after it and then among the last headers
  have near : n.toNat < 2 ^ 63 ∧ (height.toNat ≤ n.toNat + 720 ∨
      ∃ k < 3, n.toNat + 2048 * k = (seedHeight height).toNat) := by
    rcases seed with rfl | rfl
    · refine ⟨by omega, ?_⟩
      by_cases same : (seedHeight g).toNat = (seedHeight height).toNat
      · exact .inr ⟨0, by norm_num, same⟩
      · exact .inr ⟨1, by norm_num, by omega⟩
    · refine ⟨by omega, ?_⟩
      by_cases same : (seedHeight (g + seedHashEpochLag)).toNat = (seedHeight height).toNat
      · exact .inr ⟨0, by norm_num, same⟩
      · by_cases before : (seedHeight (g + seedHashEpochLag)).toNat < (seedHeight height).toNat
        · exact .inr ⟨1, by norm_num, by omega⟩
        · exact .inl (by omega)
  rw [prunes_iff near.1]
  rintro ⟨old, other⟩
  rcases near.2 with kept | ⟨k, few, seed⟩
  · omega
  · exact other k few seed

/-- After `cleanup(height)` the last headers are there, with the seeds of those up to the tip,
and nothing else but the three latest seed heights; and what seed heights are. -/
theorem cleanup_keeps_needed (c : MainIndex) (height : UInt64)
    (low : ∀ n p, c.mainchainByHeight.lookup n = some p → n.toNat < 2 ^ 63) :
    ((∀ g : UInt64, height.toNat ≤ g.toNat + blockHeadersRequired.toNat →
        (c.cleanup height).getChainMainByHeight g = c.getChainMainByHeight g) ∧
      (∀ g : UInt64, g.toNat < 2 ^ 63 → height.toNat ≤ g.toNat + blockHeadersRequired.toNat → g ≤ height →
        ∀ n ∈ [seedHeight g, seedHeight (g + seedHashEpochLag)],
          (c.cleanup height).getChainMainByHeight n = c.getChainMainByHeight n) ∧
      ∀ h : UInt64, h.toNat + blockHeadersRequired.toNat < height.toNat →
        (∀ k < 3, h.toNat + seedHashEpochBlocks.toNat * k ≠ (seedHeight height).toNat) →
          (c.cleanup height).getChainMainByHeight h = none) ∧
    (∀ g h : UInt64, g ≤ h → seedHeight g ≤ seedHeight h) ∧
    (∀ g : UInt64, seedHashEpochBlocks.toNat ∣ (seedHeight g).toNat) ∧
    ∀ g : UInt64, 2112 < g.toNat → (seedHeight g).toNat + 65 ≤ g.toNat ∧ g.toNat ≤ (seedHeight g).toNat + 2112 := by
  -- an entry that is not there stays away, whatever its height
  have absent : ∀ n : UInt64, ¬ n.toNat < 2 ^ 63 →
      (c.cleanup height).getChainMainByHeight n = none ∧ c.getChainMainByHeight n = none := by
    intro n high
    have before : c.mainchainByHeight.lookup n = none :=
      Option.eq_none_iff_forall_ne_some.mpr fun p found => high (low n p found)
    refine ⟨?_, by rw [getChainMainByHeight, before]; rfl⟩
    rw [getChainMainByHeight, Option.map_eq_none_iff, Option.eq_none_iff_forall_ne_some]
    intro p found
    exact high (low n p (lookup_height_cleanup.mp found).1)
  refine ⟨⟨fun g recent => ?_, fun g small recent le n seed => ?_, fun h old other => ?_⟩,
    fun g h => seedHeight_mono, dvd_seedHeight, fun g => seedHeight_near⟩
  · by_cases small : g.toNat < 2 ^ 63
    · refine getChainMainByHeight_cleanup fun prunes => ?_
      have old := ((prunes_iff small).mp prunes).1
      exact absurd recent (not_le.mpr old)
    · rw [(absent g small).1, (absent g small).2]
  · exact getChainMainByHeight_cleanup (seed_kept small recent le (by simpa using seed))
  · by_cases small : h.toNat < 2 ^ 63
    · exact getChainMainByHeight_cleanup_none ((prunes_iff small).mpr ⟨old, other⟩)
    · exact (absent h small).1

namespace SeedExample

def index : MainIndex := (empty.handleMainHeader ⟨⟨9, 0⟩, 2048, 100, 6, 1⟩).handleMainHeader ⟨⟨9, 0⟩, 5, 101, 6, 2⟩

theorem index_low (n : UInt64) (p : Ptr) (found : index.mainchainByHeight.lookup n = some p) : n.toNat < 2 ^ 63 := by
  have stored := (AList.lookup_isSome (a := n) (s := index.mainchainByHeight)).mp (by rw [found]; rfl)
  have keys : index.mainchainByHeight.keys = [5, 2048] := by decide +kernel
  rw [AList.mem_keys, keys] at stored
  simp only [List.mem_cons, List.not_mem_nil, or_false] at stored
  rcases stored with rfl | rfl
  · decide
  · decide

end SeedExample

/-- At a tip of 3000 the seed at 2048 stays, and the header at 5 goes. -/
theorem cleanup_keeps_needed_seed :
    (SeedExample.index.cleanup 3000).getChainMainByHeight 2048 = some ⟨⟨9, 0⟩, 2048, 100, 6, 1⟩ ∧
      (SeedExample.index.cleanup 3000).getChainMainByHeight 5 = none := by
  obtain ⟨⟨-, seeds, gone⟩, -⟩ := cleanup_keeps_needed SeedExample.index 3000 SeedExample.index_low
  refine ⟨(seeds 3000 (by decide) (by decide) (by decide) 2048 (by decide)).trans (by decide +kernel), ?_⟩
  exact gone 5 (by decide) (by decide)

end MainIndex

end P2PoolObserver
