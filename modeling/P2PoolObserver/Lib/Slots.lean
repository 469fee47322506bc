/-
# Lib.Slots -- ranging over a slice while deleting from it

`for i, k := range ks { .. ks = slices.Delete(ks, i, i+1) .. }` ranges over the
slots of the slice as it was at the start.  A deletion moves the later elements one
slot to the front and clears the last slot, so the loop passes over the element
behind a deleted one.  `rangeDelete` is that loop on its own: which elements it
comes to, which are left, and whether every deletion is in range.
-/
import Mathlib.Data.List.GetD
import Mathlib.Data.List.Nodup
import Mathlib.Tactic.Common

namespace P2PoolObserver.Lib

variable {κ : Type} (zero : κ) (stop gone : κ → Bool)

/-- The elements visited and the elements left, from slot `i` on and for `slots` more
slots; `none` when a deletion is out of range. -/
def rangeDelete : Nat → Nat → List κ → Option (List κ × List κ)
  | 0, _, ks => some ([], ks)
  | slots + 1, i, ks =>
    let k := ks.getD i zero
    if stop k then some ([], ks)
    else if gone k then
      if i < ks.length then
        (rangeDelete slots (i + 1) (ks.eraseIdx i)).map fun r => (k :: r.1, r.2)
      else none
    else (rangeDelete slots (i + 1) ks).map fun r => (k :: r.1, r.2)

variable {zero stop gone}
variable {P : κ → Prop} {ks : List κ} {i : Nat}

def EndsWith (P : κ → Prop) (ks : List κ) : Prop :=
  ∃ front a b, ks = front ++ [a, b] ∧ P a ∧ P b

theorem EndsWith.getElem (ends : EndsWith P ks)
    (inRange : i < ks.length) (late : ks.length ≤ i + 2) : P ks[i] := by
  obtain ⟨front, a, b, rfl, ha, hb⟩ := ends
  simp only [List.length_append, List.length_cons, List.length_nil] at inRange late
  obtain rfl | rfl : i = front.length ∨ i = front.length + 1 := by omega
  · simpa using ha
  · simpa [List.getElem_append_right] using hb

theorem EndsWith.two_le (ends : EndsWith P ks) : 2 ≤ ks.length := by
  obtain ⟨front, a, b, rfl, -, -⟩ := ends
  simp

theorem EndsWith.eraseIdx {P : κ → Prop} {ks : List κ} (ends : EndsWith P ks) {i : Nat}
    (early : i + 2 < ks.length) : EndsWith P (ks.eraseIdx i) := by
  obtain ⟨front, a, b, rfl, ha, hb⟩ := ends
  simp only [List.length_append, List.length_cons, List.length_nil] at early
  exact ⟨front.eraseIdx i, a, b, List.eraseIdx_append_of_lt_length (by omega) _, ha, hb⟩

theorem endsWith_of_pairwise {r : κ → κ → Prop} (up : ∀ x y, P x → r x y → P y)
    (ordered : ks.Pairwise r) {k l : κ} (hk : k ∈ ks) (hl : l ∈ ks) (other : k ≠ l)
    (Pk : P k) (Pl : P l) : EndsWith P ks := by
  rcases List.eq_nil_or_concat' ks with rfl | ⟨init, b, rfl⟩
  · cases hk
  · rw [List.pairwise_append] at ordered
    obtain ⟨front, -, below⟩ := ordered
    -- one of the two is not the last element
    obtain ⟨m, mem, Pm⟩ : ∃ m ∈ init, P m := by
      rcases List.mem_append.mp hk with early | last
      · exact ⟨k, early, Pk⟩
      · rcases List.mem_append.mp hl with early | last'
        · exact ⟨l, early, Pl⟩
        · exact absurd ((List.mem_singleton.mp last).trans (List.mem_singleton.mp last').symm) other
    rcases List.eq_nil_or_concat' init with rfl | ⟨init, a, rfl⟩
    · cases mem
    · have Pa : P a := by
        rcases List.mem_append.mp mem with early | last
        · exact up m a Pm ((List.pairwise_append.mp front).2.2 m early a (List.mem_singleton_self a))
        · exact List.mem_singleton.mp last ▸ Pm
      refine ⟨init, a, b, by simp, Pa, up a b Pa (below a (by simp) b (List.mem_singleton_self b))⟩

/-- Two elements at the end at which the loop stops keep every deletion in range: a
deletion lets the loop pass over one of them, not over both. -/
theorem rangeDelete_isSome : ∀ (slots i : Nat) {ks : List κ},
    EndsWith (stop · = true) ks → i + 1 ≤ ks.length → (rangeDelete zero stop gone slots i ks).isSome = true
  | 0, _, _, _, _ => rfl
  | slots + 1, i, ks, ends, inRange => by
    unfold rangeDelete
    dsimp only
    rw [List.getD_eq_getElem ks zero (show i < ks.length by omega)]
    have early : ¬ stop ks[i] = true → i + 2 < ks.length := by
      intro goes
      by_contra late
      exact goes (ends.getElem (show i < ks.length by omega) (by omega))
    split_ifs with stops goes
    · rfl
    · have early := early stops
      rw [Option.isSome_map]
      refine rangeDelete_isSome slots (i + 1) (ends.eraseIdx early) ?_
      rw [List.length_eraseIdx_of_lt (by omega)]
      omega
    · omega
    · have early := early stops
      rw [Option.isSome_map]
      exact rangeDelete_isSome slots (i + 1) ends (by omega)

theorem rangeDelete_succ_cases {slots : Nat} {visited left : List κ}
    (run : rangeDelete zero stop gone (slots + 1) i ks = some (visited, left)) : (visited = [] ∧ left = ks) ∨
    (∃ rest, stop (ks.getD i zero) = false ∧ visited = ks.getD i zero :: rest ∧
      ((∃ inRange : i < ks.length, gone ks[i] = true ∧
          rangeDelete zero stop gone slots (i + 1) (ks.eraseIdx i) = some (rest, left)) ∨
        (gone (ks.getD i zero) = false ∧
          rangeDelete zero stop gone slots (i + 1) ks = some (rest, left)))) := by
  unfold rangeDelete at run
  dsimp only at run
  split_ifs at run with stops goes inRange
  · cases run
    exact .inl ⟨rfl, rfl⟩
  · obtain ⟨⟨rest, left'⟩, more, same⟩ := Option.map_eq_some_iff.mp run
    cases same
    refine .inr ⟨rest, by simpa using stops, rfl, .inl ⟨inRange, ?_, more⟩⟩
    rwa [List.getD_eq_getElem ks zero inRange] at goes
  · obtain ⟨⟨rest, left'⟩, more, same⟩ := Option.map_eq_some_iff.mp run
    cases same
    exact .inr ⟨rest, by simpa using stops, rfl, .inr ⟨by simpa using goes, more⟩⟩

theorem rangeDelete_sublist : ∀ {slots i : Nat} {ks visited left : List κ},
    rangeDelete zero stop gone slots i ks = some (visited, left) → left.Sublist ks
  | 0, _, ks, _, _, run => by
    cases run
    exact List.Sublist.refl ks
  | slots + 1, i, ks, visited, left, run => by
    rcases rangeDelete_succ_cases run with ⟨-, rfl⟩ | ⟨rest, -, -, ⟨-, -, more⟩ | ⟨-, more⟩⟩
    · exact List.Sublist.refl _
    · exact (rangeDelete_sublist more).trans (List.eraseIdx_sublist ks i)
    · exact rangeDelete_sublist more

theorem rangeDelete_visited_stop : ∀ {slots i : Nat} {ks visited left : List κ},
    rangeDelete zero stop gone slots i ks = some (visited, left) → ∀ k ∈ visited, stop k = false
  | 0, _, _, _, _, run, k, mem => by
    cases run
    cases mem
  | slots + 1, i, ks, visited, left, run, k, mem => by
    rcases rangeDelete_succ_cases run with ⟨rfl, -⟩ | ⟨rest, stops, rfl, more⟩
    · cases mem
    · rcases List.mem_cons.mp mem with rfl | later
      · exact stops
      · rcases more with ⟨-, -, more⟩ | ⟨-, more⟩
        · exact rangeDelete_visited_stop more k later
        · exact rangeDelete_visited_stop more k later

theorem mem_eraseIdx_of_nodup (nodup : ks.Nodup) (inRange : i < ks.length)
    (k : κ) : k ∈ ks.eraseIdx i ↔ k ∈ ks ∧ k ≠ ks[i] := by
  rw [List.mem_eraseIdx_iff_getElem, List.mem_iff_getElem]
  constructor
  · rintro ⟨j, bound, other, rfl⟩
    exact ⟨⟨j, bound, rfl⟩, fun same => other (nodup.getElem_inj_iff.mp same)⟩
  · rintro ⟨⟨j, bound, rfl⟩, other⟩
    exact ⟨j, bound, fun same => other (by subst same; rfl), rfl⟩

theorem mem_rangeDelete_left : ∀ {slots i : Nat} {ks visited left : List κ}, ks.Nodup →
    rangeDelete zero stop gone slots i ks = some (visited, left) →
      ∀ k, k ∈ left ↔ k ∈ ks ∧ ¬ (k ∈ visited ∧ gone k = true)
  | 0, _, ks, _, _, _, run, k => by
    cases run
    simp
  | slots + 1, i, ks, visited, left, nodup, run, k => by
    rcases rangeDelete_succ_cases run with
      ⟨rfl, rfl⟩ | ⟨rest, -, rfl, ⟨inRange, goes, more⟩ | ⟨stays, more⟩⟩
    · simp
    · rw [mem_rangeDelete_left (nodup.eraseIdx i) more k, mem_eraseIdx_of_nodup nodup inRange,
        List.getD_eq_getElem ks zero inRange, List.mem_cons]
      constructor
      · rintro ⟨⟨mem, other⟩, kept⟩
        refine ⟨mem, fun ⟨visited, gone⟩ => ?_⟩
        rcases visited with same | later
        · exact other same
        · exact kept ⟨later, gone⟩
      · rintro ⟨mem, kept⟩
        refine ⟨⟨mem, fun same => kept ⟨.inl same, same ▸ goes⟩⟩, fun ⟨later, gone⟩ => ?_⟩
        exact kept ⟨.inr later, gone⟩
    · rw [mem_rangeDelete_left nodup more k, List.mem_cons]
      refine and_congr_right fun _ => not_congr ⟨fun ⟨later, goes⟩ => ⟨.inr later, goes⟩, ?_⟩
      rintro ⟨rfl | later, goes⟩
      · rw [stays] at goes
        cases goes
      · exact ⟨later, goes⟩

end P2PoolObserver.Lib
