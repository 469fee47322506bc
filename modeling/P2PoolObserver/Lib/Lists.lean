/-
# Lib.Lists -- list facts that the development shares
-/
import Mathlib.Data.List.Forall2

namespace P2PoolObserver.Lib

variable {α β : Type}

theorem forall₂_exists_of_mem_left {R : α → β → Prop} {x : α} :
    ∀ {xs : List α} {ys : List β}, List.Forall₂ R xs ys → x ∈ xs → ∃ y ∈ ys, R x y
  | _ :: _, _ :: _, .cons first rest, mem => by
    rcases List.mem_cons.mp mem with rfl | mem
    · exact ⟨_, by simp, first⟩
    · obtain ⟨y, hy, related⟩ := forall₂_exists_of_mem_left rest mem
      exact ⟨y, by simp [hy], related⟩

theorem forall₂_exists_of_mem_right {R : α → β → Prop} {y : β} :
    ∀ {xs : List α} {ys : List β}, List.Forall₂ R xs ys → y ∈ ys → ∃ x ∈ xs, R x y
  | [], [], _, mem => nomatch mem
  | _ :: _, _ :: _, .cons first rest, mem => by
    rcases List.mem_cons.mp mem with rfl | mem
    · exact ⟨_, by simp, first⟩
    · obtain ⟨x, hx, related⟩ := forall₂_exists_of_mem_right rest mem
      exact ⟨x, by simp [hx], related⟩

theorem replicate_append_inj {α : Type} {a : α} : ∀ {m n : Nat} {r s : List α},
    r.head? ≠ some a → s.head? ≠ some a → List.replicate m a ++ r = List.replicate n a ++ s → m = n ∧ r = s
  | 0, 0, _, _, _, _, same => ⟨rfl, same⟩
  | 0, n + 1, r, s, hr, _, same => by
    rw [show r = a :: (List.replicate n a ++ s) from same] at hr
    exact absurd rfl hr
  | m + 1, 0, r, s, _, hs, same => by
    rw [show s = a :: (List.replicate m a ++ r) from same.symm] at hs
    exact absurd rfl hs
  | m + 1, n + 1, r, s, hr, hs, same => by
    simp only [List.replicate_succ, List.cons_append, List.cons.injEq, true_and] at same
    obtain ⟨count, rest⟩ := replicate_append_inj hr hs same
    exact ⟨congrArg (· + 1) count, rest⟩

theorem filterMap_eq_filter_iff {α : Type} {f : α → Option α} {keep : α → Bool}
    (fewer : ∀ x, (f x).isSome → keep x) : ∀ l : List α,
    l.filterMap f = l.filter keep ↔ ∀ x ∈ l, keep x → f x = some x
  | [] => by simp
  | x :: l => by
    have ih := filterMap_eq_filter_iff fewer l
    have short : (l.filterMap f).length ≤ (l.filter keep).length := by
      rw [List.length_filterMap_eq_countP, ← List.countP_eq_length_filter]
      exact List.countP_mono_left fun x _ => fewer x
    cases image : f x with
    | none =>
      rw [List.filterMap_cons_none image, List.forall_mem_cons]
      by_cases kept : keep x
      · rw [List.filter_cons_of_pos kept]
        constructor
        · intro same
          rw [same, List.length_cons] at short
          omega
        · intro all
          rw [image] at all
          cases all.1 kept
      · rw [List.filter_cons_of_neg kept, ih]
        exact ⟨fun later => ⟨fun here => absurd here kept, later⟩, And.right⟩
    | some y =>
      have kept : keep x := fewer x (by rw [image]; rfl)
      rw [List.filterMap_cons_some image, List.filter_cons_of_pos kept, List.cons.injEq, ih,
        List.forall_mem_cons, image, Option.some_inj]
      exact and_congr_left fun _ => ⟨fun same _ => same, fun same => same kept⟩

end P2PoolObserver.Lib
