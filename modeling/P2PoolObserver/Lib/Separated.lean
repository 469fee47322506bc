/-
# Lib.Separated -- fields joined by a separator

Two joined fields `x ++ [sep] ++ a` are told apart again as long as one of the sides is free
of the separator (`separated_left`, `separated_right`).  Where neither is, the boundary may
be any separator of the joined text: `separated_eq_iff` lists the three ways in which two
pairs of fields are joined to one text.
-/
import Mathlib.Data.List.Basic

namespace P2PoolObserver.Lib

variable {α : Type} {sep : α} {a b x y : List α}

theorem separated_left (freeA : sep ∉ a) (freeB : sep ∉ b)
    (same : a ++ [sep] ++ x = b ++ [sep] ++ y) : a = b ∧ x = y := by
  induction a generalizing b with
  | nil =>
    cases b with
    | nil => exact ⟨rfl, by simpa using same⟩
    | cons head tail =>
      have first : sep = head := by simpa using congrArg List.head? same
      exact absurd (first ▸ List.mem_cons_self) freeB
  | cons head tail ih =>
    cases b with
    | nil =>
      have first : head = sep := by simpa using congrArg List.head? same
      exact absurd (first ▸ List.mem_cons_self) freeA
    | cons head' tail' =>
      obtain ⟨rfl, rest⟩ : head = head' ∧ tail ++ [sep] ++ x = tail' ++ [sep] ++ y := by simpa using same
      obtain ⟨rfl, last⟩ := ih (fun mem => freeA (.tail _ mem))
        (fun mem => freeB (.tail _ mem)) rest
      exact ⟨rfl, last⟩

theorem separated_right (freeA : sep ∉ a) (freeB : sep ∉ b)
    (same : x ++ [sep] ++ a = y ++ [sep] ++ b) : x = y ∧ a = b := by
  have reversed : a.reverse ++ [sep] ++ x.reverse = b.reverse ++ [sep] ++ y.reverse := by
    simpa using congrArg List.reverse same
  obtain ⟨last, first⟩ := separated_left (by simpa using freeA) (by simpa using freeB) reversed
  exact ⟨List.reverse_inj.mp first, List.reverse_inj.mp last⟩

/-- One text is two pairs of fields when the pairs are equal, or when the second separator
lies in the other pair's field, before or behind. -/
theorem separated_eq_iff : x ++ [sep] ++ a = y ++ [sep] ++ b ↔ (x = y ∧ a = b) ∨
      (∃ middle, y = x ++ [sep] ++ middle ∧ a = middle ++ [sep] ++ b) ∨
      ∃ middle, x = y ++ [sep] ++ middle ∧ b = middle ++ [sep] ++ a := by
  constructor
  · intro same
    rw [List.append_assoc, List.append_assoc, List.append_eq_append_iff] at same
    -- The longer of the two first fields goes on with the shorter one's separator.
    rcases same with ⟨more, longer, rest⟩ | ⟨more, longer, rest⟩
    · cases more with
      | nil => exact .inl ⟨by simpa using longer.symm, by simpa using rest⟩
      | cons head middle =>
        obtain ⟨rfl, behind⟩ : sep = head ∧ a = middle ++ [sep] ++ b := by simpa using rest
        exact .inr (.inl ⟨middle, by simpa using longer, behind⟩)
    · cases more with
      | nil => exact .inl ⟨by simpa using longer, by simpa using rest.symm⟩
      | cons head middle =>
        obtain ⟨rfl, behind⟩ : sep = head ∧ b = middle ++ [sep] ++ a := by simpa using rest
        exact .inr (.inr ⟨middle, by simpa using longer, behind⟩)
  · rintro (⟨rfl, rfl⟩ | ⟨middle, rfl, rfl⟩ | ⟨middle, rfl, rfl⟩)
    · rfl
    · simp
    · simp

end P2PoolObserver.Lib
