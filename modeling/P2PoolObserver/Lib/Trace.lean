/-
# Lib.Trace -- properties of the steps of a run

A run is a start state and a list of actions.  `EachStep step P s trace` says that `P` holds
of every action of the run and the state it is taken in.  Two such properties hold of the
same runs if they agree wherever an invariant holds (`eachStep_iff`).
-/
namespace P2PoolObserver.Lib

variable {σ ι : Type} {step : σ → ι → σ} {P Q : σ → ι → Prop} {I : σ → Prop}

def EachStep (step : σ → ι → σ) (P : σ → ι → Prop) : σ → List ι → Prop
  | _, [] => True
  | s, a :: rest => P s a ∧ EachStep step P (step s a) rest

theorem eachStep_append : ∀ {s : σ} (first second : List ι), EachStep step P s (first ++ second) ↔
      EachStep step P s first ∧ EachStep step P (first.foldl step s) second
  | _, [], _ => (and_iff_right trivial).symm
  | s, a :: first, second => by
    rw [List.cons_append, EachStep, EachStep, eachStep_append first second, and_assoc, List.foldl_cons]

theorem eachStep_iff (keep : ∀ s a, I s → P s a → I (step s a))
    (agree : ∀ s a, I s → (P s a ↔ Q s a)) : ∀ {s : σ} (trace : List ι), I s →
    (EachStep step P s trace ↔ EachStep step Q s trace)
  | _, [], _ => Iff.rfl
  | s, a :: rest, inv => by
    unfold EachStep
    rw [← agree s a inv]
    constructor
    · intro ⟨holds, later⟩
      exact ⟨holds, (eachStep_iff keep agree rest (keep s a inv holds)).mp later⟩
    · intro ⟨holds, later⟩
      exact ⟨holds, (eachStep_iff keep agree rest (keep s a inv holds)).mpr later⟩

theorem eachStep_imp (keep : ∀ s a, I s → P s a → I (step s a)) (imp : ∀ s a, I s → P s a → Q s a) :
    ∀ {s : σ} (trace : List ι), I s → EachStep step P s trace → EachStep step Q s trace
  | _, [], _, _ => trivial
  | s, a :: rest, inv, ⟨holds, later⟩ =>
    ⟨imp s a inv holds, eachStep_imp keep imp rest (keep s a inv holds) later⟩

end P2PoolObserver.Lib
