/-
# Lib.Chunks -- readers over a stream that arrives in chunks

A connection is the list of chunks it will still deliver.  One call of `read` returns bytes of
the next chunk only, however many it was asked for; `readFull` calls it until it has them all,
and is `Exact`.  Exact readers compose.

A buffered reader over a limited reader (`pull`) is not exact: it takes a chunk at a time up to
its limit, and stops when it has as much as was asked of it.
-/
import P2PoolObserver.Lib.Reader

namespace P2PoolObserver.Lib

abbrev Chunks := List Bytes

def ChunkReader (α : Type) : Type := Chunks → Except ReadError (α × Chunks)

namespace Chunks

variable {α β : Type} {S T : Chunks} {m n : Nat}
variable {x : Except ReadError (α × Chunks)} {c : ChunkReader α} {f : α → ChunkReader β}

/-! ## One call -/

/-- One call for `m` bytes: some of the next chunk that is not empty, or the end. -/
def read (m : Nat) : Chunks → Option (Bytes × Chunks)
  | [] => none
  | chunk :: rest => if chunk = [] then read m rest else some (chunk.take m, chunk.drop m :: rest)

theorem read_eq_none_iff (m : Nat) (S : Chunks) : read m S = none ↔ S.flatten = [] := by
  induction S with
  | nil => simp [read]
  | cons chunk rest ih =>
    by_cases empty : chunk = []
    · simp [read, empty, ih]
    · simp [read, empty]

theorem read_eq_some {got : Bytes} (found : read m S = some (got, T)) :
    S.flatten = got ++ T.flatten ∧ got.length ≤ m ∧ (0 < m → 0 < got.length) := by
  induction S with
  | nil => simp [read] at found
  | cons chunk rest ih =>
    by_cases empty : chunk = []
    · simp only [read, empty, if_true] at found
      simpa [empty] using ih found
    · simp only [read, empty, if_false, Option.some.injEq, Prod.mk.injEq] at found
      obtain ⟨rfl, rfl⟩ := found
      have positive := List.length_pos_of_ne_nil empty
      refine ⟨?_, ?_, ?_⟩
      · rw [List.flatten_cons, List.flatten_cons, ← List.append_assoc, List.take_append_drop]
      · rw [List.length_take]
        omega
      · intro some_asked
        rw [List.length_take]
        omega

def Whole (S : Chunks) : Prop := ∃ chunk rest, S = chunk :: rest ∧ rest.flatten = []

theorem whole_singleton (bytes : Bytes) : Whole [bytes] := ⟨bytes, [], rfl, rfl⟩

theorem read_whole (whole : Whole S) (more : S.flatten ≠ []) (m : Nat) :
    ∃ T, read m S = some (S.flatten.take m, T) ∧ T.flatten = S.flatten.drop m ∧ Whole T := by
  obtain ⟨chunk, rest, rfl, ended⟩ := whole
  have all : (chunk :: rest).flatten = chunk := by simp [ended]
  rw [all] at more ⊢
  exact ⟨chunk.drop m :: rest, by simp [read, more], by simp [ended], chunk.drop m, rest, rfl, ended⟩

/-! ## Readers that do not see the chunks -/

/-- The result of a reader, with the bytes that are left. -/
def flat (x : Except ReadError (α × Chunks)) : Except ReadError (α × Bytes) :=
  x.map fun (a, S) => (a, S.flatten)

@[simp] theorem flat_ok (a : α) (S : Chunks) : flat (.ok (a, S)) = .ok (a, S.flatten) := rfl

@[simp] theorem flat_error (e : ReadError) : flat (.error e : Except ReadError (α × Chunks)) = .error e := rfl

theorem flat_eq_ok {a : α} {bytes : Bytes} (ok : flat x = .ok (a, bytes)) :
    ∃ S, x = .ok (a, S) ∧ S.flatten = bytes := by
  cases x with
  | error e => nomatch ok
  | ok p =>
    obtain ⟨b, S⟩ := p
    obtain ⟨rfl, rfl⟩ := Prod.mk.inj (Except.ok.inj ok)
    exact ⟨S, rfl, rfl⟩

theorem flat_eq_error {e : ReadError} (error : flat x = .error e) : x = .error e := by
  cases x with
  | error e' => simpa using error
  | ok p => nomatch error

/-- What is read and what is left depend on the bytes alone; and a reader leaves all in one
chunk if it found it so. -/
structure Exact (c : ChunkReader α) : Prop where
  same : ∀ S T : Chunks, S.flatten = T.flatten → flat (c S) = flat (c T)
  whole : ∀ (S T : Chunks) (a : α), Whole S → c S = .ok (a, T) → Whole T

def pure (a : α) : ChunkReader α := fun S => .ok (a, S)

def bind (c : ChunkReader α) (f : α → ChunkReader β) : ChunkReader β := fun S =>
  match c S with
  | .ok (a, T) => f a T
  | .error e => .error e

instance : Monad ChunkReader where
  pure := pure
  bind := bind

theorem bind_eq_ok {S : Chunks} {result : β × Chunks}
    (ok : bind c f S = .ok result) : ∃ a T, c S = .ok (a, T) ∧ f a T = .ok result := by
  unfold bind at ok
  cases first : c S with
  | error e => rw [first] at ok; nomatch ok
  | ok p =>
    rw [first] at ok
    exact ⟨p.1, p.2, rfl, ok⟩

theorem exact_pure (a : α) : Exact (pure a) where
  same S T eq := by simp [pure, eq]
  whole S T b whole ok := by
    obtain ⟨-, rfl⟩ := Prod.mk.inj (Except.ok.inj ok)
    exact whole

theorem exact_bind (first : Exact c) (second : ∀ a, Exact (f a)) : Exact (bind c f) where
  same S T eq := by
    have results := first.same S T eq
    unfold bind
    cases one : c S with
    | error e =>
      rw [one, flat_error] at results
      rw [flat_eq_error results.symm]
    | ok p =>
      obtain ⟨a, S'⟩ := p
      rw [one, flat_ok] at results
      obtain ⟨T', two, eq'⟩ := flat_eq_ok results.symm
      rw [two]
      exact (second a).same S' T' eq'.symm
  whole S T b whole ok := by
    unfold bind at ok
    cases one : c S with
    | error e => simp [one] at ok
    | ok p =>
      obtain ⟨a, S'⟩ := p
      rw [one] at ok
      exact (second a).whole S' T b (first.whole S S' a whole one) ok

/-! ## Fixed numbers of bytes -/

def readMore : Nat → Nat → Bytes → ChunkReader Bytes
  | 0, _, got => pure got
  | fuel + 1, need, got => fun S =>
    if need = 0 then .ok (got, S)
    else
      match read need S with
      | none => .error (if got = [] then .eof else .unexpectedEof)
      | some (more, T) => readMore fuel (need - more.length) (got ++ more) T

/-- Exactly `n` bytes; every call returns at least one. -/
def readFull (n : Nat) : ChunkReader Bytes := readMore n n []

/-- By induction on the calls: the bytes so far and those of the next call are those of the
stream. -/
theorem flat_readMore : ∀ {fuel need : Nat} {got : Bytes} {S : Chunks}, need ≤ fuel →
    flat (readMore fuel need got S) =
      if need ≤ S.flatten.length then .ok (got ++ S.flatten.take need, S.flatten.drop need)
      else .error (if got = [] ∧ S.flatten = [] then .eof else .unexpectedEof) := by
  intro fuel
  induction fuel with
  | zero =>
    intro need got S none_left
    obtain rfl := Nat.le_zero.mp none_left
    simp [readMore, pure]
  | succ fuel ih =>
    intro need got S enough
    by_cases done : need = 0
    · simp [readMore, done]
    · cases call : read need S with
      | none =>
        have ended := (read_eq_none_iff need S).mp call
        simp [readMore, done, call, ended]
      | some p =>
        obtain ⟨more, T⟩ := p
        obtain ⟨stream, atMost, atLeast⟩ := read_eq_some call
        have positive := atLeast (Nat.pos_of_ne_zero done)
        simp only [readMore, done, call, if_false]
        rw [ih (by omega), stream, List.length_append, List.take_append, List.drop_append,
          List.take_of_length_le atMost, List.drop_of_length_le atMost, List.append_assoc, List.nil_append]
        have some_read : more ≠ [] := List.ne_nil_of_length_pos positive
        by_cases fits : need ≤ more.length + T.flatten.length
        · rw [if_pos (by omega), if_pos fits]
        · rw [if_neg (by omega), if_neg fits]
          simp [some_read]

theorem flat_readFull (n : Nat) (S : Chunks) : flat (readFull n S) = Reader.readFull n S.flatten := by
  rw [readFull, flat_readMore le_rfl]
  simp only [Reader.readFull, List.nil_append, true_and]
  split_ifs <;> rfl

theorem readFull_of_le (enough : n ≤ S.flatten.length) :
    ∃ T, readFull n S = .ok (S.flatten.take n, T) ∧ T.flatten = S.flatten.drop n := by
  apply flat_eq_ok
  rw [flat_readFull, Reader.readFull, if_pos enough]

theorem readFull_of_lt (short : S.flatten.length < n) :
    readFull n S = .error (if S.flatten = [] then .eof else .unexpectedEof) := by
  apply flat_eq_error
  rw [flat_readFull, Reader.readFull, if_neg (Nat.not_le.mpr short)]
  split_ifs <;> rfl

theorem whole_readMore : ∀ {fuel need : Nat} {got bytes : Bytes} {S T : Chunks}, Whole S →
    readMore fuel need got S = .ok (bytes, T) → Whole T := by
  intro fuel
  induction fuel with
  | zero =>
    intro need got bytes S T whole ok
    exact (exact_pure got).whole S T bytes whole ok
  | succ fuel ih =>
    intro need got bytes S T whole ok
    by_cases done : need = 0
    · simp only [readMore, done, if_true, Except.ok.injEq, Prod.mk.injEq] at ok
      exact ok.2 ▸ whole
    · by_cases ended : S.flatten = []
      · simp [readMore, done, (read_eq_none_iff need S).mpr ended] at ok
      · obtain ⟨S', call, -, whole'⟩ := read_whole whole ended need
        simp only [readMore, done, if_false, call] at ok
        exact ih whole' ok

theorem exact_readFull (n : Nat) : Exact (readFull n) where
  same S T eq := by rw [flat_readFull, flat_readFull, eq]
  whole _ _ _ := whole_readMore

def readByte : ChunkReader UInt8 := fun S =>
  match read 1 S with
  | some ([b], T) => .ok (b, T)
  | _ => .error .eof

theorem flat_readByte (S : Chunks) : flat (readByte S) = Reader.readByte S.flatten := by
  unfold readByte
  cases call : read 1 S with
  | none => simp [(read_eq_none_iff 1 S).mp call, Reader.readByte]
  | some p =>
    obtain ⟨got, T⟩ := p
    obtain ⟨stream, atMost, atLeast⟩ := read_eq_some call
    obtain ⟨b, rfl⟩ := List.length_eq_one_iff.mp (Nat.le_antisymm atMost (atLeast Nat.one_pos))
    simp [stream, Reader.readByte]

theorem exact_readByte : Exact readByte where
  same S T eq := by rw [flat_readByte, flat_readByte, eq]
  whole S T b whole ok := by
    have more : S.flatten ≠ [] := by
      intro ended
      simp [readByte, (read_eq_none_iff 1 S).mpr ended] at ok
    obtain ⟨S', call, -, whole'⟩ := read_whole whole more 1
    unfold readByte at ok
    rw [call] at ok
    split at ok
    · next b' T' eq =>
        obtain ⟨-, rfl⟩ := Prod.mk.inj (Except.ok.inj ok)
        obtain ⟨-, rfl⟩ := Prod.mk.inj (Option.some.inj eq)
        exact whole'
    · nomatch ok

/-! ## A buffered reader over a limited one -/

/-- What is left of the connection when `need` bytes were taken from a buffer that is filled,
whenever it is empty, with one call for all that the limit still allows. -/
def pull : Nat → Nat → Nat → Chunks → Chunks
  | 0, _, _, S => S
  | fuel + 1, limit, need, S =>
    if need = 0 then S
    else
      match read limit S with
      | none => S
      | some (more, T) => pull fuel (limit - more.length) (need - more.length) T

theorem pull_zero (fuel limit : Nat) (S : Chunks) : pull fuel limit 0 S = S := by
  cases fuel <;> simp [pull]

/-- Where the chunk ends that holds the byte number `n`, counted from one. -/
def chunkEnd : Nat → Chunks → Nat
  | _, [] => 0
  | n, chunk :: rest => chunk.length + if n ≤ chunk.length then 0 else chunkEnd (n - chunk.length) rest

theorem pull_nil_cons (fuel limit need : Nat) (rest : Chunks) :
    (pull fuel limit need ([] :: rest)).flatten = (pull fuel limit need rest).flatten := by
  cases fuel with
  | zero => rfl
  | succ fuel =>
    simp only [pull, read, if_true]
    split_ifs
    · rfl
    · split <;> rfl

/-- The buffer has taken the chunk with the last byte that is needed, up to the limit. -/
theorem flatten_pull (S : Chunks) : ∀ {fuel limit need : Nat}, need ≤ fuel → 0 < need → need ≤ limit →
    need ≤ S.flatten.length → (pull fuel limit need S).flatten = S.flatten.drop (min limit (chunkEnd need S)) := by
  induction S with
  | nil =>
    intro fuel limit need _ some_needed _ there
    exact absurd there (Nat.not_le.mpr some_needed)
  | cons chunk rest ih =>
    intro fuel limit need enough some_needed fits there
    rw [List.flatten_cons, List.length_append] at there
    by_cases empty : chunk = []
    · subst empty
      rw [pull_nil_cons, ih enough some_needed fits (by simpa using there)]
      simp [chunkEnd, Nat.not_le.mpr some_needed]
    · obtain ⟨fuel, rfl⟩ := Nat.exists_eq_succ_of_ne_zero (by omega : fuel ≠ 0)
      have positive := List.length_pos_iff.mpr empty
      rw [pull, if_neg some_needed.ne', chunkEnd]
      simp only [read, empty, if_false, List.length_take, List.flatten_cons]
      by_cases inside : need ≤ chunk.length
      · rw [if_pos inside, show need - min limit chunk.length = 0 by omega]
        have same : chunk.drop (min limit chunk.length) = chunk.drop limit := List.drop_eq_drop_iff.mpr (by omega)
        rw [pull_zero, List.flatten_cons, List.drop_append, Nat.add_zero, same, Nat.sub_eq_zero_of_le (Nat.min_le_right _ _),
          List.drop_zero]
      · -- the first chunk is used up
        have used : chunk.length ≤ limit := by omega
        rw [if_neg inside, Nat.min_eq_right used, List.drop_of_length_le used, pull_nil_cons,
          ih (by omega) (by omega) (by omega) (by omega), List.drop_append,
          List.drop_of_length_le (Nat.le_min.mpr ⟨used, Nat.le_add_right _ _⟩), List.nil_append]
        congr 1
        omega

theorem pull_fills_iff {fuel limit need : Nat} (enough : need ≤ fuel) (some_needed : 0 < need) (fits : need ≤ limit)
    (there : need ≤ S.flatten.length) : (pull fuel limit need S).flatten = S.flatten.drop limit ↔
      (S.flatten.take limit).length ≤ chunkEnd need S := by
  rw [flatten_pull S enough some_needed fits there, List.drop_eq_drop_iff, List.length_take]
  omega

theorem pull_whole (whole : Whole S) {limit need : Nat} (some_needed : 0 < need) (fits : need ≤ limit)
    (there : need ≤ S.flatten.length) (fuel : Nat) :
    (pull (fuel + 1) limit need S).flatten = S.flatten.drop limit ∧ Whole (pull (fuel + 1) limit need S) := by
  have more : S.flatten ≠ [] := by
    intro ended
    rw [ended, List.length_nil] at there
    omega
  obtain ⟨T, call, left, whole'⟩ := read_whole whole more limit
  have satisfied : need - (S.flatten.take limit).length = 0 := by
    rw [List.length_take]
    omega
  simp only [pull, Nat.ne_of_gt some_needed, if_false, call, satisfied, pull_zero]
  exact ⟨left, whole'⟩

end Chunks

end P2PoolObserver.Lib
