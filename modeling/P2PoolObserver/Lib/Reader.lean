/-
# Lib.Reader -- readers over byte strings and their round trips

A `Reader` consumes a prefix of its input or fails.  The two ends of input are
kept apart, since decoders branch on them: `eof` before the first byte of an
item, `unexpectedEof` inside it.  `Reads rd enc` is the round trip of one item:
after `enc a` and before anything else, `rd` returns `a` and leaves the rest.
-/
import P2PoolObserver.Lib.Bytes

namespace P2PoolObserver.Lib

inductive ReadError where
  | eof
  | unexpectedEof
  | overflow
  | invalid (message : String)
  | panicked (message : String)
  deriving DecidableEq

def Reader (α : Type) : Type := Bytes → Except ReadError (α × Bytes)

namespace Reader

variable {α β : Type}
variable {rd rd' : Reader α} {input rest bytes x : Bytes} {a : α} {f : α → Reader β} {b : β}
  {ok c : Prop} {n : Nat} {P : α → Prop} {Q : β → Prop}

def pure (a : α) : Reader α := fun input => .ok (a, input)

def bind (rd : Reader α) (f : α → Reader β) : Reader β := fun input =>
  match rd input with
  | .ok (a, rest) => f a rest
  | .error e => .error e

instance : Monad Reader where
  pure := pure
  bind := bind

def fail (message : String) : Reader α := fun _ => .error (.invalid message)

def crash (message : String) : Reader α := fun _ => .error (.panicked message)

def check (ok : Prop) [Decidable ok] (message : String) : Reader Unit :=
  if ok then pure () else fail message

def readByte : Reader UInt8
  | [] => .error .eof
  | b :: rest => .ok (b, rest)

def readFull (n : Nat) : Reader Bytes := fun input =>
  if n ≤ input.length then .ok (input.take n, input.drop n)
  else if input = [] then .error .eof
  else .error .unexpectedEof

/-- A base-128 varint of at most ten bytes and 64 bits.  `i` is the index of
the byte about to be read and `x` what the earlier ones contributed. -/
def readUvarintFrom : Nat → Nat → Nat → Reader UInt64
  | 0, _, _ => fun _ => .error .overflow
  | fuel + 1, i, x => fun
    | [] => .error (if 0 < i then .unexpectedEof else .eof)
    | b :: rest =>
      if b.toNat < 128 then
        if i = 9 ∧ 1 < b.toNat then .error .overflow
        else .ok (UInt64.ofNat (x + b.toNat * 128 ^ i), rest)
      else readUvarintFrom fuel (i + 1) (x + (b.toNat - 128) * 128 ^ i) rest

def readUvarint : Reader UInt64 := readUvarintFrom 10 0 0

def readMany (rd : Reader α) : Nat → Reader (List α)
  | 0 => pure []
  | n + 1 => bind rd fun a => bind (readMany rd n) fun as => pure (a :: as)

/-- Run a reader on the next `n` bytes only; the second component is how many
of those it left unread. -/
def limited (n : Nat) (rd : Reader α) : Reader (α × Nat) := fun input =>
  match rd (input.take n) with
  | .ok (a, rest) => .ok ((a, n - ((input.take n).length - rest.length)),
      rest ++ input.drop n)
  | .error e => .error e

/-! ## Running -/

@[simp] theorem pure_apply (a : α) (input : Bytes) : pure a input = .ok (a, input) := rfl

@[simp] theorem monad_pure_eq (a : α) : (Pure.pure a : Reader α) = pure a := rfl

@[simp] theorem monad_bind_eq (rd : Reader α) (f : α → Reader β) : rd >>= f = bind rd f := rfl

theorem bind_ok (first : rd input = .ok (a, rest)) (f : α → Reader β) : bind rd f input = f a rest := by
  simp [bind, first]

theorem bind_eq_ok {out : Bytes} :
    bind rd f input = .ok (b, out) ↔ ∃ a rest, rd input = .ok (a, rest) ∧ f a rest = .ok (b, out) := by
  unfold bind
  cases h : rd input with
  | error e => simp
  | ok p => obtain ⟨a, rest⟩ := p; simp

theorem check_eq_ok [Decidable ok] {message : String} {u : Unit} :
    check ok message input = .ok (u, rest) ↔ ok ∧ input = rest := by
  unfold check
  by_cases holds : ok <;> simp [holds, pure, fail]

theorem length_of_readFull (read : readFull n input = .ok (bytes, rest)) : bytes.length = n := by
  unfold readFull at read
  split_ifs at read with enough
  obtain ⟨rfl, -⟩ := Prod.mk.inj (Except.ok.inj read)
  rw [List.length_take]
  omega

/-! ## Readers take a prefix -/

/-- What a reader leaves is the end of what it was given. -/
def Consuming (rd : Reader α) : Prop :=
  ∀ ⦃input : Bytes⦄ ⦃a : α⦄ ⦃rest : Bytes⦄, rd input = .ok (a, rest) → rest <:+ input

theorem consuming_pure (a : α) : Consuming (pure a) := by
  rintro input b rest ⟨⟩
  exact List.suffix_refl input

theorem consuming_fail (message : String) : Consuming (fail message : Reader α) := nofun

theorem consuming_crash (message : String) : Consuming (crash message : Reader α) := nofun

theorem consuming_bind (first : Consuming rd) (second : ∀ a, Consuming (f a)) : Consuming (bind rd f) := by
  intro input b out run
  obtain ⟨a, rest, one, two⟩ := bind_eq_ok.mp run
  exact (second a two).trans (first one)

theorem consuming_ite [Decidable c] (yes : Consuming rd)
    (no : Consuming rd') : Consuming (if c then rd else rd') := by
  split_ifs
  · exact yes
  · exact no

theorem consuming_check (ok : Prop) [Decidable ok] (message : String) : Consuming (check ok message) :=
  consuming_ite (consuming_pure ()) (consuming_fail message)

theorem consuming_full (n : Nat) : Consuming (readFull n) := by
  intro input bytes rest run
  unfold readFull at run
  split_ifs at run
  cases run
  exact List.drop_suffix n input

theorem consuming_uvarintFrom : ∀ fuel i x : Nat, Consuming (readUvarintFrom fuel i x)
  | 0, _, _, _, _, _, run => nomatch run
  | _ + 1, _, _, [], _, _, run => nomatch run
  | fuel + 1, i, x, b :: rest, v, out, run => by
    unfold readUvarintFrom at run
    dsimp only at run
    split_ifs at run
    · cases run
      exact List.suffix_cons b rest
    · exact (consuming_uvarintFrom fuel (i + 1) _ run).trans (List.suffix_cons b rest)

theorem consuming_uvarint : Consuming readUvarint := consuming_uvarintFrom 10 0 0

/-! ## Readers that do not crash -/

def Normal (rd : Reader α) : Prop :=
  ∀ (input : Bytes) (message : String), rd input ≠ .error (.panicked message)

theorem normal_pure (a : α) : Normal (pure a) := nofun

theorem normal_bind (first : Normal rd) (second : ∀ a, Normal (f a)) : Normal (bind rd f) := by
  intro input message
  unfold bind
  cases run : rd input with
  | ok p => exact second p.1 p.2 message
  | error e =>
    intro same
    cases same
    exact first input message run

theorem normal_ite [Decidable c] (yes : Normal rd)
    (no : Normal rd') : Normal (if c then rd else rd') := by
  split_ifs
  · exact yes
  · exact no

theorem normal_full (n : Nat) : Normal (readFull n) := by
  intro input message
  unfold readFull
  split_ifs <;> nofun

theorem normal_uvarintFrom : ∀ fuel i x : Nat, Normal (readUvarintFrom fuel i x)
  | 0, _, _ => nofun
  | fuel + 1, i, x => by
    intro input message
    unfold readUvarintFrom
    cases input with
    | nil =>
      dsimp only
      split_ifs <;> nofun
    | cons b input =>
      dsimp only
      split_ifs
      · nofun
      · nofun
      · exact normal_uvarintFrom fuel (i + 1) _ input message

theorem normal_uvarint : Normal readUvarint := normal_uvarintFrom 10 0 0

theorem normal_many {rd : Reader α} (normal : Normal rd) : ∀ n : Nat, Normal (readMany rd n)
  | 0 => normal_pure []
  | n + 1 => normal_bind normal fun _ => normal_bind (normal_many normal n) fun _ => normal_pure _

/-! ## What is read -/

def Ensures (rd : Reader α) (P : α → Prop) : Prop :=
  ∀ ⦃input : Bytes⦄ ⦃a : α⦄ ⦃rest : Bytes⦄, rd input = .ok (a, rest) → P a

theorem ensures_pure (holds : P a) : Ensures (pure a) P := by
  intro input a' rest run
  cases run
  exact holds

theorem ensures_fail (message : String) (P : α → Prop) : Ensures (fail message) P := nofun

theorem ensures_crash (message : String) (P : α → Prop) : Ensures (crash message) P := nofun

theorem ensures_bind (first : Ensures rd P) (second : ∀ a, P a → Ensures (f a) Q) : Ensures (bind rd f) Q := by
  intro input b rest run
  obtain ⟨a, after, read, run⟩ := bind_eq_ok.mp run
  exact second a (first read) run

theorem ensures_after (second : ∀ a, Ensures (f a) Q) : Ensures (bind rd f) Q :=
  ensures_bind (P := fun _ => True) (fun _ _ _ _ => trivial) fun a _ => second a

theorem ensures_ite [Decidable c]
    (yes : c → Ensures rd P) (no : ¬ c → Ensures rd' P) : Ensures (if c then rd else rd') P := by
  intro input a rest run
  split_ifs at run with holds
  · exact yes holds run
  · exact no holds run

theorem ensures_full (n : Nat) : Ensures (readFull n) fun data => data.length = n := by
  intro input data rest run
  unfold readFull at run
  split_ifs at run with enough
  cases run
  rw [List.length_take]
  omega

theorem ensures_limited (inside : Ensures rd P) (n : Nat) :
    Ensures (limited n rd) fun p => P p.1 := by
  intro input p rest run
  unfold limited at run
  cases read : rd (input.take n) with
  | error e => rw [read] at run; cases run
  | ok q =>
    rw [read] at run
    cases run
    exact inside read

/-! ## Round trips -/

/-- `rd` reads back what `enc` wrote, whatever follows. -/
def Reads (rd : Reader α) (bytes : Bytes) (a : α) : Prop :=
  ∀ rest, rd (bytes ++ rest) = .ok (a, rest)

theorem reads_pure (a : α) : Reads (pure a) [] a := fun _ => rfl

theorem reads_bind {y : Bytes}
    (first : Reads rd x a) (second : Reads (f a) y b) : Reads (bind rd f) (x ++ y) b := by
  intro rest
  rw [List.append_assoc, bind_ok (first (y ++ rest)), second rest]

theorem reads_bind_pure {f : α → β}
    (first : Reads rd x a) : Reads (bind rd fun a => pure (f a)) x (f a) := by
  have whole := reads_bind (f := fun a => pure (f a)) first (reads_pure (f a))
  simpa using whole

theorem reads_check [Decidable ok] (holds : ok) (message : String) : Reads (check ok message) [] () := by
  unfold check
  rw [if_pos holds]
  exact reads_pure ()

theorem reads_byte (b : UInt8) : Reads readByte [b] b := fun _ => rfl

theorem reads_full (length : bytes.length = n) : Reads (readFull n) bytes bytes := by
  intro rest
  subst length
  simp [readFull]

/-- The loop of the varint reader, entered at byte `i` with the low digits `x`
already read: it adds `n` shifted by `i` digits. -/
theorem readUvarintFrom_uvarint (n : Nat) : ∀ (fuel i x : Nat) (rest : Bytes), fuel + i = 10 →
    n * 128 ^ i < 2 ^ 64 → 0 < fuel →
    readUvarintFrom fuel i x (uvarint n ++ rest) = .ok (UInt64.ofNat (x + n * 128 ^ i), rest) := by
  induction n using Nat.strongRecOn with
  | ind n ih =>
    intro fuel i x rest total fits positive
    obtain ⟨fuel, rfl⟩ : ∃ f, fuel = f + 1 := ⟨fuel - 1, by omega⟩
    by_cases small : n < 128
    · have byte : (UInt8.ofNat n).toNat = n := by rw [UInt8.toNat_ofNat']; omega
      have inRange : ¬ (i = 9 ∧ 1 < n) := by
        rintro ⟨rfl, large⟩
        have : 2 * 128 ^ 9 ≤ n * 128 ^ 9 := Nat.mul_le_mul_right _ large
        norm_num at this fits
        omega
      rw [uvarint_of_lt small]
      simp [readUvarintFrom, byte, small, inRange]
    · have byte : (UInt8.ofNat (n % 128 + 128)).toNat = n % 128 + 128 := by
        rw [UInt8.toNat_ofNat']; omega
      have shifted : n / 128 * 128 ^ (i + 1) ≤ n * 128 ^ i := by
        rw [Nat.pow_succ (n := 128), Nat.mul_comm (128 ^ i), ← Nat.mul_assoc]
        exact Nat.mul_le_mul_right _ (Nat.div_mul_le_self n 128)
      have more : 0 < fuel := by
        rcases Nat.eq_zero_or_pos fuel with rfl | h
        · have hi : i = 9 := by omega
          subst hi
          have : 128 * 128 ^ 9 ≤ n * 128 ^ 9 := Nat.mul_le_mul_right _ (by omega)
          norm_num at this fits
          omega
        · exact h
      rw [uvarint_of_ge (by omega)]
      simp only [List.cons_append, readUvarintFrom, byte,
        show ¬ n % 128 + 128 < 128 by omega, if_false, Nat.add_sub_cancel]
      rw [ih (n / 128) (by omega) fuel (i + 1) _ rest (by omega) (by omega) more]
      have digits : x + n % 128 * 128 ^ i + n / 128 * 128 ^ (i + 1) = x + n * 128 ^ i := by
        conv_rhs => rw [← Nat.mod_add_div n 128]
        ring
      rw [digits]

theorem reads_uvarint (fits : n < 2 ^ 64) : Reads readUvarint (uvarint n) (UInt64.ofNat n) := by
  intro rest
  have whole := readUvarintFrom_uvarint n 10 0 0 rest rfl (by simpa using fits) (by omega)
  simpa [readUvarint] using whole

theorem reads_uvarint64 (x : UInt64) : Reads readUvarint (uvarint x.toNat) x := by
  simpa using reads_uvarint x.toNat_lt

/-- What the varint reader accepts is a form of its value, the shortest or a longer one,
which it reads before anything else too. -/
theorem readUvarintFrom_form : ∀ {fuel i x : Nat} {input rest : Bytes} {v : UInt64},
    readUvarintFrom fuel i x input = .ok (v, rest) → ∃ form, form ≠ [] ∧ input = form ++ rest ∧
      ∀ more, readUvarintFrom fuel i x (form ++ more) = .ok (v, more)
  | 0, _, _, _, _, _, run => nomatch run
  | _ + 1, _, _, [], _, _, run => nomatch run
  | fuel + 1, i, x, b :: input, rest, v, run => by
    unfold readUvarintFrom at run
    dsimp only at run
    split_ifs at run with last overflow
    · cases run
      refine ⟨[b], List.cons_ne_nil _ _, rfl, fun more => ?_⟩
      simp [readUvarintFrom, last, overflow]
    · obtain ⟨form, -, split, again⟩ := readUvarintFrom_form run
      refine ⟨b :: form, List.cons_ne_nil _ _, by rw [split]; rfl, fun more => ?_⟩
      simp only [List.cons_append, readUvarintFrom, last, if_false]
      exact again more

theorem readUvarint_form {v : UInt64} (run : readUvarint input = .ok (v, rest)) :
    ∃ form, form ≠ [] ∧ input = form ++ rest ∧ Reads readUvarint form v := readUvarintFrom_form run

theorem readUvarintFrom_ne_eof : ∀ {fuel i x : Nat} {input : Bytes}, 0 < i →
    readUvarintFrom fuel i x input ≠ .error .eof
  | 0, _, _, _, _ => nofun
  | fuel + 1, i, x, [], inside => by simp [readUvarintFrom, inside]
  | fuel + 1, i, x, b :: input, inside => by
    unfold readUvarintFrom
    dsimp only
    split_ifs
    · nofun
    · nofun
    · exact readUvarintFrom_ne_eof (Nat.succ_pos i)

theorem readUvarint_eq_eof_iff : readUvarint input = .error .eof ↔ input = [] := by
  cases input with
  | nil => simp [readUvarint, readUvarintFrom]
  | cons b input =>
    simp only [reduceCtorEq, iff_false]
    unfold readUvarint readUvarintFrom
    dsimp only
    split_ifs
    · nofun
    · nofun
    · exact readUvarintFrom_ne_eof (Nat.succ_pos 0)

theorem reads_many {rd : Reader α} {enc : α → Bytes} : ∀ {xs : List α}, (∀ x ∈ xs, Reads rd (enc x) x) →
      Reads (readMany rd xs.length) (concatBytes enc xs) xs
  | [], _ => reads_pure []
  | x :: xs, each => by
    have head : Reads rd (enc x) x := each x (by simp)
    have tail : Reads (readMany rd xs.length) (concatBytes enc xs) xs :=
      reads_many fun y hy => each y (by simp [hy])
    exact reads_bind head (reads_bind_pure (f := fun as => x :: as) tail)

/-- A reader that consumes all of `bytes` consumes all of a window of that
length, and leaves nothing of it. -/
theorem reads_limited
    (length : bytes.length = n) (whole : rd bytes = .ok (a, [])) : Reads (limited n rd) bytes (a, 0) := by
  intro rest
  subst length
  simp [limited, whole]

/-! ## Readers that refuse more -/

/-- Does what the other reader does, or refuses the input. -/
def Stricter (strict rd : Reader α) : Prop :=
  ∀ input, strict input = rd input ∨ ∃ message, strict input = .error (.invalid message)

theorem Stricter.refl (rd : Reader α) : Stricter rd rd := fun _ => .inl rfl

theorem Stricter.bind {g : α → Reader β} (first : Stricter rd' rd) (next : ∀ a, Stricter (g a) (f a)) :
    Stricter (rd'.bind g) (rd.bind f) := by
  intro input
  unfold Reader.bind
  rcases first input with same | ⟨message, refused⟩
  · rw [same]
    cases rd input with
    | error e => exact .inl rfl
    | ok p => exact next p.1 p.2
  · exact .inr ⟨message, by rw [refused]⟩

end Reader

end P2PoolObserver.Lib
