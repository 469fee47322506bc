/-
# Types.DifficultyText -- difficulties as text (`difficulty.go`)

A difficulty is written as a decimal number if it has 64 bits, and else as 32 hexadecimal digits.
It is read from either, and from hexadecimal digits behind `0x`, which is how monerod writes wide
difficulties.  A quoted string of 34 bytes takes a fast path that does not know the prefix, and
the general path copies what it decoded to the end of sixteen bytes, however long it is.
-/
import P2PoolObserver.Lib.Hex
import P2PoolObserver.Lib.Slice
import P2PoolObserver.Utils.ParseUint

namespace P2PoolObserver

open Lib

/-- What the text forms use of the packages `uint128` and `go-hex`, as documented: numbers in sixteen
bytes, big-endian, and the functions of `encoding/hex`, on whole bytes. -/
class TextPackages extends Uint128Package where
  putBytesBE : Difficulty → Bytes
  fasthexEncode : Bytes → Bytes
  fasthexDecode : Bytes → Except HexError Bytes
  putBytesBE_eq : ∀ d, putBytesBE d = beBytes 16 d.toNat
  fasthexEncode_eq : ∀ src, fasthexEncode src = hexEncode src
  fasthexDecode_eq : ∀ src, src.length % 2 = 0 → fasthexDecode src = hexDecode src

@[reducible] def TextPackages.exact : TextPackages where
  toUint128Package := .exact
  putBytesBE d := beBytes 16 d.toNat
  fasthexEncode := hexEncode
  fasthexDecode := hexDecode
  putBytesBE_eq _ := rfl
  fasthexEncode_eq _ := rfl
  fasthexDecode_eq _ _ := rfl

/-! ## The source -/

def difficultySize : Nat := 16

def quoteByte : UInt8 := 34

def prefixed (digits : Bytes) : Bytes := 48 :: 120 :: digits

theorem prefixed_or_plain (s : Bytes) : (∃ digits, s = prefixed digits) ∨ s.take 2 ≠ [48, 120] := by
  by_cases there : s.take 2 = [48, 120]
  · refine .inl ⟨s.drop 2, ?_⟩
    rw [← List.take_append_drop 2 s, there]
    rfl
  · exact .inr there

theorem not_isHex_prefixed (digits : Bytes) : ¬ IsHex (prefixed digits) := by
  intro hex
  exact absurd (hex 120 (by simp [prefixed])) (by decide)

theorem hexDecode_prefixed (digits : Bytes) : ∃ err, hexDecode (prefixed digits) = .error err := by
  cases decoded : hexDecode (prefixed digits) with
  | error err => exact ⟨err, rfl⟩
  | ok buf => exact absurd ((hexDecode_isOk_iff _).mp ⟨buf, decoded⟩).1 (not_isHex_prefixed digits)

inductive TextError where
  | unexpectedEOF
  | invalidBytes
  | wrongSize
  | hex (err : HexError)
  | number (err : ParseError)
  deriving DecidableEq

namespace Difficulty

variable [TextPackages]

def bytes (d : Difficulty) : Bytes := TextPackages.putBytesBE d

def string (d : Difficulty) : Bytes := hexEncode d.bytes

def marshalJSON (d : Difficulty) : Bytes :=
  if d.hi = 0 then decimal d.lo.toNat
  else quoteByte :: (TextPackages.fasthexEncode d.bytes ++ [quoteByte])

def difficultyFromString (s : Bytes) : Except Fault (Difficulty × Option TextError) :=
  if s.take 2 = [48, 120] then
    match hexDecode (s.drop 2) with
    | .error err => .ok (zeroDifficulty, some (.hex err))
    | .ok buf =>
      -- `copy(d[DifficultySize-len(buf):], buf)`
      if difficultySize < buf.length then .error (.panic "slice bounds out of range")
      else
        let d : Bytes := List.replicate difficultySize 0
        let start := difficultySize - buf.length
        .ok (difficultyFromBytes (d.take start ++ copySlice (d.drop start) buf), none)
  else
    match hexDecode s with
    | .error err => .ok (zeroDifficulty, some (.hex err))
    | .ok buf =>
      if buf.length ≠ difficultySize then .ok (zeroDifficulty, some .wrongSize)
      else .ok (difficultyFromBytes buf, none)

def unmarshalJSON (d : Difficulty) (b : Bytes) : Except Fault (Difficulty × Option TextError) :=
  match b with
  | [] => .ok (d, some .unexpectedEOF)
  | c :: rest =>
    if c = quoteByte then
      if b.length < 2 ∨ b.length % 2 ≠ 0 ∨ b.getLast? ≠ some quoteByte then .ok (d, some .invalidBytes)
      else if b.length = difficultySize * 2 + 2 then
        -- fast path
        match TextPackages.fasthexDecode rest.dropLast with
        | .error err => .ok (d, some (.hex err))
        | .ok buf => .ok (difficultyFromBytes buf, none)
      else
        match difficultyFromString rest.dropLast with
        | .error fault => .error fault
        | .ok (_, some err) => .ok (d, some err)
        | .ok (diff, none) => .ok (diff, none)
    else
      match parseUint64 b with
      | (lo, some err) => .ok ({ d with lo }, some (.number err))
      | (lo, none) => .ok (⟨lo, 0⟩, none)

/-! ## Reading digits -/

theorem ofBeBytes_difficultyFromBytes {buf : Bytes} (length : buf.length = 16) :
    (difficultyFromBytes buf).toNat = ofBeBytes buf :=
  Uint128Package.fromBytesBE_eq buf length

theorem difficultyFromBytes_bytes (d : Difficulty) : difficultyFromBytes d.bytes = d := by
  have size : d.bytes = beBytes 16 d.toNat := TextPackages.putBytesBE_eq d
  refine toNat_inj.mp ?_
  rw [size, ofBeBytes_difficultyFromBytes (beBytes_length _ _), ofBeBytes_beBytes]
  exact d.toNat_lt

theorem bytes_length (d : Difficulty) : d.bytes.length = 16 := by
  rw [bytes, TextPackages.putBytesBE_eq, beBytes_length]

omit [TextPackages] in
theorem copy_aligned {buf : Bytes} (short : buf.length ≤ 16) :
    (List.replicate 16 0).take (16 - buf.length) ++ copySlice ((List.replicate 16 0).drop (16 - buf.length)) buf =
      List.replicate (16 - buf.length) 0 ++ buf := by
  have back : 16 - (16 - buf.length) = buf.length := by omega
  rw [List.take_replicate, List.drop_replicate, copySlice, List.length_replicate, back, List.take_length,
    List.drop_replicate, Nat.sub_self, Nat.min_eq_left (by omega)]
  simp

theorem difficultyFromString_prefixed (digits : Bytes) :
    difficultyFromString (prefixed digits) =
      match hexDecode digits with
      | .error err => .ok (zeroDifficulty, some (.hex err))
      | .ok buf => if 16 < buf.length then .error (.panic "slice bounds out of range")
          else .ok (.ofNat (hexValue digits), none) := by
  have there : (prefixed digits).take 2 = [48, 120] := rfl
  rw [difficultyFromString, if_pos there, show (prefixed digits).drop 2 = digits from rfl]
  cases decoded : hexDecode digits with
  | error err => rfl
  | ok buf =>
    dsimp only
    by_cases long : difficultySize < buf.length
    · exact (if_pos long).trans (if_pos long).symm
    · refine (if_neg long).trans (Eq.trans ?_ (if_neg long).symm)
      have short : buf.length ≤ 16 := Nat.not_lt.mp long
      have size : (List.replicate (16 - buf.length) (0 : UInt8) ++ buf).length = 16 := by
        rw [List.length_append, List.length_replicate]
        omega
      have value := ofBeBytes_difficultyFromBytes size
      rw [ofBeBytes_replicate_zero, ofBeBytes_hexDecode decoded] at value
      rw [difficultySize, copy_aligned short]
      refine congrArg (fun d => Except.ok (d, none)) (toNat_inj.mp ?_)
      rw [value, toNat_ofNat, Nat.mod_eq_of_lt]
      rw [← value]
      exact toNat_lt _

theorem difficultyFromString_plain {s : Bytes} (plain : s.take 2 ≠ [48, 120]) :
    difficultyFromString s =
      match hexDecode s with
      | .error err => .ok (zeroDifficulty, some (.hex err))
      | .ok buf => if buf.length ≠ 16 then .ok (zeroDifficulty, some .wrongSize)
          else .ok (difficultyFromBytes buf, none) := if_neg plain

/-! ## The two paths -/

/-- Both calls return, with the same error status, and with the same difficulty if there is none. -/
def Agree (x y : Except Fault (Difficulty × Option TextError)) : Prop :=
  ∃ r r', x = .ok r ∧ y = .ok r' ∧ (r.2 = none ↔ r'.2 = none) ∧ (r'.2 = none → r.1 = r'.1)

theorem unmarshalJSON_quoted (d : Difficulty) (text : Bytes) :
    unmarshalJSON d (quoteByte :: (text ++ [quoteByte])) =
      if text.length % 2 ≠ 0 then .ok (d, some .invalidBytes)
      else if text.length = 32 then
        match hexDecode text with
        | .error err => .ok (d, some (.hex err))
        | .ok buf => .ok (difficultyFromBytes buf, none)
      else
        match difficultyFromString text with
        | .error fault => .error fault
        | .ok (_, some err) => .ok (d, some err)
        | .ok (diff, none) => .ok (diff, none) := by
  have length : (quoteByte :: (text ++ [quoteByte])).length = text.length + 2 := by simp
  have last : (quoteByte :: (text ++ [quoteByte])).getLast? = some quoteByte := by
    rw [List.getLast?_cons, List.getLast?_concat]
    rfl
  have malformed : ((quoteByte :: (text ++ [quoteByte])).length < 2 ∨
      (quoteByte :: (text ++ [quoteByte])).length % 2 ≠ 0 ∨
      (quoteByte :: (text ++ [quoteByte])).getLast? ≠ some quoteByte) ↔ text.length % 2 ≠ 0 := by
    rw [length, last]
    simp only [ne_eq, not_true_eq_false, or_false]
    omega
  have size : (quoteByte :: (text ++ [quoteByte])).length = difficultySize * 2 + 2 ↔ text.length = 32 := by
    rw [length, difficultySize]
    omega
  rw [unmarshalJSON, if_pos rfl]
  simp only [malformed, size, List.dropLast_concat]
  split_ifs with odd wide
  · rfl
  · rw [TextPackages.fasthexDecode_eq text (not_not.mp odd)]
  · rfl

omit [TextPackages] in
theorem agree_general_iff (d : Difficulty) (y : Except Fault (Difficulty × Option TextError)) :
    Agree (match y with
        | .error fault => .error fault
        | .ok (_, some err) => .ok (d, some err)
        | .ok (diff, none) => .ok (diff, none)) y ↔ ∃ r, y = .ok r := by
  constructor
  · rintro ⟨-, r, -, returned, -⟩
    exact ⟨r, returned⟩
  · rintro ⟨⟨diff, err⟩, rfl⟩
    cases err with
    | none => exact ⟨_, _, rfl, rfl, Iff.rfl, fun _ => rfl⟩
    | some err => exact ⟨_, _, rfl, rfl, by simp, fun none => by cases none⟩

theorem difficultyFromString_returns_iff (s : Bytes) : (∃ r, difficultyFromString s = .ok r) ↔
    ∀ digits, s = prefixed digits → IsHex digits → digits.length % 2 = 0 → digits.length ≤ 32 := by
  rcases prefixed_or_plain s with ⟨digits, rfl⟩ | plain
  · rw [difficultyFromString_prefixed]
    cases decoded : hexDecode digits with
    | error err =>
      refine iff_of_true ⟨_, rfl⟩ ?_
      rintro digits' ⟨⟩ hex even
      obtain ⟨buf, other⟩ := (hexDecode_isOk_iff digits).mpr ⟨hex, even⟩
      rw [decoded] at other
      cases other
    | ok buf =>
      have length := length_hexDecode decoded
      obtain ⟨hex, even⟩ := (hexDecode_isOk_iff digits).mp ⟨buf, decoded⟩
      dsimp only
      split_ifs with long
      · refine iff_of_false ?_ fun short => ?_
        · rintro ⟨_, ⟨⟩⟩
        · have := short digits rfl hex even
          omega
      · refine iff_of_true ⟨_, rfl⟩ ?_
        rintro digits' ⟨⟩ - -
        omega
  · refine iff_of_true ?_ ?_
    · rw [difficultyFromString_plain plain]
      cases hexDecode s with
      | error err => exact ⟨_, rfl⟩
      | ok buf =>
        dsimp only
        split_ifs
        · exact ⟨_, rfl⟩
        · exact ⟨_, rfl⟩
    · rintro digits rfl
      exact absurd rfl plain

theorem difficultyFromString_odd {text : Bytes} (odd : text.length % 2 ≠ 0) :
    ∃ err, difficultyFromString text = .ok (zeroDifficulty, some (.hex err)) := by
  have fails : ∀ {digits : Bytes}, digits.length % 2 ≠ 0 → ∃ err, hexDecode digits = .error err := by
    intro digits odd
    cases decoded : hexDecode digits with
    | error err => exact ⟨err, rfl⟩
    | ok buf => exact absurd ((hexDecode_isOk_iff digits).mp ⟨buf, decoded⟩).2 odd
  rcases prefixed_or_plain text with ⟨digits, rfl⟩ | plain
  · obtain ⟨err, failed⟩ := @fails digits (by simp only [prefixed, List.length_cons] at odd; omega)
    refine ⟨err, ?_⟩
    rw [difficultyFromString_prefixed, failed]
  · obtain ⟨err, failed⟩ := fails odd
    refine ⟨err, ?_⟩
    rw [difficultyFromString_plain plain, failed]

theorem agree_fast_iff (d : Difficulty) {text : Bytes} (size : text.length = 32) :
    Agree (match hexDecode text with
        | .error err => .ok (d, some (.hex err))
        | .ok buf => .ok (difficultyFromBytes buf, none)) (difficultyFromString text) ↔
      ∀ digits, text = prefixed digits → ¬ IsHex digits := by
  rcases prefixed_or_plain text with ⟨digits, rfl⟩ | plain
  · have even : digits.length = 30 := by simpa [prefixed] using size
    obtain ⟨err, failed⟩ := hexDecode_prefixed digits
    rw [failed, difficultyFromString_prefixed]
    cases decoded : hexDecode digits with
    | error err' =>
      refine iff_of_true ⟨_, _, rfl, rfl, by simp, fun none => by cases none⟩ ?_
      rintro digits' ⟨⟩ hex
      obtain ⟨buf, other⟩ := (hexDecode_isOk_iff digits).mpr ⟨hex, by rw [even]⟩
      rw [decoded] at other
      cases other
    | ok buf =>
      have length := length_hexDecode decoded
      dsimp only
      rw [if_neg (by omega)]
      refine iff_of_false ?_ fun none => ?_
      · rintro ⟨_, _, ⟨⟩, ⟨⟩, status, -⟩
        exact absurd (status.mpr rfl) (Option.some_ne_none _)
      · exact none digits rfl ((hexDecode_isOk_iff digits).mp ⟨buf, decoded⟩).1
  · refine iff_of_true ?_ ?_
    · rw [difficultyFromString_plain plain]
      cases decoded : hexDecode text with
      | error err => exact ⟨_, _, rfl, rfl, by simp, fun none => by cases none⟩
      | ok buf =>
        have length := length_hexDecode decoded
        dsimp only
        rw [if_neg (by omega)]
        exact ⟨_, _, rfl, rfl, Iff.rfl, fun _ => rfl⟩
    · rintro digits rfl
      exact absurd rfl plain

/-- What is read of a quoted text: the same as by `DifficultyFromString`, unless it is the prefix with
30 digits, and not if that panics. -/
theorem agree_quoted_iff (d : Difficulty) (text : Bytes) :
    Agree (unmarshalJSON d (quoteByte :: (text ++ [quoteByte]))) (difficultyFromString text) ↔
      ∀ digits, text = prefixed digits → IsHex digits → digits.length % 2 = 0 →
        digits.length ≠ 30 ∧ digits.length ≤ 32 := by
  have length : ∀ digits, text = prefixed digits → text.length = digits.length + 2 := by
    rintro digits rfl
    rfl
  rw [unmarshalJSON_quoted]
  split_ifs with odd size
  · obtain ⟨err, failed⟩ := difficultyFromString_odd odd
    rw [failed]
    refine iff_of_true ⟨_, _, rfl, rfl, by simp, fun none => by cases none⟩ fun digits same _ even => ?_
    have := length digits same
    omega
  · rw [agree_fast_iff d size]
    constructor
    · exact fun none digits same hex => absurd hex (none digits same)
    · intro other digits same hex
      have := length digits same
      exact (other digits same hex (by omega)).1 (by omega)
  · rw [agree_general_iff, difficultyFromString_returns_iff]
    constructor
    · intro short digits same hex even
      have := length digits same
      exact ⟨by omega, short digits same hex even⟩
    · exact fun other digits same hex even => (other digits same hex even).2

theorem unmarshalJSON_returns (d : Difficulty) {b : Bytes} (other : ∀ text, b ≠ quoteByte :: (text ++ [quoteByte])) :
    ∃ r, unmarshalJSON d b = .ok r := by
  cases b with
  | nil => exact ⟨_, rfl⟩
  | cons c rest =>
    rw [unmarshalJSON]
    split_ifs with quoted malformed fast
    · exact ⟨_, rfl⟩
    · split
      · exact ⟨_, rfl⟩
      · exact ⟨_, rfl⟩
    · -- a quote at both ends
      obtain ⟨long, -, last⟩ : ¬ (c :: rest).length < 2 ∧ _ ∧ ¬ (c :: rest).getLast? ≠ some quoteByte := by
        simpa only [not_or] using malformed
      have some' : rest ≠ [] := by
        rintro rfl
        exact long (by simp)
      rw [List.getLast?_cons_of_ne_nil some', not_not] at last
      obtain ⟨text, rfl⟩ := List.getLast?_eq_some_iff.mp last
      exact absurd (by rw [quoted]) (other text)
    · split
      · exact ⟨_, rfl⟩
      · exact ⟨_, rfl⟩

/-- `UnmarshalJSON` of a quoted text is `DifficultyFromString` of the text. -/
structure JsonFollowsString (b : Bytes) : Prop where
  returns : ∀ d, ∃ r, unmarshalJSON d b = .ok r
  quoted : ∀ text, b = quoteByte :: (text ++ [quoteByte]) → ∀ d,
    Agree (unmarshalJSON d b) (difficultyFromString text)

/-- Behind `0x`, 32 digits and fewer are read, and more are an error. -/
structure ReadsDigits (s : Bytes) : Prop where
  value : ∀ digits, s = prefixed digits → IsHex digits → digits.length % 2 = 0 → digits.length ≤ 32 →
    difficultyFromString s = .ok (.ofNat (hexValue digits), none)
  longer : ∀ digits, s = prefixed digits → IsHex digits → 32 < digits.length →
    ∃ diff err, difficultyFromString s = .ok (diff, some err)

theorem jsonFollowsString_iff (b : Bytes) : JsonFollowsString b ↔
    ∀ digits, b = quoteByte :: (prefixed digits ++ [quoteByte]) → IsHex digits → digits.length % 2 = 0 →
      digits.length ≠ 30 ∧ digits.length ≤ 32 := by
  constructor
  · rintro follows digits rfl
    exact (agree_quoted_iff zeroDifficulty (prefixed digits)).mp (follows.quoted _ rfl _) digits rfl
  · intro other
    have agree : ∀ text, b = quoteByte :: (text ++ [quoteByte]) → ∀ d,
        Agree (unmarshalJSON d b) (difficultyFromString text) := by
      rintro text rfl d
      refine (agree_quoted_iff d text).mpr ?_
      rintro digits rfl
      exact other digits rfl
    refine ⟨fun d => ?_, agree⟩
    by_cases quoted : ∃ text, b = quoteByte :: (text ++ [quoteByte])
    · obtain ⟨text, same⟩ := quoted
      obtain ⟨r, -, returned, -⟩ := agree text same d
      exact ⟨r, returned⟩
    · exact unmarshalJSON_returns d fun text same => quoted ⟨text, same⟩

theorem readsDigits_iff (s : Bytes) : ReadsDigits s ↔
    ∀ digits, s = prefixed digits → IsHex digits → digits.length % 2 = 0 → digits.length ≤ 32 := by
  rw [← difficultyFromString_returns_iff]
  constructor
  · intro reads
    by_cases fits : ∀ digits, s = prefixed digits → IsHex digits → digits.length ≤ 32
    · refine (difficultyFromString_returns_iff s).mpr fun digits same hex _ => fits digits same hex
    · push Not at fits
      obtain ⟨digits, same, hex, long⟩ := fits
      obtain ⟨diff, err, returned⟩ := reads.longer digits same hex long
      exact ⟨_, returned⟩
  · rintro ⟨r, returned⟩
    constructor
    · rintro digits rfl hex even short
      obtain ⟨buf, decoded⟩ := (hexDecode_isOk_iff digits).mpr ⟨hex, even⟩
      have length := length_hexDecode decoded
      rw [difficultyFromString_prefixed, decoded]
      exact if_neg (by omega)
    · rintro digits rfl hex long
      have short := (difficultyFromString_returns_iff (prefixed digits)).mp ⟨r, returned⟩ digits rfl hex
      obtain ⟨err, failed⟩ := @difficultyFromString_odd _ (prefixed digits) (by
        change (digits.length + 2) % 2 ≠ 0
        omega)
      exact ⟨_, _, failed⟩

/-- Both readers are as they should be exactly on inputs without the prefix in front of 30 digits, where
the fast path refuses it, or of more than 32, where the general path panics. -/
theorem difficultyText_iff (b s : Bytes) :
    (JsonFollowsString b ↔ ∀ digits, b = quoteByte :: (prefixed digits ++ [quoteByte]) → IsHex digits →
        digits.length % 2 = 0 → digits.length ≠ 30 ∧ digits.length ≤ 32) ∧
      (ReadsDigits s ↔ ∀ digits, s = prefixed digits → IsHex digits → digits.length % 2 = 0 →
        digits.length ≤ 32) :=
  ⟨jsonFollowsString_iff b, readsDigits_iff s⟩

end Difficulty

/-- Seventeen bytes behind the prefix make both readers panic, and 30 digits, which are a number, are
refused when they come quoted. -/
theorem difficultyText_fails :
    @Difficulty.unmarshalJSON .exact .zeroDifficulty
        (quoteByte :: (prefixed (List.replicate 34 48) ++ [quoteByte])) =
        .error (.panic "slice bounds out of range") ∧
      @Difficulty.difficultyFromString .exact (prefixed (List.replicate 30 49)) =
        .ok (.ofNat 0x111111111111111111111111111111, none) ∧
      @Difficulty.unmarshalJSON .exact .zeroDifficulty
        (quoteByte :: (prefixed (List.replicate 30 49) ++ [quoteByte])) =
        .ok (.zeroDifficulty, some (.hex (.invalidByte 120))) ∧
      ¬ @Difficulty.JsonFollowsString .exact (quoteByte :: (prefixed (List.replicate 34 48) ++ [quoteByte])) ∧
      ¬ @Difficulty.JsonFollowsString .exact (quoteByte :: (prefixed (List.replicate 30 49) ++ [quoteByte])) ∧
      ¬ @Difficulty.ReadsDigits .exact (prefixed (List.replicate 34 48)) := by
  refine ⟨by decide +kernel, by decide +kernel, by decide +kernel, fun follows => ?_, fun follows => ?_, fun reads => ?_⟩
  · have := (@Difficulty.jsonFollowsString_iff .exact _).mp follows (List.replicate 34 48) rfl (by decide +kernel) (by decide +kernel)
    exact absurd this.2 (by decide)
  · have := (@Difficulty.jsonFollowsString_iff .exact _).mp follows (List.replicate 30 49) rfl (by decide +kernel) (by decide +kernel)
    exact absurd rfl this.1
  · have := (@Difficulty.readsDigits_iff .exact _).mp reads (List.replicate 34 48) rfl (by decide +kernel) (by decide +kernel)
    exact absurd this (by decide)

namespace Difficulty

variable [TextPackages]

/-! ## Round trips -/

theorem string_length (d : Difficulty) : d.string.length = 32 := by
  rw [string, hexEncode_length, bytes_length]

theorem hexDecode_string (d : Difficulty) : hexDecode d.string = .ok d.bytes := hexDecode_hexEncode d.bytes

theorem isHex_string (d : Difficulty) : IsHex d.string := ((hexDecode_isOk_iff d.string).mp ⟨_, hexDecode_string d⟩).1

theorem difficultyFromString_string (d : Difficulty) : difficultyFromString d.string = .ok (d, none) := by
  have plain : d.string.take 2 ≠ [48, 120] := by
    intro there
    have digit := isHex_string d 120 (List.mem_of_mem_take (by rw [there]; simp : 120 ∈ d.string.take 2))
    exact absurd digit (by decide)
  rw [difficultyFromString_plain plain, hexDecode_string]
  dsimp only
  rw [if_neg (not_not.mpr (bytes_length d)), difficultyFromBytes_bytes]

theorem marshalJSON_wide {d : Difficulty} (wide : d.hi ≠ 0) :
    d.marshalJSON = quoteByte :: (d.string ++ [quoteByte]) := by
  rw [marshalJSON, if_neg wide, TextPackages.fasthexEncode_eq, string]

theorem unmarshalJSON_unquoted (d : Difficulty) {b : Bytes} (some' : b ≠ []) (unquoted : b.head? ≠ some quoteByte) :
    unmarshalJSON d b = match parseUint64 b with
      | (lo, some err) => .ok ({ d with lo }, some (.number err))
      | (lo, none) => .ok (⟨lo, 0⟩, none) := by
  cases b with
  | nil => exact absurd rfl some'
  | cons c rest => exact if_neg fun quoted => unquoted (by rw [quoted]; rfl)

theorem unmarshalJSON_unquoted_iff (d : Difficulty) {b : Bytes} (unquoted : b.head? ≠ some quoteByte) :
    (∃ r, unmarshalJSON d b = .ok r) ∧ ∀ e, unmarshalJSON d b = .ok (e, none) ↔
      IsDecimal b ∧ decimalValue b < 2 ^ 64 ∧ e = ⟨UInt64.ofNat (decimalValue b), 0⟩ := by
  by_cases number : IsDecimal b ∧ decimalValue b < 2 ^ 64
  · obtain ⟨digits, fits⟩ := number
    rw [unmarshalJSON_unquoted d digits.1 unquoted, parseUint64_value digits fits]
    refine ⟨⟨_, rfl⟩, fun e => ?_⟩
    rw [and_iff_right digits, and_iff_right fits]
    simp [eq_comm]
  · have refused : ∃ r err, unmarshalJSON d b = .ok (r, some err) := by
      by_cases empty : b = []
      · subst empty
        exact ⟨_, _, rfl⟩
      · rw [unmarshalJSON_unquoted d empty unquoted]
        have fails := (not_congr (parseUint64_none_iff b)).mpr number
        split
        · exact ⟨_, _, rfl⟩
        · rename_i same
          rw [same] at fails
          exact absurd rfl fails
    obtain ⟨r, err, refused⟩ := refused
    refine ⟨⟨_, refused⟩, fun e => iff_of_false ?_ fun accepted => number ⟨accepted.1, accepted.2.1⟩⟩
    rw [refused]
    simp

theorem unmarshalJSON_marshalJSON (d e : Difficulty) : unmarshalJSON e d.marshalJSON = .ok (d, none) := by
  by_cases wide : d.hi = 0
  · have digits := isDecimal_decimal d.lo.toNat
    have value := decimalValue_decimal d.lo.toNat
    have unquoted : (decimal d.lo.toNat).head? ≠ some quoteByte := by
      intro quoted
      have digit := List.all_eq_true.mp digits.2 quoteByte (List.mem_of_head? quoted)
      exact absurd digit (by decide)
    rw [marshalJSON, if_pos wide]
    refine ((unmarshalJSON_unquoted_iff e unquoted).2 d).mpr ⟨digits, ?_, ?_⟩
    · rw [value]
      exact d.lo.toNat_lt
    · rw [value, UInt64.ofNat_toNat, ← wide]
  · rw [marshalJSON_wide wide, unmarshalJSON_quoted, string_length, if_neg (by decide), if_pos rfl, hexDecode_string]
    dsimp only
    rw [difficultyFromBytes_bytes]

/-- The text forms of difficulties and of 64-bit numbers, and where the latter differ from
those of `strconv`. -/
structure TextRoundTrips : Prop where
  json : ∀ d e : Difficulty, unmarshalJSON e d.marshalJSON = .ok (d, none)
  narrow : ∀ d : Difficulty, d.hi = 0 → d.marshalJSON = decimal d.lo.toNat
  wide : ∀ d : Difficulty, d.hi ≠ 0 → ∃ digits, digits.length = 32 ∧ IsHex digits ∧ hexValue digits = d.toNat ∧
    d.marshalJSON = quoteByte :: (digits ++ [quoteByte])
  string : ∀ d : Difficulty, difficultyFromString d.string = .ok (d, none)
  unquoted : ∀ (d : Difficulty) (b : Bytes), b.head? ≠ some quoteByte → (∃ r, unmarshalJSON d b = .ok r) ∧
    ∀ e, unmarshalJSON d b = .ok (e, none) ↔
      IsDecimal b ∧ decimalValue b < 2 ^ 64 ∧ e = ⟨UInt64.ofNat (decimalValue b), 0⟩
  status : ∀ s, (parseUint64 s).2 = none ↔ (strconvParseUint s).2 = none
  value : ∀ s, (strconvParseUint s).2 = none → (parseUint64 s).1 = (strconvParseUint s).1
  onError : ∀ s, (parseUint64 s).2 ≠ none → (parseUint64 s).1 = 0
  /-- The number is that of `strconv.ParseUint`, also with an error, unless `s` starts with
  digits that are out of range. -/
  same : ∀ s, (parseUint64 s).1 = (strconvParseUint s).1 ↔ decimalValue (s.takeWhile isDigit) < 2 ^ 64

/-- Every difficulty is read back from what was written of it; without quotes exactly the
numbers of 64 bits are accepted; and `ParseUint64` is `strconv.ParseUint` but for the number
that comes with a range error. -/
theorem difficultyText_roundTrip : TextRoundTrips where
  json := unmarshalJSON_marshalJSON
  narrow d narrow := if_pos narrow
  wide d wide := by
    refine ⟨d.string, string_length d, isHex_string d, ?_, marshalJSON_wide wide⟩
    rw [← ofBeBytes_hexDecode (hexDecode_string d), ← ofBeBytes_difficultyFromBytes (bytes_length d), difficultyFromBytes_bytes]
  string := difficultyFromString_string
  unquoted d b unquoted := unmarshalJSON_unquoted_iff d unquoted
  status s := (parseUint64_none_iff s).trans (strconvParseUint_none_iff s).symm
  value s accepted := by
    obtain ⟨digits, fits⟩ := (strconvParseUint_none_iff s).mp accepted
    rw [parseUint64_value digits fits, strconvParseUint_value digits fits]
  onError s fails := parseUint64_zero fails
  same := parseUint64_eq_iff

end Difficulty

end P2PoolObserver
