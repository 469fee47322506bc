/-
# Utils.ShortNumbers -- numbers and hashes in base 62 (`number.go`)

The encoders write the shorter of two texts, decimal or hexadecimal digits and base 62, and put a
dot in front of a base 62 text that could be taken for the other.  `EncodeSliceBinaryNumber`,
which writes into a buffer, moves such a text behind the dot but keeps its old length, so that
the last character is lost, and compares that length with the one of the digits.
-/
import P2PoolObserver.Lib.Hex
import P2PoolObserver.Lib.Slice
import P2PoolObserver.Utils.ParseUint

namespace P2PoolObserver

open Lib

/-! ## The package -/

def isLetter (c : UInt8) : Bool := (65 ≤ c && c ≤ 90) || (97 ≤ c && c ≤ 122)

class Base62 where
  encode : Bytes → Bytes
  decode : Bytes → Option Bytes
  formatUint : UInt64 → Bytes
  parseUint : Bytes → Option UInt64
  decode_encode : ∀ src, decode (encode src) = some src
  parseUint_formatUint : ∀ n, parseUint (formatUint n) = some n
  encode_alphabet : ∀ src, ∀ c ∈ encode src, (isDigit c || isLetter c) = true
  formatUint_alphabet : ∀ n, ∀ c ∈ formatUint n, (isDigit c || isLetter c) = true
  encode_zeros : ∀ n, ∀ c ∈ encode (List.replicate n 0), c = 48

open Base62

/-! ## The source -/

def dot : UInt8 := 46

def isNonHexLetter (c : UInt8) : Bool := (71 ≤ c && c ≤ 90) || (103 ≤ c && c ≤ 122)

def hexDecoded : Bytes → Bytes
  | p :: q :: rest =>
    match fromHexChar p, fromHexChar q with
    | some a, some b => UInt8.ofNat (16 * a + b) :: hexDecoded rest
    | _, _ => []
  | _ => []

def shorterText (letter : UInt8 → Bool) (v1 v2 : Bytes) : Bytes :=
  let v1 := if v1.any letter then v1 else dot :: v1
  if v1.length ≥ v2.length then v2 else v1

section Source

variable [Base62]

def decodeBinaryNumber (i : Bytes) : UInt64 :=
  if dot ∉ i ∧ (strconvParseUint i).2 = none then (strconvParseUint i).1
  else (parseUint (i.filter (· ≠ dot))).getD 0

def encodeBinaryNumber (n : UInt64) : Bytes := shorterText isLetter (formatUint n) (decimal n.toNat)

def decodeHexBinaryNumber (i : Bytes) : Bytes :=
  if dot ∉ i ∧ (hexDecode i).isOk then i
  else
    match decode (i.filter (· ≠ dot)) with
    | some n => hexEncode n
    | none => []

def encodeHexBinaryNumber (v2 : Bytes) : Bytes := shorterText isNonHexLetter (encode (hexDecoded v2)) v2

/-- A buffer without room for the text keeps what it has; no result is a slice out of range. -/
def encodeSliceBinaryNumber (dst src : Bytes) : Option Bytes :=
  if dst.length < 1 + src.length * 2 then some []
  else
    let v := encode src
    let dst := if v.length ≤ dst.length then copySlice dst v else dst
    let result := fun (dst v : Bytes) =>
      if v.length ≥ src.length * 2 then (copySlice dst (hexEncode src)).take (src.length * 2) else v
    if v.any isNonHexLetter then some (result dst v)
    else
      let dst := dot :: copySlice (dst.drop 1) v
      if v.length ≤ dst.length then some (result dst (dst.take v.length)) else none

end Source

/-! ## Texts of the alphabet -/

section Texts

variable {v : Bytes}

theorem dot_not_mem (alphabet : ∀ c ∈ v, (isDigit c || isLetter c) = true) : dot ∉ v :=
  fun mem => absurd (alphabet dot mem) (by decide)

theorem filter_dot (alphabet : ∀ c ∈ v, (isDigit c || isLetter c) = true) : v.filter (· ≠ dot) = v := by
  rw [List.filter_eq_self]
  intro c mem
  exact decide_eq_true fun same => dot_not_mem alphabet (same ▸ mem)

theorem shorterText_cases (letter : UInt8 → Bool) (v2 : Bytes) (alphabet : ∀ c ∈ v, (isDigit c || isLetter c) = true) :
    shorterText letter v v2 = v2 ∨ (shorterText letter v v2).filter (· ≠ dot) = v ∧
        (dot ∉ shorterText letter v v2 → ∃ c ∈ shorterText letter v v2, letter c = true) := by
  unfold shorterText
  by_cases lettered : v.any letter
  · rw [if_pos lettered]
    dsimp only
    split_ifs
    · exact .inl rfl
    · exact .inr ⟨filter_dot alphabet, fun _ => List.any_eq_true.mp lettered⟩
  · rw [if_neg lettered]
    dsimp only
    split_ifs
    · exact .inl rfl
    · refine .inr ⟨?_, fun none => absurd (.head _) none⟩
      rw [List.filter_cons_of_neg (by simp), filter_dot alphabet]

end Texts

/-! ## Hexadecimal digits -/

def IsLowerHex (s : Bytes) : Prop := ∀ c ∈ s, isDigit c = true ∨ 97 ≤ c ∧ c ≤ 102

instance (s : Bytes) : Decidable (IsLowerHex s) := inferInstanceAs (Decidable (∀ c ∈ s, _))

theorem hexChar_fromHexChar {c : UInt8} (lower : isDigit c = true ∨ 97 ≤ c ∧ c ≤ 102) :
    ∃ n < 16, fromHexChar c = some n ∧ hexChar n = c := by
  have all : ∀ c : Fin 256, isDigit (UInt8.ofNat c) = true ∨ 97 ≤ UInt8.ofNat c ∧ UInt8.ofNat c ≤ 102 →
      ∃ n < 16, fromHexChar (UInt8.ofNat c) = some n ∧ hexChar n = UInt8.ofNat c := by decide +kernel
  have byte := all ⟨c.toNat, c.toNat_lt⟩
  rw [show UInt8.ofNat (⟨c.toNat, c.toNat_lt⟩ : Fin 256) = c from UInt8.ofNat_toNat] at byte
  exact byte lower

theorem exists_hexEncode : ∀ {s : Bytes}, IsLowerHex s → s.length % 2 = 0 → ∃ bs, s = hexEncode bs
  | [], _, _ => ⟨[], rfl⟩
  | [p], _, even => absurd even (by simp)
  | p :: q :: rest, lower, even => by
    obtain ⟨a, smallA, -, isP⟩ := hexChar_fromHexChar (lower p (by simp))
    obtain ⟨b, smallB, -, isQ⟩ := hexChar_fromHexChar (lower q (by simp))
    obtain ⟨bs, rfl⟩ := exists_hexEncode (s := rest) (fun c mem => lower c (by simp [mem]))
      (by simp only [List.length_cons] at even; omega)
    refine ⟨UInt8.ofNat (16 * a + b) :: bs, ?_⟩
    have byte : (UInt8.ofNat (16 * a + b)).toNat = 16 * a + b := by
      rw [UInt8.toNat_ofNat', Nat.mod_eq_of_lt (by omega)]
    change _ = hexChar ((UInt8.ofNat (16 * a + b)).toNat / 16) :: hexChar ((UInt8.ofNat (16 * a + b)).toNat % 16) ::
      hexEncode bs
    rw [byte, show (16 * a + b) / 16 = a by omega, show (16 * a + b) % 16 = b by omega, isP, isQ]

theorem hexDecoded_hexEncode (bs : Bytes) : hexDecoded (hexEncode bs) = bs := by
  induction bs with
  | nil => rfl
  | cons b bs ih =>
    have small := b.toNat_lt
    change hexDecoded (hexChar (b.toNat / 16) :: hexChar (b.toNat % 16) :: hexEncode bs) = _
    rw [hexDecoded, fromHexChar_hexChar (by omega), fromHexChar_hexChar (by omega)]
    dsimp only
    rw [ih, Nat.div_add_mod, UInt8.ofNat_toNat]

theorem not_mem_of_isHex {s : Bytes} (hex : IsHex s) : dot ∉ s := fun mem => absurd (hex dot mem) (by decide)

theorem not_isHex_letter {c : UInt8} (letter : isNonHexLetter c = true) : fromHexChar c = none := by
  simp only [isNonHexLetter, Bool.or_eq_true, Bool.and_eq_true, decide_eq_true_eq, UInt8.le_iff_toNat_le,
    UInt8.reduceToNat] at letter
  simp only [fromHexChar, UInt8.le_iff_toNat_le, UInt8.reduceToNat]
  rw [if_neg (by omega), if_neg (by omega), if_neg (by omega)]

/-! ## Round trips -/

section RoundTrips

variable [Base62]

theorem decodeBinaryNumber_encodeBinaryNumber (n : UInt64) : decodeBinaryNumber (encodeBinaryNumber n) = n := by
  have digits := isDecimal_decimal n.toNat
  have value := decimalValue_decimal n.toNat
  unfold decodeBinaryNumber encodeBinaryNumber
  rcases shorterText_cases isLetter (decimal n.toNat) (formatUint_alphabet n) with isDecimal | ⟨text, lettered⟩
  · have parsed := strconvParseUint_value digits (by rw [value]; exact n.toNat_lt)
    have noDot : dot ∉ decimal n.toNat := fun mem => absurd (List.all_eq_true.mp digits.2 dot mem) (by decide)
    rw [isDecimal, parsed, if_pos ⟨noDot, rfl⟩, value, UInt64.ofNat_toNat]
  · rw [if_neg, text, parseUint_formatUint, Option.getD_some]
    rintro ⟨noDot, parsed⟩
    obtain ⟨c, mem, letter⟩ := lettered noDot
    have digit := List.all_eq_true.mp ((strconvParseUint_none_iff _).mp parsed).1.2 c mem
    simp only [isDigit, isLetter, Bool.or_eq_true, Bool.and_eq_true, decide_eq_true_eq, UInt8.le_iff_toNat_le,
      UInt8.reduceToNat] at digit letter
    omega

theorem decodeHexBinaryNumber_encodeHexBinaryNumber (bs : Bytes) :
    decodeHexBinaryNumber (encodeHexBinaryNumber (hexEncode bs)) = hexEncode bs := by
  have decoded := hexDecode_hexEncode bs
  unfold decodeHexBinaryNumber encodeHexBinaryNumber
  rw [hexDecoded_hexEncode]
  rcases shorterText_cases isNonHexLetter (hexEncode bs) (encode_alphabet bs) with isHex | ⟨text, lettered⟩
  · have noDot := not_mem_of_isHex ((hexDecode_isOk_iff (hexEncode bs)).mp ⟨bs, decoded⟩).1
    rw [isHex, decoded, if_pos ⟨noDot, rfl⟩]
  · rw [if_neg, text, decode_encode]
    rintro ⟨noDot, ok⟩
    obtain ⟨c, mem, letter⟩ := lettered noDot
    cases decoded' : hexDecode (shorterText isNonHexLetter (encode bs) (hexEncode bs)) with
    | error e =>
      rw [decoded'] at ok
      cases ok
    | ok bs' =>
      have hex := ((hexDecode_isOk_iff _).mp ⟨bs', decoded'⟩).1 c mem
      rw [not_isHex_letter letter] at hex
      cases hex

/-! ## The encoder into a buffer -/

/-- The two encoders agree exactly if no dot is written, or the digits are shorter without it. -/
theorem encodeSliceBinaryNumber_iff {dst src : Bytes} (large : 1 + src.length * 2 ≤ dst.length)
    (room : (encode src).length ≤ dst.length) :
    encodeSliceBinaryNumber dst src = some (encodeHexBinaryNumber (hexEncode src)) ↔
      (encode src).any isNonHexLetter = true ∨ src.length * 2 ≤ (encode src).length := by
  have digits := hexEncode_length src
  have hexResult : ∀ buf : Bytes, buf.length = dst.length →
      (copySlice buf (hexEncode src)).take (src.length * 2) = hexEncode src := by
    intro buf length
    rw [copySlice_of_le (by omega), List.take_left' (by omega)]
  have filled : (copySlice dst (encode src)).length = dst.length := by
    rw [copySlice_of_le room, List.length_append, List.length_drop]
    omega
  unfold encodeSliceBinaryNumber encodeHexBinaryNumber shorterText
  rw [hexDecoded_hexEncode, if_neg (by omega)]
  dsimp only
  rw [if_pos room, digits]
  by_cases lettered : (encode src).any isNonHexLetter = true
  · rw [if_pos lettered, if_pos lettered, hexResult _ filled, Nat.mul_comm]
    exact iff_of_true (by split_ifs <;> rfl) (.inl lettered)
  · have moved : (dot :: copySlice ((copySlice dst (encode src)).drop 1) (encode src)).length = dst.length := by
      rw [List.length_cons, copySlice, List.length_append, List.length_take, List.length_drop, List.length_drop,
        List.length_drop, filled]
      omega
    have taken : ((dot :: copySlice ((copySlice dst (encode src)).drop 1) (encode src)).take (encode src).length).length =
        (encode src).length := by
      rw [List.length_take, moved, Nat.min_eq_left room]
    rw [if_neg lettered, if_neg lettered, moved, if_pos room, taken, hexResult _ moved, List.length_cons, Nat.mul_comm,
      Option.some_inj, or_iff_right lettered]
    constructor
    · intro same
      by_contra shorter
      rw [if_neg (by omega)] at same
      have length := congrArg List.length same
      rw [taken] at length
      split_ifs at length
      · omega
      · rw [List.length_cons] at length
        omega
    · intro long
      rw [if_pos long, if_pos (by omega)]

/-- The round trips hold, and the two encoders of bytes agree on these only. -/
theorem shortNumbers_iff (n : UInt64) {h : Bytes} (lower : IsLowerHex h) (even : h.length % 2 = 0) {dst src : Bytes}
    (large : 1 + src.length * 2 ≤ dst.length) (room : (encode src).length ≤ dst.length) :
    (decodeBinaryNumber (encodeBinaryNumber n) = n ∧ decodeHexBinaryNumber (encodeHexBinaryNumber h) = h ∧
      encodeSliceBinaryNumber dst src = some (encodeHexBinaryNumber (hexEncode src))) ↔
      (encode src).any isNonHexLetter = true ∨ src.length * 2 ≤ (encode src).length := by
  obtain ⟨bs, rfl⟩ := exists_hexEncode lower even
  rw [and_iff_right (decodeBinaryNumber_encodeBinaryNumber n),
    and_iff_right (decodeHexBinaryNumber_encodeHexBinaryNumber bs), encodeSliceBinaryNumber_iff large room]

end RoundTrips

/-! ## A library that meets the laws -/

namespace ShortExample

/-- Zeros take a character for every six bits, and so do the bytes `00 10`; others are marked by
a letter. -/
def text (src : Bytes) : Bytes :=
  if src = List.replicate src.length 0 then List.replicate ((src.length * 4 + 2) / 3) 48
  else if src = [0, 16] then [71, 48, 48]
  else 71 :: hexEncode src

theorem text_injective : Function.Injective text := by
  -- a text that is marked is the one of no zeros
  have marked : ∀ (n : Nat) (rest : Bytes), List.replicate n (48 : UInt8) ≠ 71 :: rest := fun n rest same =>
    absurd (List.eq_of_mem_replicate (same ▸ List.mem_cons_self : (71 : UInt8) ∈ List.replicate n 48)) (by decide)
  have short : ∀ c : Bytes, [71, 48, 48] = 71 :: hexEncode c → c = [0] := by
    intro c same
    have decoded := congrArg hexDecoded (List.cons.inj same).2
    rw [hexDecoded_hexEncode] at decoded
    exact decoded.symm
  intro a b same
  unfold text at same
  split_ifs at same with zerosA zerosB isB isA zerosB isB zerosB isB
  · have length := congrArg List.length same
    rw [List.length_replicate, List.length_replicate] at length
    rw [zerosA, zerosB, show a.length = b.length by omega]
  · exact absurd same (marked _ _)
  · exact absurd same (marked _ _)
  · exact absurd same.symm (marked _ _)
  · rw [isA, isB]
  · exact absurd (short b same ▸ rfl) zerosB
  · exact absurd same.symm (marked _ _)
  · exact absurd (short a same.symm ▸ rfl) zerosA
  · have decoded := congrArg hexDecoded (List.cons.inj same).2
    rwa [hexDecoded_hexEncode, hexDecoded_hexEncode] at decoded

theorem text_alphabet (src : Bytes) : ∀ c ∈ text src, (isDigit c || isLetter c) = true := by
  have char : ∀ n < 16, (isDigit (hexChar n) || isLetter (hexChar n)) = true := by decide
  intro c mem
  unfold text at mem
  split_ifs at mem
  · rw [List.eq_of_mem_replicate mem]
    decide
  · simp only [List.mem_cons, List.not_mem_nil, or_false] at mem
    rcases mem with rfl | rfl | rfl <;> decide
  · rcases List.mem_cons.mp mem with rfl | mem
    · decide
    · obtain ⟨b, -, mem⟩ := List.mem_flatMap.mp mem
      have small := b.toNat_lt
      rw [List.mem_cons, List.mem_singleton] at mem
      rcases mem with rfl | rfl
      · exact char _ (by omega)
      · exact char _ (by omega)

open Classical in
noncomputable def inverse {α : Type} (f : α → Bytes) (s : Bytes) : Option α :=
  if written : ∃ a, f a = s then some written.choose else none

theorem inverse_apply {α : Type} {f : α → Bytes} (injective : Function.Injective f) (a : α) : inverse f (f a) = some a := by
  have written : ∃ b, f b = f a := ⟨a, rfl⟩
  rw [inverse, dif_pos written, injective written.choose_spec]

@[reducible]
noncomputable def library : Base62 where
  encode := text
  decode := inverse text
  formatUint := fun n => decimal n.toNat
  parseUint := inverse fun n : UInt64 => decimal n.toNat
  decode_encode := inverse_apply text_injective
  parseUint_formatUint := inverse_apply fun _ _ same => UInt64.toNat_inj.mp (decimal_inj same)
  encode_alphabet := text_alphabet
  formatUint_alphabet := fun n c mem => by
    rw [List.all_eq_true.mp (isDecimal_decimal n.toNat).2 c mem, Bool.true_or]
  encode_zeros := fun n c mem => by
    rw [text, if_pos (by rw [List.length_replicate])] at mem
    exact List.eq_of_mem_replicate mem

/-- A zero byte takes two digits or characters, and `00 10` is shorter as `G00`. -/
theorem shortNumbers_iff_letter :
    letI := library
    decodeBinaryNumber (encodeBinaryNumber 5) = 5 ∧ decodeHexBinaryNumber (encodeHexBinaryNumber [48, 48]) = [48, 48] ∧
      encodeSliceBinaryNumber [0, 0, 0, 0, 0] [0, 16] = some (encodeHexBinaryNumber (hexEncode [0, 16])) :=
  letI := library
  (shortNumbers_iff 5 (by decide +kernel) rfl (by decide) (by decide)).mpr (.inl (by decide))

/-- Two zero bytes: `.00`, and not `0000`. -/
theorem encodeSlice_zeros :
    letI := library
    encodeSliceBinaryNumber [0, 0, 0, 0, 0] [0, 0] = some [46, 48, 48] ∧
      encodeHexBinaryNumber (hexEncode [0, 0]) = [48, 48, 48, 48] ∧
      encodeSliceBinaryNumber [0, 0, 0, 0, 0] [0, 0] ≠ some (encodeHexBinaryNumber (hexEncode [0, 0])) := by
  decide

end ShortExample

end P2PoolObserver
