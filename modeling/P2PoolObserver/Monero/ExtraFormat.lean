/-
# Monero.ExtraFormat -- the extra field as a format (`extra.go`)

An input is complete tags of distinct kinds and then something at which the loop of the decoder
ends (`ExtraTags.exists_split`, `Stop`).

Two habits of the source show here.  The variable that the tags are read into is the same for
all, so that a public key keeps the varint of the tag before it (`carry`); and the end of the
input, where it is reported as `io.EOF`, ends the loop inside a tag as well.
-/
import P2PoolObserver.Sidechain.Inversion

namespace P2PoolObserver

open Lib Lib.Reader

namespace ExtraTag

variable {t : ExtraTag} {bytes input : Bytes} {kind : UInt8}

/-! ## The format -/

/-- A tag as the encoder writes it: a known kind with its varint, length and limit. -/
structure Proper (t : ExtraTag) : Prop where
  kind : t.tag ∈ kinds
  hasVarInt : t.hasVarInt = kindHasVarInt t.tag
  padding : t.tag = txExtraTagPadding → ∃ n ≤ 254, t.data = List.replicate n 0
  length : t.tag ≠ txExtraTagPadding → t.data.length = kindLength t.tag t.varInt
  limit : ∀ max ∈ kindLimit t.tag, t.varInt ≤ max

def VarIntForm (t : ExtraTag) (form : Bytes) : Prop :=
  if t.hasVarInt = true then Reads readUvarint form t.varInt else form = []

/-- The bytes are a whole encoding of a proper tag, with a varint that may be over-long. -/
structure Complete (t : ExtraTag) (bytes : Bytes) : Prop where
  proper : t.Proper
  layout : ∃ form, t.VarIntForm form ∧ bytes = t.tag :: (form ++ t.data)

theorem Proper.complete (proper : t.Proper) : t.Complete t.appendBinary := by
  refine ⟨proper, if t.hasVarInt then uvarint t.varInt.toNat else [], ?_, rfl⟩
  unfold VarIntForm
  split_ifs
  · exact reads_uvarint64 t.varInt
  · rfl

theorem Complete.ne_nil (complete : t.Complete bytes) : bytes ≠ [] := by
  obtain ⟨form, -, rfl⟩ := complete.layout
  exact List.cons_ne_nil _ _

/-! ## One read -/

def withinLimit (kind : UInt8) (v : UInt64) : Bool := (kindLimit kind).all fun max => decide (v ≤ max)

theorem withinLimit_iff {v : UInt64} : withinLimit kind v = true ↔ ∀ max ∈ kindLimit kind, v ≤ max := by
  unfold withinLimit
  cases kindLimit kind <;> simp

def limitMessage (kind : UInt8) : String :=
  if kind = txExtraTagAdditionalPubKeys then "too many public keys" else "nonce is too big"

def readVarIntKind (prev : ExtraTag) (kind : UInt8) : Reader ExtraTag := do
  let varInt ← readUvarint
  check (withinLimit kind varInt = true) (limitMessage kind)
  let data ← readFull (kindLength kind varInt)
  return { prev with tag := kind, hasVarInt := true, varInt := varInt, data := data }

theorem fromReader_varIntKind (known : kind ∈ kinds)
    (hasVarInt : kindHasVarInt kind = true) (prev : ExtraTag) (body : Bytes) :
    prev.fromReader (kind :: body) = readVarIntKind prev kind body := by
  have counted : ∀ (tag : UInt8) (limit : UInt64) (message : String) (unit : Nat),
      kindLimit tag = some limit → limitMessage tag = message →
      (∀ v, kindLength tag v = unit * v.toNat) →
      readCounted prev tag limit message unit = readVarIntKind prev tag := by
    intro tag limit message unit bound text length
    have same : ∀ v, check (withinLimit tag v = true) (limitMessage tag) = check (v ≤ limit) message := by
      intro v
      rw [text]
      exact if_congr (by simp [withinLimit, bound]) rfl rfl
    simp only [readCounted, readCountedWith, readVarIntKind, same, length]
  simp only [kinds, List.mem_cons, List.not_mem_nil, or_false] at known
  rcases known with rfl | rfl | rfl | rfl | rfl | rfl
  · cases hasVarInt
  · cases hasVarInt
  · rw [← counted _ _ "nonce is too big" 1 rfl rfl fun _ => (Nat.one_mul _).symm]
    rfl
  · -- the depth has no limit
    simp only [readVarIntKind, withinLimit, kindLimit]
    rfl
  · rw [← counted _ _ "too many public keys" hashSize rfl rfl fun _ => rfl]
    rfl
  · rw [← counted _ _ "nonce is too big" 1 rfl rfl fun _ => (Nat.one_mul _).symm]
    rfl

theorem fromReader_pubKey (prev : ExtraTag) (body : Bytes) :
    prev.fromReader (txExtraTagPubKey :: body) =
      Reader.bind (readFull 32)
        (fun data => Reader.pure { prev with tag := txExtraTagPubKey, data := data }) body := rfl

/-- What the variable `prev` holds after a complete tag was read into it. -/
def carry (prev t : ExtraTag) : ExtraTag :=
  if kindHasVarInt t.tag = true then t
  else { t with hasVarInt := prev.hasVarInt, varInt := prev.varInt }

@[simp] theorem carry_tag (prev t : ExtraTag) : (carry prev t).tag = t.tag := by
  unfold carry
  split_ifs <;> rfl

@[simp] theorem carry_data (prev t : ExtraTag) : (carry prev t).data = t.data := by
  unfold carry
  split_ifs <;> rfl

theorem eq_pubKey_of_kind (data : kind ≠ txExtraTagPadding)
    (bare : kindHasVarInt kind = false) : kind = txExtraTagPubKey := by
  unfold kindHasVarInt at bare
  simpa [data] using bare

theorem fromReader_complete (complete : t.Complete bytes)
    (data : t.tag ≠ txExtraTagPadding) (prev : ExtraTag) : Reads prev.fromReader bytes (carry prev t) := by
  intro rest
  obtain ⟨form, formed, rfl⟩ := complete.layout
  have length := complete.proper.length data
  cases hasVarInt : kindHasVarInt t.tag with
  | true =>
    rw [VarIntForm, complete.proper.hasVarInt, if_pos hasVarInt] at formed
    have within := withinLimit_iff.mpr complete.proper.limit
    have read : Reads (readVarIntKind prev t.tag) (form ++ t.data) (carry prev t) := by
      refine reads_bind formed (reads_check_bind within (reads_bind_last (reads_full length) ?_))
      rw [carry, if_pos hasVarInt]
      simp only [← hasVarInt, ← complete.proper.hasVarInt]
    rw [List.cons_append, fromReader_varIntKind complete.proper.kind hasVarInt]
    exact read rest
  | false =>
    have pubKey := eq_pubKey_of_kind data hasVarInt
    rw [VarIntForm, complete.proper.hasVarInt, hasVarInt, if_neg Bool.false_ne_true] at formed
    have size : t.data.length = 32 := by
      rw [length, pubKey]
      rfl
    rw [formed, List.cons_append, List.nil_append, pubKey, fromReader_pubKey,
      bind_ok (reads_full size rest), carry, hasVarInt, if_neg Bool.false_ne_true, ← pubKey]
    rfl

theorem readPadding_zeros : ∀ (fuel size n : Nat), n < fuel →
    readPadding fuel size (List.replicate n 0) = .ok (size + n, [])
  | 0, _, _, less => absurd less (Nat.not_lt_zero _)
  | fuel + 1, size, 0, _ => rfl
  | fuel + 1, size, n + 1, less => by
    rw [List.replicate_succ, readPadding]
    simp only [ne_eq, not_true, if_false]
    rw [readPadding_zeros fuel (size + 1) n (by omega), Nat.add_right_comm]
    rfl

theorem readPadding_other : ∀ (fuel size : Nat) (input : Bytes), (∀ n < fuel, input ≠ List.replicate n 0) →
      readPadding fuel size input = .error (.invalid "padding is not zero") ∨
        ∃ rest, readPadding fuel size input = .ok (size + fuel, rest)
  | 0, size, input, _ => .inr ⟨input, rfl⟩
  | fuel + 1, size, [], other => absurd rfl (other 0 (Nat.succ_pos fuel))
  | fuel + 1, size, zero :: input, other => by
    rw [readPadding]
    by_cases isZero : zero = 0
    · subst isZero
      simp only [ne_eq, not_true, if_false]
      have rest := readPadding_other fuel (size + 1) input fun n less same =>
        other (n + 1) (by omega) (by rw [same, List.replicate_succ])
      rwa [Nat.add_right_comm] at rest
    · exact .inl (if_pos isZero)

theorem fromReader_padding (prev : ExtraTag) (body : Bytes) :
    prev.fromReader (txExtraTagPadding :: body) =
      Reader.bind (readPadding txExtraPaddingMaxCount 1) (fun size =>
        Reader.bind (check (size ≤ txExtraPaddingMaxCount) "padding is too big") fun _ =>
          if size < 2 then crash "makeslice: len out of range"
          else Reader.pure { prev with
            tag := txExtraTagPadding, data := List.replicate (size - 2) 0 }) body := rfl

theorem fromReader_padding_zeros (prev : ExtraTag) {n : Nat} (few : n ≤ 254) :
    prev.fromReader (txExtraTagPadding :: List.replicate n 0) =
      if n = 0 then .error (.panicked "makeslice: len out of range")
      else .ok ({ prev with tag := txExtraTagPadding, data := List.replicate (n - 1) 0 }, []) := by
  have zeros := readPadding_zeros txExtraPaddingMaxCount 1 n (Nat.lt_succ_of_le few)
  have small : check (1 + n ≤ txExtraPaddingMaxCount) "padding is too big" [] = .ok ((), []) :=
    check_eq_ok.mpr ⟨by rw [Nat.add_comm]; exact Nat.succ_le_succ few, rfl⟩
  rw [fromReader_padding, bind_ok zeros, bind_ok small]
  by_cases none : n = 0
  · rw [if_pos (by omega), if_pos none]
    rfl
  · rw [if_neg (by omega), if_neg none, show 1 + n - 2 = n - 1 by omega]
    rfl

/-! ## Every input -/

/-- The error of a read that is neither the end of the input nor a crash. -/
def Refuses (input : Bytes) : Prop :=
  ∀ prev : ExtraTag, ∃ e, prev.fromReader input = .error e ∧ e ≠ .eof ∧ ∀ m, e ≠ .panicked m

/-- The input ends right after the first byte of a tag with data, or right after its varint
where data have to follow. -/
def StopsInside (input : Bytes) : Prop :=
  ∃ kind ∈ kinds, kind ≠ txExtraTagPadding ∧ (input = [kind] ∨
    ∃ v form, kindHasVarInt kind = true ∧ Reads readUvarint form v ∧
      (∀ max ∈ kindLimit kind, v ≤ max) ∧ kindLength kind v ≠ 0 ∧ input = kind :: form)

theorem StopsInside.eof (inside : StopsInside input) (prev : ExtraTag) :
    prev.fromReader input = .error .eof := by
  obtain ⟨kind, known, data, rfl | ⟨v, form, hasVarInt, form_reads, limit, some', rfl⟩⟩ := inside
  · cases hasVarInt : kindHasVarInt kind with
    | true =>
      rw [fromReader_varIntKind known hasVarInt]
      rfl
    | false =>
      rw [eq_pubKey_of_kind data hasVarInt]
      rfl
  · have first := form_reads []
    rw [List.append_nil] at first
    have passed : check (withinLimit kind v = true) (limitMessage kind) [] = .ok ((), []) :=
      check_eq_ok.mpr ⟨withinLimit_iff.mpr limit, rfl⟩
    have ended : readFull (kindLength kind v) [] = .error .eof := by
      rw [readFull, if_neg (by simpa using some'), if_pos rfl]
    rw [fromReader_varIntKind known hasVarInt, readVarIntKind]
    simp only [monad_bind_eq, monad_pure_eq]
    rw [bind_ok first, bind_ok passed, Reader.bind, ended]

theorem readFull_cases (n : Nat) (input : Bytes) :
    (∃ data rest, data.length = n ∧ input = data ++ rest ∧ readFull n input = .ok (data, rest)) ∨
      (input = [] ∧ n ≠ 0 ∧ readFull n input = .error .eof) ∨ readFull n input = .error .unexpectedEof := by
  unfold readFull
  split_ifs with enough empty
  · refine .inl ⟨input.take n, input.drop n, ?_, (List.take_append_drop n input).symm, rfl⟩
    rw [List.length_take]
    omega
  · refine .inr (.inl ⟨empty, ?_, rfl⟩)
    rintro rfl
    exact enough (Nat.zero_le _)
  · exact .inr (.inr rfl)

inductive Next (input : Bytes) : Prop
  | tag (t : ExtraTag) (piece rest : Bytes) (complete : t.Complete piece)
      (data : t.tag ≠ txExtraTagPadding) (split : input = piece ++ rest)
  | stops (inside : StopsInside input)
  | padding (n : Nat) (few : n ≤ 254) (zeros : input = txExtraTagPadding :: List.replicate n 0)
  | refused (refuses : Refuses input)

theorem refuses_of {e : ReadError}
    (run : ∀ prev : ExtraTag, prev.fromReader input = .error e) (eof : e ≠ .eof)
    (crash : ∀ m, e ≠ .panicked m) : Refuses input := fun prev => ⟨e, run prev, eof, crash⟩

theorem refuses_invalid (message : String)
    (run : ∀ prev : ExtraTag, prev.fromReader input = .error (.invalid message)) : Refuses input :=
  refuses_of run nofun nofun

theorem refuses_short
    (run : ∀ prev : ExtraTag, prev.fromReader input = .error .unexpectedEof) : Refuses input :=
  refuses_of run nofun nofun

theorem next_padding (body : Bytes) : Next (txExtraTagPadding :: body) := by
  by_cases zeros : ∃ n ≤ 254, body = List.replicate n 0
  · obtain ⟨n, few, rfl⟩ := zeros
    exact .padding n few rfl
  · have other : ∀ n < txExtraPaddingMaxCount, body ≠ List.replicate n 0 := fun n less same =>
      zeros ⟨n, Nat.le_of_lt_succ less, same⟩
    rcases readPadding_other txExtraPaddingMaxCount 1 body other with stopped | ⟨rest, counted⟩
    · refine .refused (refuses_invalid "padding is not zero" fun prev => ?_)
      rw [fromReader_padding, Reader.bind, stopped]
    · refine .refused (refuses_invalid "padding is too big" fun prev => ?_)
      rw [fromReader_padding, bind_ok counted]
      rfl

theorem next_pubKey (body : Bytes) : Next (txExtraTagPubKey :: body) := by
  have known : txExtraTagPubKey ∈ kinds := by decide
  have apart : txExtraTagPubKey ≠ txExtraTagPadding := by decide
  rcases readFull_cases 32 body with ⟨data, rest, length, split, -⟩ | ⟨rfl, -, -⟩ | short
  · refine .tag ⟨0, txExtraTagPubKey, false, data⟩ (txExtraTagPubKey :: data) rest ?_ apart
      (by rw [split]; rfl)
    exact ⟨⟨known, rfl, fun padding => absurd padding apart, fun _ => length, nofun⟩, [], rfl, rfl⟩
  · exact .stops ⟨txExtraTagPubKey, known, apart, .inl rfl⟩
  · refine .refused (refuses_short fun prev => ?_)
    rw [fromReader_pubKey, Reader.bind, short]

theorem next_varIntKind (known : kind ∈ kinds) (hasVarInt : kindHasVarInt kind = true)
    (body : Bytes) : Next (kind :: body) := by
  have data : kind ≠ txExtraTagPadding := by
    rintro rfl
    cases hasVarInt
  have run := fun prev => fromReader_varIntKind known hasVarInt prev body
  simp only [readVarIntKind, monad_bind_eq, monad_pure_eq] at run
  cases first : readUvarint body with
  | error e =>
    have failed : ∀ prev : ExtraTag, prev.fromReader (kind :: body) = .error e := by
      intro prev
      rw [run prev, Reader.bind, first]
    by_cases eof : e = .eof
    · subst eof
      rw [readUvarint_eq_eof_iff] at first
      exact .stops ⟨kind, known, data, .inl (by rw [first])⟩
    · refine .refused (refuses_of failed eof ?_)
      rintro m rfl
      exact normal_uvarint _ m first
  | ok p =>
    obtain ⟨v, after⟩ := p
    obtain ⟨form, -, rfl, form_reads⟩ := readUvarint_form first
    by_cases within : withinLimit kind v = true
    · have passed : check (withinLimit kind v = true) (limitMessage kind) after = .ok ((), after) :=
        check_eq_ok.mpr ⟨within, rfl⟩
      have after_check := fun prev => (run prev).trans ((bind_ok first _).trans (bind_ok passed _))
      rcases readFull_cases (kindLength kind v) after with
        ⟨bytes, rest, length, rfl, -⟩ | ⟨rfl, some', -⟩ | short
      · refine .tag ⟨v, kind, true, bytes⟩ (kind :: (form ++ bytes)) rest ?_ data (by simp)
        refine ⟨⟨known, hasVarInt.symm, fun padding => absurd padding data, fun _ => length,
          withinLimit_iff.mp within⟩, form, ?_, rfl⟩
        exact form_reads
      · exact .stops ⟨kind, known, data, .inr ⟨v, form, hasVarInt, form_reads,
          withinLimit_iff.mp within, some', by rw [List.append_nil]⟩⟩
      · refine .refused (refuses_short fun prev => ?_)
        rw [after_check prev, Reader.bind, short]
    · refine .refused (refuses_invalid (limitMessage kind) fun prev => ?_)
      rw [run prev, bind_ok first, Reader.bind, check, if_neg within]
      rfl

theorem next (kind : UInt8) (body : Bytes) : Next (kind :: body) := by
  by_cases known : kind ∈ kinds
  · by_cases padding : kind = txExtraTagPadding
    · exact padding ▸ next_padding body
    · cases hasVarInt : kindHasVarInt kind with
      | true => exact next_varIntKind known hasVarInt body
      | false => exact eq_pubKey_of_kind padding hasVarInt ▸ next_pubKey body
  · refine .refused (refuses_invalid ("unknown extra tag " ++ toString kind) fun prev => ?_)
    simp only [kinds, List.mem_cons, List.not_mem_nil, or_false, not_or] at known
    obtain ⟨padding, pubKey, nonce, mergeMining, additional, minergate⟩ := known
    simp only [fromReader, fromReaderWith, monad_bind_eq, Reader.bind, readByte, padding, pubKey, nonce, mergeMining,
      additional, minergate, if_false]
    rfl

theorem Complete.cancel {u : ExtraTag} {a b r s : Bytes} (ta : t.Complete a) (ub : u.Complete b)
    (dataT : t.tag ≠ txExtraTagPadding) (dataU : u.tag ≠ txExtraTagPadding)
    (same : a ++ r = b ++ s) : a = b ∧ r = s := by
  have readT := fromReader_complete ta dataT default r
  have readU := fromReader_complete ub dataU default s
  rw [same, readU] at readT
  obtain rfl : s = r := (Prod.mk.inj (Except.ok.inj readT)).2
  exact ⟨List.append_cancel_right same, rfl⟩

end ExtraTag

/-! ## Lists of tags -/

namespace ExtraTags

open ExtraTag (Complete carry kinds kindHasVarInt)

variable {tags : ExtraTags}

def Encodes : ExtraTags → Bytes → Prop
  | [], x => x = []
  | t :: tags, x => ∃ piece rest, t.Complete piece ∧ x = piece ++ rest ∧ Encodes tags rest

def NoPadding (tags : ExtraTags) : Prop := ∀ t ∈ tags, t.tag ≠ txExtraTagPadding

def PubKeyFirst (tags : ExtraTags) : Prop := ∀ t ∈ tags.tail, t.tag ≠ txExtraTagPubKey

/-- The tags as the loop of the decoder returns them when it starts with the variable `prev`. -/
def carried (prev : ExtraTag) : ExtraTags → ExtraTags
  | [] => []
  | t :: tags => carry prev t :: carried (carry prev t) tags

def lastOf (prev : ExtraTag) : ExtraTags → ExtraTag
  | [] => prev
  | t :: tags => lastOf (carry prev t) tags

theorem map_tag_carried (tags : ExtraTags) :
    ∀ prev, (carried prev tags).map ExtraTag.tag = tags.map ExtraTag.tag := by
  induction tags with
  | nil =>
    intro prev
    rfl
  | cons t tags ih =>
    intro prev
    rw [carried, List.map_cons, List.map_cons, ih, ExtraTag.carry_tag]

theorem length_carried (tags : ExtraTags) (prev : ExtraTag) : (carried prev tags).length = tags.length := by
  have same := congrArg List.length (map_tag_carried tags prev)
  rwa [List.length_map, List.length_map] at same

theorem appendBinary_append (tags more : ExtraTags) :
    appendBinary (tags ++ more) = tags.appendBinary ++ more.appendBinary := List.flatMap_append

theorem encodes_appendBinary (proper : ∀ t ∈ tags, t.Proper) : Encodes tags tags.appendBinary := by
  induction tags with
  | nil => rfl
  | cons t tags ih =>
    exact ⟨t.appendBinary, ExtraTags.appendBinary tags, (proper t (.head _)).complete, rfl,
      ih fun u mem => proper u (.tail t mem)⟩

theorem Encodes.proper {tags : ExtraTags} : ∀ {x : Bytes}, Encodes tags x → ∀ t ∈ tags, t.Proper := by
  induction tags with
  | nil =>
    intro x _ t mem
    cases mem
  | cons u tags ih =>
    rintro x ⟨piece, rest, complete, -, more⟩ t mem
    rcases List.mem_cons.mp mem with rfl | mem
    · exact complete.proper
    · exact ih more t mem

theorem Encodes.length_le : ∀ {x : Bytes}, Encodes tags x → tags.length ≤ x.length := by
  induction tags with
  | nil =>
    intro x _
    exact Nat.zero_le _
  | cons t tags ih =>
    rintro x ⟨piece, rest, complete, rfl, more⟩
    have positive := List.length_pos_iff.mpr complete.ne_nil
    have tail := ih more
    rw [List.length_cons, List.length_append]
    omega

theorem Encodes.cancel {tags : ExtraTags} : ∀ {us vs : ExtraTags} {front tail : Bytes},
    Encodes tags front → tags.NoPadding → Encodes (us ++ vs) (front ++ tail) →
    NoPadding us → us.length = tags.length → Encodes vs tail := by
  induction tags with
  | nil =>
    intro us vs front tail first _ whole _ length
    obtain rfl : us = [] := List.length_eq_zero_iff.mp length
    obtain rfl : front = [] := first
    exact whole
  | cons t tags ih =>
    rintro us vs front tail ⟨piece, rest, complete, rfl, more⟩ noPadding whole noPadding' length
    cases us with
    | nil => cases length
    | cons u us =>
      obtain ⟨piece', rest', complete', split, more'⟩ := whole
      rw [List.append_assoc] at split
      obtain ⟨rfl, rfl⟩ := complete.cancel complete' (noPadding t (.head _))
        (noPadding' u (.head _)) split
      exact ih more (fun w mem => noPadding w (.tail t mem)) more'
        (fun w mem => noPadding' w (.tail u mem)) (Nat.succ.inj length)

def Truncated (x : Bytes) : Prop :=
  ∃ (tags : ExtraTags) (front : Bytes) (t : ExtraTag) (piece part missing : Bytes),
    Encodes tags front ∧ NoPadding tags ∧ t.Complete piece ∧ t.tag ≠ txExtraTagPadding ∧
    piece = part ++ missing ∧ part ≠ [] ∧ missing ≠ [] ∧ x = front ++ part

theorem Encodes.not_truncated : ∀ {x : Bytes}, Encodes tags x → tags.NoPadding → ¬ Truncated x := by
  rintro x whole noPadding ⟨others, front, t, piece, part, missing, first, noPadding', complete, data,
    split, some', lacks, rfl⟩
  induction others generalizing tags front with
  | nil =>
    obtain rfl : front = [] := first
    cases tags with
    | nil => exact some' whole
    | cons u tags =>
      obtain ⟨piece', rest, complete', eq, -⟩ := whole
      rw [List.nil_append] at eq
      have same : piece' ++ (rest ++ missing) = piece ++ [] := by
        rw [split, eq, List.append_nil, List.append_assoc]
      have ends := (complete'.cancel complete (noPadding u (.head _)) data same).2
      exact lacks (List.append_eq_nil_iff.mp ends).2
  | cons w others ih =>
    obtain ⟨piece', rest, complete', rfl, more⟩ := first
    cases tags with
    | nil =>
      have empty := List.append_eq_nil_iff.mp (whole : piece' ++ rest ++ part = [])
      exact some' empty.2
    | cons u tags =>
      obtain ⟨piece'', rest', complete'', eq, more'⟩ := whole
      rw [List.append_assoc] at eq
      obtain ⟨-, rfl⟩ := complete'.cancel complete'' (noPadding' w (.head _))
        (noPadding u (.head _)) eq
      exact ih (fun v mem => noPadding v (.tail u mem)) rest more
        (fun v mem => noPadding' v (.tail w mem)) more'

/-! ## The loop -/

theorem getTag_isSome_iff (tags : ExtraTags) (kind : UInt8) :
    (getTag tags kind).isSome = true ↔ kind ∈ tags.map ExtraTag.tag := by
  rw [getTag, List.find?_isSome, List.mem_map]
  simp only [beq_iff_eq]

theorem loop_encodes : ∀ {acc : ExtraTags} {prev : ExtraTag} {front : Bytes}
    (fuel : Nat) (tail : Bytes), Encodes tags front → tags.NoPadding →
    (acc.map ExtraTag.tag ++ tags.map ExtraTag.tag).Nodup →
    fromReaderLoopWith readUvarint (fuel + tags.length) acc prev (front ++ tail) =
      fromReaderLoopWith readUvarint fuel (acc ++ carried prev tags) (lastOf prev tags) tail := by
  induction tags with
  | nil =>
    intro acc prev front fuel tail first _ _
    obtain rfl : front = [] := first
    simp [carried, lastOf]
  | cons t tags ih =>
    rintro acc prev front fuel tail ⟨piece, rest, complete, rfl, more⟩ noPadding nodup
    have read := ExtraTag.fromReader_complete complete (noPadding t (.head _)) prev
      (rest ++ tail)
    have fresh : ¬ (getTag acc (carry prev t).tag).isSome = true := by
      rw [getTag_isSome_iff, ExtraTag.carry_tag]
      intro mem
      exact List.disjoint_of_nodup_append nodup mem (.head _)
    rw [List.append_assoc, List.length_cons, ← Nat.add_assoc, fromReaderLoopWith]
    simp only [read, fresh, if_false, Bool.false_eq_true]
    rw [ih fuel tail more (fun u mem => noPadding u (.tail t mem))
      (by simpa [List.append_assoc] using nodup), List.append_assoc]
    rfl

theorem fromReader_encodes {front : Bytes} (tail : Bytes)
    (first : Encodes tags front) (noPadding : tags.NoPadding)
    (nodup : (tags.map ExtraTag.tag).Nodup) : ∃ fuel, tail.length ≤ fuel ∧ fromReader (front ++ tail) =
        fromReaderLoopWith readUvarint (fuel + 1) (carried default tags) (lastOf default tags) tail := by
  have enough := first.length_le
  refine ⟨front.length + tail.length - tags.length, by omega, ?_⟩
  have steps : (front ++ tail).length + 1 =
      front.length + tail.length - tags.length + 1 + tags.length := by
    rw [List.length_append]
    omega
  rw [fromReader, fromReaderWith, steps, loop_encodes _ tail first noPadding (by simpa using nodup), List.nil_append]

section Ends

variable {tags : ExtraTags} {front : Bytes} (first : Encodes tags front) (noPadding : tags.NoPadding)
  (nodup : (tags.map ExtraTag.tag).Nodup)
include first noPadding nodup

theorem fromReader_end : fromReader front = .ok (carried default tags, []) := by
  obtain ⟨fuel, -, run⟩ := fromReader_encodes [] first noPadding nodup
  rw [List.append_nil] at run
  rw [run]
  rfl

theorem fromReader_stops {tail : Bytes} (inside : ExtraTag.StopsInside tail) :
    fromReader (front ++ tail) = .ok (carried default tags, []) := by
  obtain ⟨fuel, -, run⟩ := fromReader_encodes tail first noPadding nodup
  rw [run, fromReaderLoopWith]
  simp only [inside.eof]

def paddingTag (prev : ExtraTag) (n : Nat) : ExtraTag :=
  { prev with tag := txExtraTagPadding, data := List.replicate (n - 1) 0 }

theorem fromReader_padding {n : Nat} (few : n ≤ 254) :
    fromReader (front ++ txExtraTagPadding :: List.replicate n 0) =
      if n = 0 then .error (.panicked "makeslice: len out of range")
      else .ok (carried default tags ++ [paddingTag (lastOf default tags) n], []) := by
  obtain ⟨fuel, enough, run⟩ := fromReader_encodes (txExtraTagPadding :: List.replicate n 0) first
    noPadding nodup
  have fresh : ¬ (getTag (carried default tags) txExtraTagPadding).isSome = true := by
    rw [getTag_isSome_iff, map_tag_carried, List.mem_map]
    rintro ⟨t, mem, padding⟩
    exact noPadding t mem padding
  rw [run, fromReaderLoopWith]
  simp only [ExtraTag.fromReader_padding_zeros _ few]
  by_cases none : n = 0
  · simp only [none, if_true]
  · obtain ⟨fuel, rfl⟩ : ∃ f, fuel = f + 1 := ⟨fuel - 1, by simp at enough; omega⟩
    simp only [none, if_false, fresh, Bool.false_eq_true]
    rfl

end Ends

/-! ## Every input is complete tags and an end -/

inductive Stop (seen : List UInt8) (tail : Bytes) : Prop
  | nil (ends : tail = [])
  | inside (inside : ExtraTag.StopsInside tail)
  | padding (n : Nat) (few : n ≤ 254) (zeros : tail = txExtraTagPadding :: List.replicate n 0)
  | refused (refuses : ExtraTag.Refuses tail)
  | repeated (t : ExtraTag) (piece rest : Bytes) (complete : t.Complete piece)
      (data : t.tag ≠ txExtraTagPadding) (again : t.tag ∈ seen) (split : tail = piece ++ rest)

theorem exists_split (length : Nat) : ∀ (x : Bytes) (seen : List UInt8), x.length ≤ length →
    seen.Nodup → ∃ (tags : ExtraTags) (front tail : Bytes), Encodes tags front ∧ NoPadding tags ∧
      (seen ++ tags.map ExtraTag.tag).Nodup ∧ x = front ++ tail ∧
      Stop (seen ++ tags.map ExtraTag.tag) tail := by
  have here : ∀ (x : Bytes) (seen : List UInt8), seen.Nodup → Stop seen x →
      ∃ (tags : ExtraTags) (front tail : Bytes), Encodes tags front ∧ NoPadding tags ∧
        (seen ++ tags.map ExtraTag.tag).Nodup ∧ x = front ++ tail ∧
        Stop (seen ++ tags.map ExtraTag.tag) tail := by
    intro x seen nodup stop
    exact ⟨[], [], x, rfl, nofun, by simpa using nodup, rfl, by simpa using stop⟩
  induction length with
  | zero =>
    intro x seen short nodup
    exact here x seen nodup (.nil (List.length_eq_zero_iff.mp (Nat.le_zero.mp short)))
  | succ length ih =>
    intro x seen short nodup
    cases x with
    | nil => exact here [] seen nodup (.nil rfl)
    | cons kind body =>
      cases ExtraTag.next kind body with
      | stops inside => exact here _ seen nodup (.inside inside)
      | padding n few zeros => exact here _ seen nodup (.padding n few zeros)
      | refused refuses => exact here _ seen nodup (.refused refuses)
      | tag t piece rest complete data split =>
        by_cases again : t.tag ∈ seen
        · exact here _ seen nodup (.repeated t piece rest complete data again split)
        · have shorter : rest.length ≤ length := by
            have total := congrArg List.length split
            have positive := List.length_pos_iff.mpr complete.ne_nil
            simp only [List.length_append] at total
            omega
          have nodup' : (seen ++ [t.tag]).Nodup := by
            rw [List.nodup_append_comm]
            exact List.nodup_cons.mpr ⟨again, nodup⟩
          obtain ⟨tags, front, tail, encodes, noPadding, distinct, rfl, stop⟩ :=
            ih rest (seen ++ [t.tag]) shorter nodup'
          refine ⟨t :: tags, piece ++ front, tail, ⟨piece, front, complete, rfl, encodes⟩, ?_,
            by simpa [List.append_assoc] using distinct, by rw [split, List.append_assoc],
            by simpa [List.append_assoc] using stop⟩
          intro u mem
          rcases List.mem_cons.mp mem with rfl | mem
          · exact data
          · exact noPadding u mem

/-! ## What is carried over -/

section Carried

theorem carried_of_varInt {tags : ExtraTags} : ∀ {prev : ExtraTag},
    (∀ t ∈ tags, kindHasVarInt t.tag = true) → carried prev tags = tags := by
  induction tags with
  | nil =>
    intro prev _
    rfl
  | cons t tags ih =>
    intro prev varInts
    rw [carried, carry, if_pos (varInts t List.mem_cons_self),
      ih fun u mem => varInts u (.tail t mem)]

theorem shaped_carried_iff {tags : ExtraTags} : ∀ {prev : ExtraTag}, prev.hasVarInt = true →
    (∀ t ∈ tags, t.Proper) → tags.NoPadding → ((∀ u ∈ carried prev tags, u.hasVarInt = kindHasVarInt u.tag) ↔
      ∀ t ∈ tags, t.tag ≠ txExtraTagPubKey) := by
  induction tags with
  | nil =>
    intro prev _ _ _
    simp [carried]
  | cons t tags ih =>
    intro prev stale proper noPadding
    have properTail : ∀ u ∈ tags, u.Proper := fun u mem => proper u (.tail t mem)
    have noPaddingTail : NoPadding tags := fun u mem => noPadding u (.tail t mem)
    simp only [carried, List.forall_mem_cons, ExtraTag.carry_tag]
    cases hasVarInt : kindHasVarInt t.tag with
    | true =>
      have same : carry prev t = t := if_pos hasVarInt
      have own : t.hasVarInt = true := (proper t (.head _)).hasVarInt.trans hasVarInt
      have notPubKey : t.tag ≠ txExtraTagPubKey := by
        intro pubKey
        rw [pubKey] at hasVarInt
        cases hasVarInt
      rw [same, ih own properTail noPaddingTail]
      simp only [own, true_and, notPubKey, ne_eq, not_false_eq_true]
    | false =>
      have pubKey := ExtraTag.eq_pubKey_of_kind (noPadding t (.head _)) hasVarInt
      have kept : (carry prev t).hasVarInt = true := by
        rw [carry, hasVarInt, if_neg Bool.false_ne_true]
        exact stale
      simp only [kept, Bool.true_eq_false, false_and, pubKey, ne_eq, not_true]

variable {tags : ExtraTags} (proper : ∀ t ∈ tags, t.Proper) (noPadding : tags.NoPadding)
  (nodup : (tags.map ExtraTag.tag).Nodup)
include proper noPadding nodup

theorem shaped_carried_default_iff :
    (∀ u ∈ carried default tags, u.hasVarInt = kindHasVarInt u.tag) ↔ PubKeyFirst tags := by
  cases tags with
  | nil => simp [carried, PubKeyFirst]
  | cons t tags =>
    have properTail : ∀ u ∈ tags, u.Proper := fun u mem => proper u (.tail t mem)
    have noPaddingTail : NoPadding tags := fun u mem => noPadding u (.tail t mem)
    simp only [carried, List.forall_mem_cons, ExtraTag.carry_tag, PubKeyFirst, List.tail_cons]
    cases hasVarInt : kindHasVarInt t.tag with
    | true =>
      have same : carry default t = t := if_pos hasVarInt
      have own : t.hasVarInt = true := (proper t (.head _)).hasVarInt.trans hasVarInt
      rw [same, shaped_carried_iff own properTail noPaddingTail]
      simp only [own, true_and]
    | false =>
      -- no second public key follows, so all others have a varint of their own
      have pubKey := ExtraTag.eq_pubKey_of_kind (noPadding t (.head _)) hasVarInt
      have others : ∀ u ∈ tags, u.tag ≠ txExtraTagPubKey := by
        intro u mem again
        rw [List.map_cons, List.nodup_cons, pubKey, ← again] at nodup
        exact nodup.1 (List.mem_map_of_mem mem)
      have varInts : ∀ u ∈ tags, kindHasVarInt u.tag = true := by
        intro u mem
        simp [kindHasVarInt, noPaddingTail u mem, others u mem]
      rw [carried_of_varInt varInts]
      refine ⟨fun _ => others, fun _ => ⟨?_, fun u mem => (properTail u mem).hasVarInt⟩⟩
      simp only [carry, hasVarInt, if_false, Bool.false_eq_true]
      rfl

theorem carried_default_eq_iff : carried default tags = tags ↔
    PubKeyFirst tags ∧ ∀ t ∈ tags, t.tag = txExtraTagPubKey → t.varInt = 0 := by
  constructor
  · intro same
    have first : PubKeyFirst tags := by
      rw [← shaped_carried_default_iff proper noPadding nodup, same]
      exact fun u mem => (proper u mem).hasVarInt
    refine ⟨first, fun t mem pubKey => ?_⟩
    cases tags with
    | nil => cases mem
    | cons u tags =>
      rcases List.mem_cons.mp mem with rfl | later
      · have head : carry default t = t := (List.cons.inj same).1
        have bare : ¬ kindHasVarInt t.tag = true := by
          rw [pubKey]
          decide
        rw [carry, if_neg bare] at head
        exact (congrArg ExtraTag.varInt head).symm
      · exact absurd pubKey (first t later)
  · rintro ⟨first, zero⟩
    cases tags with
    | nil => rfl
    | cons t tags =>
      have varInts : ∀ u ∈ tags, kindHasVarInt u.tag = true := by
        intro u mem
        simp [kindHasVarInt, noPadding u (.tail t mem), first u mem]
      rw [carried, carried_of_varInt varInts]
      congr 1
      cases hasVarInt : kindHasVarInt t.tag with
      | true => exact if_pos hasVarInt
      | false =>
        have pubKey := ExtraTag.eq_pubKey_of_kind (noPadding t (.head _)) hasVarInt
        have own := (proper t (.head _)).hasVarInt
        have none := zero t (.head _) pubKey
        rw [hasVarInt] at own
        unfold carry
        rw [hasVarInt, if_neg Bool.false_ne_true]
        cases t
        simp only at own none
        subst own none
        rfl

end Carried

theorem complete_carry {prev t : ExtraTag} {piece : Bytes} (complete : t.Complete piece)
    (data : t.tag ≠ txExtraTagPadding)
    (shaped : (carry prev t).hasVarInt = kindHasVarInt t.tag) : (carry prev t).Complete piece := by
  cases hasVarInt : kindHasVarInt t.tag with
  | true =>
    rw [carry, if_pos hasVarInt]
    exact complete
  | false =>
    have pubKey := ExtraTag.eq_pubKey_of_kind data hasVarInt
    obtain ⟨form, formed, rfl⟩ := complete.layout
    rw [ExtraTag.VarIntForm, complete.proper.hasVarInt, hasVarInt, if_neg Bool.false_ne_true] at formed
    rw [hasVarInt] at shaped
    refine ⟨⟨?_, ?_, ?_, ?_, ?_⟩, form, ?_, ?_⟩
    · rw [ExtraTag.carry_tag]
      exact complete.proper.kind
    · rw [ExtraTag.carry_tag, shaped, hasVarInt]
    · rw [ExtraTag.carry_tag]
      exact fun padding => absurd padding data
    · intro _
      rw [ExtraTag.carry_data, ExtraTag.carry_tag, complete.proper.length data, pubKey]
      rfl
    · rw [ExtraTag.carry_tag, pubKey]
      nofun
    · rw [ExtraTag.VarIntForm, shaped, if_neg Bool.false_ne_true]
      exact formed
    · rw [ExtraTag.carry_tag, ExtraTag.carry_data]

theorem Encodes.carried {tags : ExtraTags} : ∀ {prev : ExtraTag} {x : Bytes}, Encodes tags x →
    tags.NoPadding → (∀ u ∈ carried prev tags, u.hasVarInt = kindHasVarInt u.tag) →
    Encodes (carried prev tags) x := by
  induction tags with
  | nil =>
    intro prev x whole _ _
    exact whole
  | cons t tags ih =>
    rintro prev x ⟨piece, rest, complete, rfl, more⟩ noPadding shaped
    have head := shaped _ (.head _)
    rw [ExtraTag.carry_tag] at head
    exact ⟨piece, rest, complete_carry complete (noPadding t (.head _)) head, rfl,
      ih more (fun u mem => noPadding u (.tail t mem))
        fun u mem => shaped u (.tail _ mem)⟩

/-! ## Round trips -/

/-- The encoding of distinct well-formed tags, of which only the last may be padding, is read
back exactly if there is no padding, a public key comes first, and the varint a public key
does not write is zero. -/
theorem roundTrip_iff (tags : ExtraTags) (proper : ∀ t ∈ tags, t.Proper)
    (distinct : (tags.map ExtraTag.tag).Nodup) (paddingLast : NoPadding tags.dropLast) :
    fromReader tags.appendBinary = .ok (tags, []) ↔
      NoPadding tags ∧ PubKeyFirst tags ∧ ∀ t ∈ tags, t.tag = txExtraTagPubKey → t.varInt = 0 := by
  by_cases noPadding : NoPadding tags
  · rw [fromReader_end (encodes_appendBinary proper) noPadding distinct, Except.ok.injEq,
      Prod.mk.injEq, carried_default_eq_iff proper noPadding distinct]
    simp only [noPadding, and_true, true_and]
  · simp only [noPadding, false_and, iff_false]
    intro back
    obtain ⟨p, mem, padding⟩ : ∃ p ∈ tags, p.tag = txExtraTagPadding := by
      simpa [NoPadding] using noPadding
    have nonempty : tags ≠ [] := List.ne_nil_of_mem mem
    obtain ⟨init, last, rfl⟩ : ∃ init last, tags = init ++ [last] :=
      ⟨_, _, (List.dropLast_append_getLast nonempty).symm⟩
    rw [List.dropLast_concat] at paddingLast
    have isLast : p = last := by
      rcases List.mem_append.mp mem with early | late
      · exact absurd padding (paddingLast p early)
      · exact List.mem_singleton.mp late
    subst isLast
    have properInit : ∀ t ∈ init, t.Proper := fun t early => proper t (List.mem_append_left _ early)
    have distinctInit : (List.map ExtraTag.tag init).Nodup := by
      rw [List.map_append] at distinct
      exact distinct.of_append_left
    obtain ⟨n, few, data⟩ := (proper p mem).padding padding
    have bare : p.hasVarInt = false := by
      rw [(proper p mem).hasVarInt, padding]
      rfl
    have bytes : appendBinary (init ++ [p]) =
        appendBinary init ++ txExtraTagPadding :: List.replicate n 0 := by
      rw [appendBinary_append]
      simp [appendBinary, concatBytes, ExtraTag.appendBinary, ExtraTag.header, bare, padding, data]
    rw [bytes, fromReader_padding (encodes_appendBinary properInit) paddingLast distinctInit few] at back
    split_ifs at back with none
    · have same := (Prod.mk.inj (Except.ok.inj back)).1
      have lastSame := (List.append_inj' same rfl).2
      have lengths := congrArg (fun l : ExtraTags => l.map fun t => t.data.length) lastSame
      simp only [paddingTag, data, List.map_cons, List.map_nil, List.length_replicate, List.cons.injEq,
        and_true] at lengths
      omega

section Examples

theorem proper_of_kind {t : ExtraTag} (tag : UInt8) (same : t.tag = tag) (kind : tag ∈ kinds)
    (data : tag ≠ txExtraTagPadding) (hasVarInt : t.hasVarInt = kindHasVarInt tag)
    (length : t.data.length = ExtraTag.kindLength tag t.varInt)
    (limit : ∀ max ∈ ExtraTag.kindLimit tag, t.varInt ≤ max) : t.Proper := by
  subst same
  exact ⟨kind, hasVarInt, fun padding => absurd padding data, fun _ => length, limit⟩

def pubKeyTag : ExtraTag := ⟨0, txExtraTagPubKey, false, List.replicate 32 7⟩
def nonceTag : ExtraTag := ⟨4, txExtraTagNonce, true, [1, 2, 3, 4]⟩

theorem pubKeyTag_proper : pubKeyTag.Proper :=
  proper_of_kind txExtraTagPubKey rfl (by decide) (by decide) rfl rfl nofun

theorem nonceTag_proper : nonceTag.Proper := by
  refine proper_of_kind txExtraTagNonce rfl (by decide) (by decide) rfl rfl fun max limit => ?_
  obtain rfl : txExtraNonceMaxCount = max := Option.some.inj limit
  decide

theorem roundTrip_iff_pubKey_nonce :
    fromReader (appendBinary [pubKeyTag, nonceTag]) = .ok ([pubKeyTag, nonceTag], []) := by
  refine (roundTrip_iff [pubKeyTag, nonceTag] ?_ (by decide) (by unfold NoPadding; decide)).mpr ?_
  · intro t mem
    rcases List.mem_cons.mp mem with rfl | mem
    · exact pubKeyTag_proper
    · exact List.mem_singleton.mp mem ▸ nonceTag_proper
  · unfold NoPadding PubKeyFirst
    decide

/-- In the other order the public key comes back with the varint of the nonce, and of two
zeros of padding one comes back. -/
theorem roundTrip_fails :
    (∀ t ∈ [nonceTag, pubKeyTag], t.Proper) ∧ ([nonceTag, pubKeyTag].map ExtraTag.tag).Nodup ∧
      NoPadding [nonceTag, pubKeyTag].dropLast ∧
      fromReader (appendBinary [nonceTag, pubKeyTag]) =
        .ok ([nonceTag, { pubKeyTag with hasVarInt := true, varInt := 4 }], []) ∧
      fromReader (appendBinary [⟨0, txExtraTagPadding, false, [0, 0]⟩]) =
        .ok ([⟨0, txExtraTagPadding, false, [0]⟩], []) := by
  refine ⟨?_, by decide, by unfold NoPadding; decide, by decide +kernel, by decide +kernel⟩
  intro t mem
  rcases List.mem_cons.mp mem with rfl | mem
  · exact nonceTag_proper
  · exact List.mem_singleton.mp mem ▸ pubKeyTag_proper

end Examples

variable {tags : ExtraTags} {x : Bytes}

/-! ## Inputs that are accepted in part -/

/-- Complete tags of distinct kinds with a public key after another tag, or followed by the
beginning of a tag that ends where `io.EOF` is reported, or by padding. -/
def Lossy (x : Bytes) : Prop :=
  ∃ (tags : ExtraTags) (front tail : Bytes), Encodes tags front ∧ NoPadding tags ∧
    (tags.map ExtraTag.tag).Nodup ∧ x = front ++ tail ∧
    (tail = [] ∧ ¬ PubKeyFirst tags ∨ ExtraTag.StopsInside tail ∨
      ∃ n ≤ 254, tail = txExtraTagPadding :: List.replicate n 0)

/-- The decoder does not crash, accepts complete tags only and leaves nothing out. -/
structure ReadsWhole (x : Bytes) : Prop where
  returns : ∀ message, fromReader x ≠ .error (.panicked message)
  complete : ∀ tags rest, fromReader x = .ok (tags, rest) → Encodes tags x
  /-- Where a reader that refuses over-long varints does the same. -/
  minimal : fromReaderWith readMinimal x = fromReader x →
    ∀ tags rest, fromReader x = .ok (tags, rest) → tags.appendBinary = x
  truncated : Truncated x → ∃ e, fromReader x = .error e

theorem truncated_of_stopsInside {front tail : Bytes} (first : Encodes tags front)
    (noPadding : tags.NoPadding) (inside : ExtraTag.StopsInside tail) : Truncated (front ++ tail) := by
  obtain ⟨kind, known, data, rfl | ⟨v, form, hasVarInt, form_reads, limit, some', rfl⟩⟩ := inside
  · cases hasVarInt : kindHasVarInt kind with
    | true =>
      -- a tag that counts no data, or one that names the depth zero
      have zeros : (List.replicate (ExtraTag.kindLength kind 0) (0 : UInt8)).length =
        ExtraTag.kindLength kind 0 := List.length_replicate
      have proper : ExtraTag.Proper ⟨0, kind, true, List.replicate (ExtraTag.kindLength kind 0) 0⟩ :=
        ⟨known, hasVarInt.symm, fun padding => absurd padding data, fun _ => zeros,
          fun max _ => UInt64.le_iff_toNat_le.mpr (Nat.zero_le _)⟩
      exact ⟨tags, front, _, _, [kind], _, first, noPadding, proper.complete, data, rfl,
        List.cons_ne_nil _ _, by simp, rfl⟩
    | false =>
      obtain rfl := ExtraTag.eq_pubKey_of_kind data hasVarInt
      have proper : ExtraTag.Proper ⟨0, txExtraTagPubKey, false, List.replicate 32 0⟩ :=
        ⟨known, rfl, fun padding => absurd padding data, fun _ => rfl, nofun⟩
      exact ⟨tags, front, _, _, [txExtraTagPubKey], _, first, noPadding, proper.complete, data, rfl,
        List.cons_ne_nil _ _, List.cons_ne_nil _ _, rfl⟩
  · have zeros : (List.replicate (ExtraTag.kindLength kind v) (0 : UInt8)).length =
      ExtraTag.kindLength kind v := List.length_replicate
    have complete : ExtraTag.Complete ⟨v, kind, true, List.replicate (ExtraTag.kindLength kind v) 0⟩
        (kind :: (form ++ List.replicate (ExtraTag.kindLength kind v) 0)) :=
      ⟨⟨known, hasVarInt.symm, fun padding => absurd padding data, fun _ => zeros, limit⟩,
        form, form_reads, rfl⟩
    refine ⟨tags, front, _, _, kind :: form, _, first, noPadding, complete, data, rfl,
      List.cons_ne_nil _ _, ?_, rfl⟩
    intro empty
    rw [empty] at zeros
    exact some' zeros.symm

theorem noPadding_carried (noPadding : tags.NoPadding) (prev : ExtraTag) : NoPadding (carried prev tags) := by
  intro u mem padding
  have listed : txExtraTagPadding ∈ tags.map ExtraTag.tag := by
    rw [← map_tag_carried tags prev, ← padding]
    exact List.mem_map_of_mem mem
  obtain ⟨t, mem', same⟩ := List.mem_map.mp listed
  exact noPadding t mem' same

theorem not_readsWhole_of_lossy (lossy : Lossy x) : ¬ ReadsWhole x := by
  rintro ⟨returns, complete, -, truncated⟩
  obtain ⟨tags, front, tail, first, noPadding, nodup, rfl, ⟨rfl, notFirst⟩ | inside | ⟨n, few, rfl⟩⟩ :=
    lossy
  · have run := fromReader_end first noPadding nodup
    rw [List.append_nil] at complete
    have shaped := (complete _ _ run).proper
    rw [← shaped_carried_default_iff first.proper noPadding nodup] at notFirst
    exact notFirst fun u mem => (shaped u mem).hasVarInt
  · have run := fromReader_stops first noPadding nodup inside
    obtain ⟨e, failed⟩ := truncated (truncated_of_stopsInside first noPadding inside)
    rw [run] at failed
    cases failed
  · have run := fromReader_padding first noPadding nodup few
    split_ifs at run with none
    · exact returns _ run
    · -- the last tag has one zero less than the input
      have last := first.cancel noPadding (complete _ _ run) (noPadding_carried noPadding default)
        (length_carried tags default)
      obtain ⟨piece, rest, pieceComplete, split, ends⟩ := last
      obtain rfl : rest = [] := ends
      obtain ⟨form, formed, rfl⟩ := pieceComplete.layout
      have bare : (paddingTag (lastOf default tags) n).hasVarInt = false :=
        pieceComplete.proper.hasVarInt
      rw [ExtraTag.VarIntForm, bare, if_neg Bool.false_ne_true] at formed
      have lengths := congrArg List.length split
      simp only [formed, paddingTag, List.append_nil, List.nil_append, List.length_cons,
        List.length_replicate] at lengths
      omega

theorem readsWhole_of_error {e : ReadError} (run : fromReader x = .error e)
    (normal : ∀ m, e ≠ .panicked m) : ReadsWhole x where
  returns m panicked := normal m (Except.error.inj (run.symm.trans panicked))
  complete _ _ ok := nomatch run.symm.trans ok
  minimal _ _ _ ok := nomatch run.symm.trans ok
  truncated _ := ⟨e, run⟩

theorem readsWhole_of_invalid (message : String) (run : fromReader x = .error (.invalid message)) :
    ReadsWhole x := readsWhole_of_error run nofun

theorem readsWhole_of_encodes (first : Encodes tags x)
    (noPadding : tags.NoPadding) (nodup : (tags.map ExtraTag.tag).Nodup)
    (pubKeyFirst : PubKeyFirst tags) : ReadsWhole x := by
  have run := fromReader_end first noPadding nodup
  have shaped := (shaped_carried_default_iff first.proper noPadding nodup).mpr pubKeyFirst
  have whole := first.carried noPadding shaped
  have kept := noPadding_carried noPadding default
  constructor
  · intro m panicked
    cases run.symm.trans panicked
  · intro all rest ok
    obtain ⟨rfl, -⟩ := Prod.mk.inj (Except.ok.inj (run.symm.trans ok))
    exact whole
  · intro minimal all rest ok
    obtain ⟨rfl, -⟩ := Prod.mk.inj (Except.ok.inj (run.symm.trans ok))
    have plain : ∀ u ∈ carried default tags,
        u.tag ≠ txExtraTagPadding ∧ (u.tag = txExtraTagPubKey → u.hasVarInt = false) := by
      intro u mem
      refine ⟨kept u mem, fun pubKey => ?_⟩
      rw [shaped u mem, pubKey]
      rfl
    obtain ⟨new, tail, eq, bytes⟩ :=
      ExtraTags.loop_inverts readMinimal_inverts (minimal.trans run) plain
    rw [List.nil_append] at eq
    subst eq
    -- nothing can follow the tags in both readings
    have again := encodes_appendBinary whole.proper
    have ends : Encodes [] tail :=
      again.cancel kept (by rw [← bytes, List.append_nil]; exact whole) kept rfl
    rw [bytes, show tail = [] from ends, List.append_nil]
  · intro truncated
    exact absurd truncated (first.not_truncated noPadding)

theorem readsWhole_of_not_lossy (sound : ¬ Lossy x) : ReadsWhole x := by
  obtain ⟨tags, front, tail, first, noPadding, nodup, rfl, stop⟩ :=
    exists_split x.length x [] le_rfl List.nodup_nil
  rw [List.nil_append] at nodup stop
  cases stop with
  | inside inside => exact absurd ⟨tags, front, tail, first, noPadding, nodup, rfl, .inr (.inl inside)⟩ sound
  | padding n few zeros =>
    exact absurd ⟨tags, front, tail, first, noPadding, nodup, rfl, .inr (.inr ⟨n, few, zeros⟩)⟩ sound
  | refused refuses =>
    obtain ⟨fuel, -, run⟩ := fromReader_encodes tail first noPadding nodup
    obtain ⟨e, failed, notEof, normal⟩ := refuses (lastOf default tags)
    refine readsWhole_of_error (e := e) ?_ normal
    rw [run, fromReaderLoopWith]
    cases e with
    | eof => exact absurd rfl notEof
    | unexpectedEof | overflow | invalid m => simp only [failed]
    | panicked m => exact absurd rfl (normal m)
  | repeated t piece rest complete data again split =>
    obtain ⟨fuel, -, run⟩ := fromReader_encodes tail first noPadding nodup
    refine readsWhole_of_invalid "tag already exists" ?_
    have read := ExtraTag.fromReader_complete complete data (lastOf default tags) rest
    have listed : (getTag (carried default tags) (carry (lastOf default tags) t).tag).isSome = true := by
      rw [getTag_isSome_iff, map_tag_carried, ExtraTag.carry_tag]
      exact again
    rw [run, fromReaderLoopWith, split]
    simp only [read, listed, if_true]
  | nil ends =>
    subst ends
    have pubKeyFirst : PubKeyFirst tags := by
      by_contra notFirst
      exact sound ⟨tags, front, [], first, noPadding, nodup, rfl, .inl ⟨rfl, notFirst⟩⟩
    rw [List.append_nil]
    exact readsWhole_of_encodes first noPadding nodup pubKeyFirst

/-- The decoder returns, accepts complete tags only and leaves out nothing, on exactly the
inputs that are not lossy. -/
theorem readsWhole_iff (x : Bytes) : ReadsWhole x ↔ ¬ Lossy x :=
  ⟨fun whole lossy => not_readsWhole_of_lossy lossy whole, readsWhole_of_not_lossy⟩

/-- A padding tag without zeros crashes, a tag of which only the first byte is there is left
out, and so is one of which there is the length but no data. -/
theorem lossy_inputs : ¬ ReadsWhole [txExtraTagPadding] ∧ ¬ ReadsWhole [txExtraTagNonce] ∧
    ¬ ReadsWhole [txExtraTagNonce, 4] := by
  have dropped : ∀ x : Bytes, x ≠ [] → fromReader x = .ok ([], []) → ¬ ReadsWhole x :=
    fun x some' run whole => some' (whole.complete _ _ run)
  refine ⟨fun whole => ?_, ?_, ?_⟩
  · exact whole.returns "makeslice: len out of range" (by decide +kernel)
  · exact dropped _ (by decide) (by decide +kernel)
  · exact dropped _ (by decide) (by decide +kernel)

end ExtraTags

end P2PoolObserver
