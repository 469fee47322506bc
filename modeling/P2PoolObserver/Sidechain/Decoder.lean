/-
# Sidechain.Decoder -- the block decoder with its varint reader as a parameter

`binary.ReadUvarint` accepts over-long forms of a number.  To speak about inputs
in which every varint is minimal, the decoders take the varint reader `rv` as a
parameter: with `readUvarint` they are those of the source, with `readMinimal` they
refuse over-long varints and are otherwise the same.
-/
import P2PoolObserver.Sidechain.PoolBlock

namespace P2PoolObserver

open Lib
open Lib.Reader (readByte readFull readUvarint readMany limited check fail crash)

def readMinimal : Reader UInt64 := fun input =>
  match readUvarint input with
  | .error e => .error e
  | .ok (v, rest) =>
    if input = uvarint v.toNat ++ rest then .ok (v, rest) else .error (.invalid "over-long varint")

abbrev MainBlock.fromReaderWith (rv : Reader UInt64) : Reader MainBlock := fromReaderFlagsWith rv false

namespace PoolBlock

variable [Crypto] (rv : Reader UInt64) (consensus : Consensus)

abbrev fromReaderWith : Reader PoolBlock := fromReaderFlagsWith rv consensus false

def unmarshalBinaryWith (data : Bytes) : Except ReadError (PoolBlock × Bytes) :=
  if data.length > poolBlockMaxTemplateSize then .error (.invalid "buffer too large")
  else fromReaderWith rv consensus data

end PoolBlock

/-! ## Extra tags are read to the end -/

section Extra

variable {rv : Reader UInt64} (consuming : Reader.Consuming rv)
include consuming

open Reader

omit consuming in
theorem ExtraTag.consuming_readPadding : ∀ fuel size : Nat, Consuming (ExtraTag.readPadding fuel size)
  | 0, size => consuming_pure size
  | fuel + 1, size => by
    intro input a rest run
    cases input with
    | nil =>
      cases run
      exact List.suffix_refl []
    | cons zero more =>
      unfold ExtraTag.readPadding at run
      dsimp only at run
      split_ifs at run
      exact (consuming_readPadding fuel (size + 1) run).trans (List.suffix_cons zero more)

theorem ExtraTag.consuming_readCounted (t : ExtraTag) (tag : UInt8) (limit : UInt64) (message : String)
    (unit : Nat) : Consuming (ExtraTag.readCountedWith rv t tag limit message unit) :=
  consuming_bind consuming fun _ => consuming_bind (consuming_check _ _) fun _ =>
    consuming_bind (consuming_full _) fun _ => consuming_pure _

theorem ExtraTag.lt_of_fromReaderWith {t tag : ExtraTag} {input rest : Bytes}
    (read : t.fromReaderWith rv input = .ok (tag, rest)) : rest.length < input.length := by
  obtain ⟨kind, body, first, read⟩ := bind_eq_ok.mp read
  have after : rest <:+ body := by
    split_ifs at read
    · refine consuming_bind (ExtraTag.consuming_readPadding _ _) (fun _ => ?_) read
      exact consuming_bind (consuming_check _ _) fun _ => consuming_ite (consuming_crash _) (consuming_pure _)
    · exact consuming_bind (consuming_full _) (fun _ => consuming_pure _) read
    · exact ExtraTag.consuming_readCounted consuming _ _ _ _ _ read
    · exact consuming_bind consuming (fun _ => consuming_bind (consuming_full _) fun _ => consuming_pure _) read
    · exact ExtraTag.consuming_readCounted consuming _ _ _ _ _ read
    · exact ExtraTag.consuming_readCounted consuming _ _ _ _ _ read
    · cases read
  cases input with
  | nil => cases first
  | cons b more =>
    cases first
    have := after.length_le
    simp only [List.length_cons]
    omega

theorem ExtraTags.fromReaderLoopWith_rest : ∀ {fuel : Nat} {t : ExtraTags} {tag : ExtraTag}
    {input : Bytes} {all : ExtraTags} {rest : Bytes}, input.length < fuel →
    ExtraTags.fromReaderLoopWith rv fuel t tag input = .ok (all, rest) → rest = []
  | 0, _, _, _, _, _, enough, _ => absurd enough (Nat.not_lt_zero _)
  | fuel + 1, t, tag, input, all, rest, enough, run => by
    unfold ExtraTags.fromReaderLoopWith at run
    split at run
    · cases run
      rfl
    · cases run
    · rename_i next more read
      split_ifs at run
      have shorter := ExtraTag.lt_of_fromReaderWith consuming read
      exact ExtraTags.fromReaderLoopWith_rest (by omega) run

theorem ExtraTags.fromReaderWith_rest {input rest : Bytes} {all : ExtraTags}
    (run : ExtraTags.fromReaderWith rv input = .ok (all, rest)) : rest = [] :=
  ExtraTags.fromReaderLoopWith_rest consuming (Nat.lt_succ_self _) run

end Extra

theorem unmarshalBinaryWith_readUvarint [Crypto] :
    PoolBlock.unmarshalBinaryWith readUvarint = PoolBlock.unmarshalBinary := rfl

end P2PoolObserver
