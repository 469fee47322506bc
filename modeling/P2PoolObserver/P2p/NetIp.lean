/-
# P2p.NetIp -- addresses of peers (`net/netip`, `types/protocol.go`)

An address is an IPv4 address or an IPv6 address with a zone; an IPv4 address in an IPv6 one is
an IPv6 address until it is unmapped.  The version of a node travels in a list of peers as an
address: three words in little-endian order, four bytes `0xFF`, and the port `0xFFFF`.
-/
import P2PoolObserver.Lib.Bytes

namespace P2PoolObserver

open Lib

abbrev Octets (n : Nat) : Type := { bytes : Bytes // bytes.length = n }

inductive Addr where
  | v4 (octets : Octets 4)
  | v6 (octets : Octets 16) (zone : String)
  deriving DecidableEq

instance : Inhabited Addr := ⟨.v4 ⟨List.replicate 4 0, rfl⟩⟩

structure AddrPort where
  addr : Addr
  port : UInt16
  deriving DecidableEq, Inhabited

namespace Addr

/-- What stands before an IPv4 address in an IPv6 one. -/
def mapping : Bytes := List.replicate 10 0 ++ [0xFF, 0xFF]

def as16 : Addr → Octets 16
  | v4 octets => ⟨mapping ++ octets.1, by rw [List.length_append, octets.2]; rfl⟩
  | v6 octets _ => octets

def is6 : Addr → Bool
  | v4 _ => false
  | v6 _ _ => true

def is4In6 : Addr → Bool
  | v4 _ => false
  | v6 octets _ => octets.1.take 12 = mapping

def unmap : Addr → Addr
  | v4 octets => v4 octets
  | v6 octets zone =>
    if octets.1.take 12 = mapping then v4 ⟨octets.1.drop 12, by rw [List.length_drop, octets.2]⟩
    else v6 octets zone

def addrFrom16 (raw : Bytes) : Addr :=
  v6 ⟨(raw ++ List.replicate 16 0).take 16, by simp⟩ ""

theorem addrFrom16_of_length {octets : Bytes} (size : octets.length = 16) :
    addrFrom16 octets = v6 ⟨octets, size⟩ "" := by
  have same : (octets ++ List.replicate 16 0).take 16 = octets := by
    rw [← size]
    exact List.take_left
  simp only [addrFrom16, same]

theorem unmap_mapping (octets : Octets 4) : (addrFrom16 (mapping ++ octets.1)).unmap = v4 octets := by
  have size : (mapping ++ octets.1).length = 16 := (v4 octets).as16.2
  rw [addrFrom16_of_length size, unmap]
  have front : (mapping ++ octets.1).take 12 = mapping := List.take_left' rfl
  have back : (mapping ++ octets.1).drop 12 = octets.1 := List.drop_left' rfl
  simp only [front, back, if_true]

theorem unmap_addrFrom16 {octets : Octets 16} {zone : String} (unmapped : (v6 octets zone).unmap = v6 octets zone) :
    (addrFrom16 octets.1).unmap = v6 octets "" := by
  rw [addrFrom16_of_length octets.2]
  rw [unmap] at unmapped ⊢
  split_ifs at unmapped with mapped
  rw [if_neg mapped]

end Addr

/-! ## Versions -/

structure PeerVersionInformation where
  protocol : UInt32
  softwareVersion : UInt32
  softwareId : UInt32
  deriving DecidableEq

/-- The last four bytes of the address of a version. -/
def versionMark : Bytes := [0xFF, 0xFF, 0xFF, 0xFF]

def isPeerVersionInformation (p : AddrPort) : Bool := p.port = 0xFFFF ∧ p.addr.as16.1.drop 12 = versionMark

namespace PeerVersionInformation

def octets (i : PeerVersionInformation) : Octets 16 :=
  ⟨leBytes 4 i.protocol.toNat ++ (leBytes 4 i.softwareVersion.toNat ++ (leBytes 4 i.softwareId.toNat ++
    leBytes 4 0xFFFFFFFF)), by simp⟩

def toAddrPort (i : PeerVersionInformation) : AddrPort := ⟨.addrFrom16 i.octets.1, 0xFFFF⟩

def ofOctets (raw : Bytes) : PeerVersionInformation where
  protocol := UInt32.ofNat (ofLeBytes (raw.take 4))
  softwareVersion := UInt32.ofNat (ofLeBytes ((raw.drop 4).take 4))
  softwareId := UInt32.ofNat (ofLeBytes ((raw.drop 8).take 4))

theorem ofNat_ofLeBytes_leBytes (x : UInt32) : UInt32.ofNat (ofLeBytes (leBytes 4 x.toNat)) = x := by
  rw [ofLeBytes_leBytes_of_lt x.toNat_lt, UInt32.ofNat_toNat]

theorem drop_octets (i : PeerVersionInformation) :
    i.octets.1.drop 4 = leBytes 4 i.softwareVersion.toNat ++ (leBytes 4 i.softwareId.toNat ++ leBytes 4 0xFFFFFFFF) ∧
      i.octets.1.drop 8 = leBytes 4 i.softwareId.toNat ++ leBytes 4 0xFFFFFFFF ∧
      i.octets.1.drop 12 = leBytes 4 0xFFFFFFFF := by
  have four : i.octets.1.drop 4 =
      leBytes 4 i.softwareVersion.toNat ++ (leBytes 4 i.softwareId.toNat ++ leBytes 4 0xFFFFFFFF) :=
    List.drop_left' (leBytes_length _ _)
  have eight : i.octets.1.drop 8 = leBytes 4 i.softwareId.toNat ++ leBytes 4 0xFFFFFFFF := by
    rw [← List.drop_drop (i := 4) (j := 4), four]
    exact List.drop_left' (leBytes_length _ _)
  refine ⟨four, eight, ?_⟩
  rw [← List.drop_drop (i := 4) (j := 8), eight]
  exact List.drop_left' (leBytes_length _ _)

theorem ofOctets_octets (i : PeerVersionInformation) : ofOctets i.octets.1 = i := by
  obtain ⟨four, eight, -⟩ := i.drop_octets
  have first : i.octets.1.take 4 = leBytes 4 i.protocol.toNat := List.take_left' (leBytes_length _ _)
  have second : (i.octets.1.drop 4).take 4 = leBytes 4 i.softwareVersion.toNat := by
    rw [four]
    exact List.take_left' (leBytes_length _ _)
  have third : (i.octets.1.drop 8).take 4 = leBytes 4 i.softwareId.toNat := by
    rw [eight]
    exact List.take_left' (leBytes_length _ _)
  simp only [ofOctets, first, second, third, ofNat_ofLeBytes_leBytes]

theorem addr_toAddrPort (i : PeerVersionInformation) : i.toAddrPort.addr = .v6 i.octets "" :=
  Addr.addrFrom16_of_length i.octets.2

theorem isPeerVersionInformation_toAddrPort (i : PeerVersionInformation) :
    isPeerVersionInformation i.toAddrPort = true := by
  have mark : i.octets.1.drop 12 = versionMark := i.drop_octets.2.2
  simp only [isPeerVersionInformation, addr_toAddrPort, Addr.as16, mark, and_true, decide_eq_true_eq]
  rfl

end PeerVersionInformation

end P2PoolObserver
