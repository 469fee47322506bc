/-
# P2p.PeerSelection -- which peers a list of peers names (`PEER_LIST_REQUEST`)

The handler samples connected peers into a reservoir, puts the version of the node in the place
of the first one, fills up with peers from the peer list, and includes an IPv6 peer if there is
none yet.
-/
import P2PoolObserver.Lib.Slice
import P2PoolObserver.P2p.PeerListCodec
import Mathlib.Data.List.Nodup

namespace P2PoolObserver

open Lib

namespace Addr

def isLoopback : Addr → Bool
  | v4 octets => octets.1.headD 0 = 127
  | v6 octets _ => octets.1 = List.replicate 15 0 ++ [1]

def isPrivate : Addr → Bool
  | v4 octets =>
    octets.1.headD 0 = 10 ∨ (octets.1.headD 0 = 172 ∧ octets.1.getD 1 0 &&& 0xF0 = 16) ∨
      (octets.1.headD 0 = 192 ∧ octets.1.getD 1 0 = 168)
  | v6 octets _ => octets.1.headD 0 &&& 0xFE = 0xFC

end Addr

inductive ProtocolFeature where
  | peerInformationReceive
  | peerInformationExchange
  | prunedBroadcast
  | compactBroadcast
  | blockNotify
  deriving DecidableEq

def protocolVersion_0_0 : UInt32 := 0
def protocolVersion_1_0 : UInt32 := 0x10000
def protocolVersion_1_1 : UInt32 := 0x10001
def protocolVersion_1_2 : UInt32 := 0x10002

def PeerVersionInformation.supportsFeature (i : PeerVersionInformation) : ProtocolFeature → Bool
  | .peerInformationReceive => i.protocol = protocolVersion_0_0 ∨ i.protocol ≥ protocolVersion_1_0
  | .peerInformationExchange => i.protocol ≥ protocolVersion_1_0
  | .prunedBroadcast => i.protocol = protocolVersion_0_0 ∨ i.protocol ≥ protocolVersion_1_0
  | .compactBroadcast => i.protocol ≥ protocolVersion_1_1
  | .blockNotify => i.protocol ≥ protocolVersion_1_2

/-! ## The handler -/

structure ConnectedPeer where
  addressPort : AddrPort
  isGood : Bool
  deriving DecidableEq

structure Requester where
  addressPort : AddrPort
  firstRequest : Bool
  versionInformation : PeerVersionInformation
  deriving DecidableEq

/-- The outcomes of the random source: for the `n`-th peer that is sampled, and for each place that
is filled up. -/
structure Draws where
  sample : Nat → Nat
  fill : Nat → Nat

def maxPeers : Nat := peerListResponseMaxPeers.toNat

def intN (n draw : Nat) : Except Fault Nat :=
  if n = 0 then .error (.panic "invalid argument to IntN") else .ok (draw % n)

def skipPeer (requester : Requester) (peer : ConnectedPeer) : Bool :=
  peer.addressPort.addr.isLoopback || peer.addressPort.addr.isPrivate || !peer.isGood ||
    peer.addressPort.addr = requester.addressPort.addr

/-- One peer, after `n` others: it is appended while there is room, and written to the slot drawn. -/
def samplePeer (draws : Draws) (target n : Nat) (peer : AddrPort) (entries : List AddrPort) :
    Except Fault (List AddrPort) := do
  let entries := if entries.length < target then entries ++ [peer] else entries
  let k ← intN (n + 1) (draws.sample (n + 1))
  if k < target then store entries k peer else return entries

def sampleLoop (requester : Requester) (draws : Draws) (target : Nat) :
    Nat → List ConnectedPeer → List AddrPort → Except Fault (List AddrPort)
  | _, [], entries => .ok entries
  | n, peer :: rest, entries =>
    if skipPeer requester peer then sampleLoop requester draws target n rest entries
    else do
      let entries ← samplePeer draws target n peer.addressPort entries
      sampleLoop requester draws target (n + 1) rest entries

def putVersion (requester : Requester) (own : PeerVersionInformation) (entries : List AddrPort) : List AddrPort :=
  if requester.firstRequest && own.supportsFeature .peerInformationExchange &&
      requester.versionInformation.supportsFeature .peerInformationReceive then
    if entries.length = 0 then entries ++ [own.toAddrPort] else entries.set 0 own.toAddrPort
  else entries

def fillLoop (draws : Draws) (peerList : List AddrPort) : Nat → List AddrPort → Except Fault (List AddrPort)
  | 0, entries => .ok entries
  | left + 1, entries => do
    let k ← intN peerList.length (draws.fill (maxPeers - (left + 1)))
    let peer ← index peerList (k % peerList.length)
    let entries := if entries.any fun e => e.addr = peer.addr then entries else entries ++ [peer]
    fillLoop draws peerList left entries

def fillUp (draws : Draws) (peerList entries : List AddrPort) : Except Fault (List AddrPort) :=
  if entries.length < maxPeers then fillLoop draws peerList (maxPeers - entries.length) entries
  else .ok entries

/-- One IPv6 peer is included.  The list that is shuffled before is a copy that is not used. -/
def includeIpv6 (peerList entries : List AddrPort) : List AddrPort :=
  if entries.any fun e => e.addr.is6 then entries
  else
    match peerList.find? fun p => p.addr.is4In6 || p.addr.is6 with
    | none => entries
    | some p => if entries.length < maxPeers then entries ++ [p] else entries.set (entries.length - 1) p

def selectPeers (requester : Requester) (own : PeerVersionInformation) (draws : Draws)
    (connectedPeerList : List ConnectedPeer) (peerList : List AddrPort) : Except Fault (List AddrPort) := do
  let peersToSendTarget := min maxPeers (max (connectedPeerList.length / 4) 1)
  let entries ← sampleLoop requester draws peersToSendTarget 0 connectedPeerList []
  let entries ← fillUp draws peerList (putVersion requester own entries)
  return includeIpv6 peerList entries

/-! ## The reservoir -/

def eligiblePeers (requester : Requester) (connectedPeerList : List ConnectedPeer) : List AddrPort :=
  (connectedPeerList.filter fun peer => !skipPeer requester peer).map ConnectedPeer.addressPort

/-- The peer that wrote a slot last, of the first `n`: the one it was appended for, or a later one. -/
def lastWriter (draw : Nat → Nat) : Nat → Nat → Nat
  | 0, _ => 0
  | n + 1, i => if i = n ∨ draw (n + 1) % (n + 1) = i then n else lastWriter draw n i

def reservoir (draw : Nat → Nat) (target : Nat) (peers : List AddrPort) : List AddrPort :=
  (List.range (min peers.length target)).map fun i => peers.getD (lastWriter draw peers.length i) default

theorem lastWriter_lt (draw : Nat → Nat) : ∀ {n i : Nat}, i < n → lastWriter draw n i < n
  | n + 1, i, inside => by
    rw [lastWriter]
    split_ifs with here
    · exact Nat.lt_succ_self n
    · have before : i < n := by omega
      exact (lastWriter_lt draw before).trans (Nat.lt_succ_self n)

/-- The reservoir after the peers `seen`: in each slot the last peer that was written to it. -/
structure Filled (draw : Nat → Nat) (target : Nat) (seen entries : List AddrPort) : Prop where
  length : entries.length = min seen.length target
  slots : ∀ i < entries.length, entries[i]? = seen[lastWriter draw seen.length i]?

theorem filled_samplePeer {draws : Draws} {target : Nat} {seen entries : List AddrPort}
    (filled : Filled draws.sample target seen entries) (p : AddrPort) :
    ∃ entries', samplePeer draws target seen.length p entries = .ok entries' ∧
      Filled draws.sample target (seen ++ [p]) entries' := by
  unfold samplePeer intN
  rw [if_neg (Nat.succ_ne_zero _)]
  dsimp only [bind, Except.bind, pure, Except.pure]
  generalize drawn : draws.sample (seen.length + 1) % (seen.length + 1) = k
  have below : k < seen.length + 1 := drawn ▸ Nat.mod_lt _ (Nat.succ_pos _)
  have size := filled.length
  have newest : (seen ++ [p])[seen.length]? = some p := by simp
  have writer : ∀ i, lastWriter draws.sample (seen ++ [p]).length i =
      if i = seen.length ∨ k = i then seen.length else lastWriter draws.sample seen.length i := by
    intro i
    rw [List.length_append, List.length_singleton, lastWriter, drawn]
  have older : ∀ {i}, i < entries.length → i < seen.length →
      (seen ++ [p])[lastWriter draws.sample seen.length i]? = entries[i]? := by
    intro i inside early
    rw [List.getElem?_append_left (lastWriter_lt draws.sample early), filled.slots i inside]
  by_cases room : entries.length < target
  · -- there is room: the slots are as many as the peers
    have all : entries.length = seen.length := by omega
    have drawnInside : k < (entries ++ [p]).length := by simp; omega
    rw [if_pos room, if_pos (by omega), store_of_lt drawnInside]
    refine ⟨_, rfl, by simp; omega, fun i inside => ?_⟩
    rw [List.length_set, List.length_append, List.length_singleton] at inside
    rw [writer]
    by_cases wrote : i = seen.length ∨ k = i
    · rw [if_pos wrote, newest]
      by_cases drawnHere : k = i
      · rw [drawnHere, List.getElem?_set_self (by simp; omega)]
      · have last : i = entries.length := by omega
        rw [List.getElem?_set_ne drawnHere, last]
        simp
    · obtain ⟨notLast, notDrawn⟩ := not_or.mp wrote
      rw [if_neg wrote, List.getElem?_set_ne notDrawn, List.getElem?_append_left (by omega)]
      exact (older (by omega) (by omega)).symm
  · have full : entries.length = target := by omega
    rw [if_neg room]
    by_cases written : k < target
    · rw [if_pos written, store_of_lt (by omega)]
      refine ⟨_, rfl, by simp; omega, fun i inside => ?_⟩
      rw [List.length_set] at inside
      rw [writer]
      by_cases drawnHere : k = i
      · rw [if_pos (.inr drawnHere), newest, drawnHere, List.getElem?_set_self inside]
      · rw [if_neg (by omega), List.getElem?_set_ne drawnHere]
        exact (older inside (by omega)).symm
    · rw [if_neg written]
      refine ⟨_, rfl, by simp; omega, fun i inside => ?_⟩
      rw [writer, if_neg (by omega)]
      exact (older inside (by omega)).symm

theorem sample_eq (requester : Requester) (draws : Draws) (target : Nat) (connectedPeerList : List ConnectedPeer) :
    sampleLoop requester draws target 0 connectedPeerList [] =
      .ok (reservoir draws.sample target (eligiblePeers requester connectedPeerList)) := by
  have loop : ∀ (peers : List ConnectedPeer) (seen entries : List AddrPort),
      Filled draws.sample target seen entries →
      ∃ entries', sampleLoop requester draws target seen.length peers entries = .ok entries' ∧
        Filled draws.sample target (seen ++ eligiblePeers requester peers) entries' := by
    intro peers
    induction peers with
    | nil =>
      intro seen entries filled
      exact ⟨entries, rfl, by simpa [eligiblePeers] using filled⟩
    | cons peer peers ih =>
      intro seen entries filled
      rw [sampleLoop]
      by_cases skip : skipPeer requester peer = true
      · rw [if_pos skip]
        have none : eligiblePeers requester (peer :: peers) = eligiblePeers requester peers := by
          simp [eligiblePeers, skip]
        rw [none]
        exact ih seen entries filled
      · rw [if_neg skip]
        have one : eligiblePeers requester (peer :: peers) = peer.addressPort :: eligiblePeers requester peers := by
          simp [eligiblePeers, skip]
        obtain ⟨next, stepped, filled'⟩ := filled_samplePeer filled peer.addressPort
        obtain ⟨last, run, ended⟩ := ih (seen ++ [peer.addressPort]) next filled'
        rw [List.length_append, List.length_singleton] at run
        refine ⟨last, ?_, by rw [one, List.append_cons]; exact ended⟩
        rw [stepped]
        exact run
  obtain ⟨entries, run, filled⟩ := loop connectedPeerList [] [] ⟨by simp, by simp⟩
  rw [List.length_nil] at run
  rw [run]
  refine congrArg Except.ok (List.ext_getElem? fun i => ?_)
  rw [List.nil_append] at filled
  by_cases inside : i < entries.length
  · have bound : i < min (eligiblePeers requester connectedPeerList).length target := filled.length ▸ inside
    rw [filled.slots i inside, reservoir, List.getElem?_map, List.getElem?_range bound]
    have writer := lastWriter_lt draws.sample (lt_of_lt_of_le bound (Nat.min_le_left _ _))
    simp [List.getElem?_eq_getElem writer]
  · rw [List.getElem?_eq_none (Nat.not_lt.mp inside), List.getElem?_eq_none]
    rw [reservoir, List.length_map, List.length_range, ← filled.length]
    exact Nat.not_lt.mp inside

/-! ## Filling up -/

def DistinctAddrs (entries : List AddrPort) : Prop := (entries.map AddrPort.addr).Nodup

instance (entries : List AddrPort) : Decidable (DistinctAddrs entries) := inferInstanceAs (Decidable (List.Nodup _))

theorem DistinctAddrs.sublist {xs ys : List AddrPort} (distinct : DistinctAddrs ys) (sub : xs.Sublist ys) :
    DistinctAddrs xs := List.Nodup.sublist (sub.map _) distinct

theorem distinctAddrs_append_singleton {xs : List AddrPort} {p : AddrPort} (new : ∀ e ∈ xs, e.addr ≠ p.addr) :
    DistinctAddrs (xs ++ [p]) ↔ DistinctAddrs xs := by
  have absent : p.addr ∉ xs.map AddrPort.addr := by
    intro mem
    obtain ⟨e, inside, same⟩ := List.mem_map.mp mem
    exact new e inside same
  unfold DistinctAddrs
  rw [List.map_append, List.map_singleton, List.nodup_append_comm, List.singleton_append, List.nodup_cons]
  exact and_iff_right absent

theorem fillLoop_nil (draws : Draws) {left : Nat} (some_left : 0 < left) (entries : List AddrPort) :
    fillLoop draws [] left entries = .error (.panic "invalid argument to IntN") := by
  obtain ⟨left, rfl⟩ := Nat.exists_eq_succ_of_ne_zero some_left.ne'
  rfl

theorem fillLoop_ok (draws : Draws) {peerList : List AddrPort} (nonempty : peerList ≠ []) :
    ∀ (left : Nat) (entries : List AddrPort), ∃ filled, fillLoop draws peerList left entries = .ok filled ∧
      entries <+: filled ∧ filled.length ≤ entries.length + left ∧ (DistinctAddrs entries → DistinctAddrs filled) := by
  intro left
  have positive : 0 < peerList.length := List.length_pos_iff.mpr nonempty
  induction left with
  | zero => exact fun entries => ⟨entries, rfl, List.prefix_rfl, le_rfl, id⟩
  | succ left ih =>
    intro entries
    rw [fillLoop, intN, if_neg positive.ne']
    dsimp only [bind, Except.bind]
    obtain ⟨peer, found⟩ : ∃ peer,
        peerList[draws.fill (maxPeers - (left + 1)) % peerList.length % peerList.length]? = some peer :=
      ⟨_, List.getElem?_eq_getElem (Nat.mod_lt _ positive)⟩
    rw [index_of_getElem? found]
    dsimp only
    by_cases known : (entries.any fun e => e.addr = peer.addr) = true
    · obtain ⟨filled, run, front, size, distinct⟩ := ih entries
      rw [if_pos known]
      exact ⟨filled, run, front, by omega, distinct⟩
    · obtain ⟨filled, run, front, size, distinct⟩ := ih (entries ++ [peer])
      rw [if_neg known]
      rw [List.length_append, List.length_singleton] at size
      refine ⟨filled, run, (List.prefix_append entries [peer]).trans front, by omega, fun before => ?_⟩
      refine distinct ((distinctAddrs_append_singleton fun e mem same => known ?_).mpr before)
      exact List.any_eq_true.mpr ⟨e, mem, by simpa using same⟩

/-! ## The IPv6 peer -/

/-- The handler writes an IPv6 peer over the last of all places. -/
def Replaced (peerList entries : List AddrPort) : Prop :=
  entries.length = maxPeers ∧ (∀ e ∈ entries, e.addr.is6 = false) ∧ ∃ p ∈ peerList, p.addr.is6 = true

instance (peerList entries : List AddrPort) : Decidable (Replaced peerList entries) :=
  inferInstanceAs (Decidable (_ ∧ _ ∧ _))

theorem is6_of_is4In6 {a : Addr} (mapped : a.is4In6 = true) : a.is6 = true := by
  cases a with
  | v4 octets => cases mapped
  | v6 octets zone => rfl

theorem set_last {α : Type} {l : List α} (nonempty : l ≠ []) (a : α) :
    l.set (l.length - 1) a = l.dropLast ++ [a] := by
  obtain rfl | ⟨front, last, rfl⟩ := List.eq_nil_or_concat l
  · exact absurd rfl nonempty
  · simp

theorem includeIpv6_cases (peerList entries : List AddrPort) :
    (includeIpv6 peerList entries = entries ∧ ¬ Replaced peerList entries) ∨
    ∃ p, (∀ e ∈ entries, e.addr ≠ p.addr) ∧
      ((entries.length < maxPeers ∧ includeIpv6 peerList entries = entries ++ [p]) ∨
        (¬ entries.length < maxPeers ∧ (entries.length = maxPeers → Replaced peerList entries) ∧
          includeIpv6 peerList entries = entries.dropLast ++ [p])) := by
  unfold includeIpv6
  by_cases six : (entries.any fun e => e.addr.is6) = true
  · rw [if_pos six]
    refine .inl ⟨rfl, fun replaced => ?_⟩
    obtain ⟨e, mem, is6⟩ := List.any_eq_true.mp six
    rw [replaced.2.1 e mem] at is6
    cases is6
  · have none6 : ∀ e ∈ entries, e.addr.is6 = false := by
      intro e mem
      by_contra is6
      exact six (List.any_eq_true.mpr ⟨e, mem, by simpa using is6⟩)
    rw [if_neg six]
    cases found : peerList.find? fun p => p.addr.is4In6 || p.addr.is6 with
    | none =>
      refine .inl ⟨rfl, fun ⟨_, _, p, mem, is6⟩ => ?_⟩
      have not6 := List.find?_eq_none.mp found p mem
      simp [is6] at not6
    | some p =>
      have is6 : p.addr.is6 = true := by
        rcases Bool.or_eq_true _ _ ▸ List.find?_some found with mapped | is6
        · exact is6_of_is4In6 mapped
        · exact is6
      have new : ∀ e ∈ entries, e.addr ≠ p.addr := by
        intro e mem same
        have no := none6 e mem
        rw [same, is6] at no
        cases no
      refine .inr ⟨p, new, ?_⟩
      dsimp only
      by_cases room : entries.length < maxPeers
      · rw [if_pos room]
        exact .inl ⟨room, rfl⟩
      · rw [if_neg room]
        have nonempty : entries ≠ [] := by
          rintro rfl
          exact room (by decide)
        refine .inr ⟨room, fun full => ⟨full, none6, p, List.mem_of_find?_eq_some found, is6⟩, set_last nonempty p⟩

/-! ## The handler -/

def chosenPeers (requester : Requester) (own : PeerVersionInformation) (draws : Draws)
    (connectedPeerList : List ConnectedPeer) : List AddrPort :=
  putVersion requester own (reservoir draws.sample (min maxPeers (max (connectedPeerList.length / 4) 1))
    (eligiblePeers requester connectedPeerList))

def keptPeers (peerList chosen : List AddrPort) : List AddrPort :=
  if Replaced peerList chosen then chosen.dropLast else chosen

/-- The handler returns, and sends no more entries than allowed and no address twice. -/
def SelectionSound (requester : Requester) (own : PeerVersionInformation) (draws : Draws)
    (connectedPeerList : List ConnectedPeer) (peerList : List AddrPort) : Prop :=
  ∃ sent, selectPeers requester own draws connectedPeerList peerList = .ok sent ∧
    sent.length ≤ maxPeers ∧ DistinctAddrs sent

theorem length_chosenPeers (requester : Requester) (own : PeerVersionInformation) (draws : Draws)
    (connectedPeerList : List ConnectedPeer) :
    (chosenPeers requester own draws connectedPeerList).length ≤ maxPeers := by
  have size : ∀ entries : List AddrPort, entries.length ≤ maxPeers →
      (putVersion requester own entries).length ≤ maxPeers := by
    intro entries few
    unfold putVersion
    split_ifs with sends empty
    · rw [List.length_append, empty, List.length_singleton]
      decide
    · rwa [List.length_set]
    · exact few
  refine size _ ?_
  rw [reservoir, List.length_map, List.length_range]
  omega

theorem selectPeers_eq (requester : Requester) (own : PeerVersionInformation) (draws : Draws)
    (connectedPeerList : List ConnectedPeer) (peerList : List AddrPort) :
    selectPeers requester own draws connectedPeerList peerList =
      (fillUp draws peerList (chosenPeers requester own draws connectedPeerList)).map (includeIpv6 peerList) := by
  unfold selectPeers
  dsimp only [bind, Except.bind]
  rw [sample_eq]
  rfl

theorem sound_full_iff {peerList chosen : List AddrPort} (full : chosen.length = maxPeers) :
    (includeIpv6 peerList chosen).length ≤ maxPeers ∧ DistinctAddrs (includeIpv6 peerList chosen) ↔
      DistinctAddrs (keptPeers peerList chosen) := by
  unfold keptPeers
  rcases includeIpv6_cases peerList chosen with ⟨same, notReplaced⟩ | ⟨p, new, ⟨room, -⟩ | ⟨_, replaced, set⟩⟩
  · rw [same, if_neg notReplaced]
    exact and_iff_right full.le
  · omega
  · have others : ∀ e ∈ chosen.dropLast, e.addr ≠ p.addr := fun e mem => new e (List.dropLast_subset chosen mem)
    rw [set, if_pos (replaced full), distinctAddrs_append_singleton others]
    refine and_iff_right ?_
    rw [List.length_append, List.length_dropLast, List.length_singleton]
    have : 0 < maxPeers := by decide
    omega

theorem sound_filled_iff (peerList : List AddrPort) {chosen filled : List AddrPort} (few : chosen.length < maxPeers)
    (front : chosen <+: filled) (size : filled.length ≤ maxPeers) (distinct : DistinctAddrs chosen → DistinctAddrs filled) :
    (includeIpv6 peerList filled).length ≤ maxPeers ∧ DistinctAddrs (includeIpv6 peerList filled) ↔
      DistinctAddrs (keptPeers peerList chosen) := by
  have kept : keptPeers peerList chosen = chosen := if_neg fun replaced => few.ne replaced.1
  rw [kept]
  rcases includeIpv6_cases peerList filled with ⟨same, -⟩ | ⟨p, new, ⟨room, added⟩ | ⟨noRoom, -, set⟩⟩
  · rw [same, and_iff_right size]
    exact ⟨fun all => all.sublist front.sublist, distinct⟩
  · rw [added, distinctAddrs_append_singleton new]
    rw [List.length_append, List.length_singleton, and_iff_right (by omega)]
    exact ⟨fun all => all.sublist front.sublist, distinct⟩
  · have others : ∀ e ∈ filled.dropLast, e.addr ≠ p.addr := fun e mem => new e (List.dropLast_subset filled mem)
    have frontLeft : chosen <+: filled.dropLast := by
      have shorter := List.dropLast_prefix filled
      refine List.prefix_of_prefix_length_le front shorter ?_
      rw [List.length_dropLast]
      omega
    rw [set, distinctAddrs_append_singleton others]
    rw [List.length_append, List.length_dropLast, List.length_singleton, and_iff_right (by omega)]
    exact ⟨fun all => all.sublist frontLeft.sublist, fun all => (distinct all).sublist (List.dropLast_sublist filled)⟩

/-- The handler returns a list without duplicates exactly if the peer list is not empty or not
needed, and the entries chosen before, as far as they are sent, have different addresses. -/
theorem selection_sound_iff (requester : Requester) (own : PeerVersionInformation) (draws : Draws)
    (connectedPeerList : List ConnectedPeer) (peerList : List AddrPort) :
    SelectionSound requester own draws connectedPeerList peerList ↔
      ((chosenPeers requester own draws connectedPeerList).length < maxPeers → peerList ≠ []) ∧
        DistinctAddrs (keptPeers peerList (chosenPeers requester own draws connectedPeerList)) := by
  have size := length_chosenPeers requester own draws connectedPeerList
  unfold SelectionSound
  rw [selectPeers_eq]
  generalize chosenPeers requester own draws connectedPeerList = chosen at size
  unfold fillUp
  by_cases few : chosen.length < maxPeers
  · rw [if_pos few]
    by_cases nonempty : peerList = []
    · rw [nonempty, fillLoop_nil draws (by omega)]
      exact ⟨fun ⟨_, run, _⟩ => (nomatch run), fun ⟨needed, _⟩ => absurd rfl (needed few)⟩
    · obtain ⟨filled, run, front, length, distinct⟩ := fillLoop_ok draws nonempty (maxPeers - chosen.length) chosen
      rw [run, and_iff_right fun _ => nonempty,
        ← sound_filled_iff peerList few front (by omega) distinct]
      exact ⟨fun ⟨_, same, sound⟩ => by cases same; exact sound, fun sound => ⟨_, rfl, sound⟩⟩
  · have full : chosen.length = maxPeers := by omega
    rw [if_neg few, and_iff_right fun less => absurd less few, ← sound_full_iff full]
    exact ⟨fun ⟨_, same, sound⟩ => by cases same; exact sound, fun sound => ⟨_, rfl, sound⟩⟩

namespace SelectionExample

def peer (last : UInt8) : AddrPort := ⟨.v4 ⟨[1, 2, 3, last], rfl⟩, 37889⟩

def requester : Requester := ⟨peer 100, false, ⟨0x10002, 0, 0⟩⟩

/-- Eight good peers, of which two are to be sampled. -/
def connected : List ConnectedPeer := [1, 2, 3, 4, 5, 6, 7, 8].map fun last => ⟨peer last, true⟩

/-- The second peer draws the first slot, and every later one draws a slot that is not there. -/
def draws : Draws := ⟨fun n => if n = 2 then 0 else n - 1, fun _ => 0⟩

/-- The second peer stands in both slots.  And without any peers the handler panics. -/
theorem selection_unsound :
    selectPeers requester ⟨0x10002, 0, 0⟩ draws connected [peer 9] = .ok [peer 2, peer 2, peer 9] ∧
      ¬ SelectionSound requester ⟨0x10002, 0, 0⟩ draws connected [peer 9] ∧
      selectPeers requester ⟨0x10002, 0, 0⟩ draws [] [] = .error (.panic "invalid argument to IntN") := by
  have twice : selectPeers requester ⟨0x10002, 0, 0⟩ draws connected [peer 9] = .ok [peer 2, peer 2, peer 9] := by
    decide +kernel
  refine ⟨twice, ?_, by decide +kernel⟩
  rintro ⟨sent, run, -, distinct⟩
  rw [twice] at run
  cases run
  exact absurd distinct (by decide +kernel)

end SelectionExample

end P2PoolObserver
