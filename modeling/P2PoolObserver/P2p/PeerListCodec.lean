/-
# P2p.PeerListCodec -- lists of peers on the wire (`SendPeerListResponse`, `PEER_LIST_RESPONSE`)

An entry is a flag, sixteen bytes of an address and a port.  The flag says that the address is an
IPv6 one.  The version of the sender is an entry without the flag, which an IPv4 address that
ends in four bytes `0xFF` would be as well.  The sender takes every IPv6 address that ends so and
has the port `0xFFFF` for a version, and the receiver takes the IPv4 address `255.255.255.255`
with that port for one.
-/
import P2PoolObserver.P2p.NetIp
import P2PoolObserver.P2p.Segmentation

namespace P2PoolObserver

open Lib Lib.Chunks

variable {rawIp rest : Bytes} {p : AddrPort} {S : Chunks}

/-! ## The sender -/

def isV6Flag (p : AddrPort) : UInt8 := if p.addr.is6 && !isPeerVersionInformation p then 1 else 0

def peerEntryBytes (p : AddrPort) : Bytes := isV6Flag p :: (p.addr.as16.1 ++ leBytes 2 p.port.toNat)

def sendPeerListResponse (list : List AddrPort) : Option Bytes :=
  if list.length > peerListResponseMaxPeers.toNat then none
  else some (UInt8.ofNat list.length :: list.flatMap peerEntryBytes)

/-! ## The receiver -/

structure PeerExchange where
  offered : List AddrPort
  versions : List PeerVersionInformation
  deriving DecidableEq

def PeerEntry.offered : PeerEntry → Option AddrPort
  | .peer rawIp port => some ⟨(Addr.addrFrom16 rawIp).unmap, port⟩
  | _ => none

def PeerEntry.sets : PeerEntry → Option PeerVersionInformation
  | .version protocol softwareVersion softwareId => some ⟨protocol, softwareVersion, softwareId⟩
  | _ => none

def PeerExchange.take (x : PeerExchange) (entry : PeerEntry) : PeerExchange :=
  ⟨x.offered ++ entry.offered.toList, x.versions ++ entry.sets.toList⟩

def takePeers (c : ReaderClient PeerExchange) : Received → Except ReadStop (ReaderClient PeerExchange)
  | .peerEntry entry => .ok { c with other := c.other.take entry }
  | _ => .ok c

/-! ## One entry -/

def peerEntryRead (p : AddrPort) : PeerEntry := (peerEntryOf (isV6Flag p) p.addr.as16.1 p.port).1

theorem length_peerEntryOf {isV6 : UInt8} (size : rawIp.length = 16) (port : UInt16) :
    (peerEntryOf isV6 rawIp port).2.length = 16 := by
  unfold peerEntryOf
  dsimp only
  split_ifs
  · exact size
  · exact size
  · simp [size]
  · exact size

/-- An IPv4 address in `0.0.0.0/8` or `224.0.0.0/3`. -/
def SpecialRange : Addr → Prop
  | .v4 octets => octets.1.headD 0 = 0 ∨ octets.1.headD 0 ≥ 224
  | .v6 _ _ => False

instance : ∀ a : Addr, Decidable (SpecialRange a)
  | .v4 octets => inferInstanceAs (Decidable (octets.1.headD 0 = 0 ∨ octets.1.headD 0 ≥ 224))
  | .v6 _ _ => inferInstanceAs (Decidable False)

def peerArrives (p : AddrPort) : Option AddrPort :=
  match p.addr with
  | .v4 _ => if SpecialRange p.addr then none else some p
  | .v6 octets _ => if isPeerVersionInformation p then none else some ⟨.v6 octets "", p.port⟩

theorem isPeerVersionInformation_iff (p : AddrPort) :
    isPeerVersionInformation p = true ↔ p.port = 0xFFFF ∧ p.addr.as16.1.drop 12 = versionMark :=
  decide_eq_true_iff

theorem ofLeBytes_eq_mark_iff {bytes : Bytes} (size : bytes.length = 4) :
    ofLeBytes bytes = 0xFFFFFFFF ↔ bytes = versionMark := by
  constructor
  · intro value
    have back := leBytes_ofLeBytes bytes
    rw [value, size] at back
    exact back.symm
  · rintro rfl
    decide

theorem getD_twelve (raw : Bytes) : raw.getD 12 0 = (raw.drop 12).headD 0 := by
  rw [List.headD_eq_head?_getD, List.head?_drop, List.getD_eq_getElem?_getD]

theorem peerEntryRead_of_mark (mark : isPeerVersionInformation p = true) :
    peerEntryRead p = .version (PeerVersionInformation.ofOctets p.addr.as16.1).protocol
      (PeerVersionInformation.ofOctets p.addr.as16.1).softwareVersion
      (PeerVersionInformation.ofOctets p.addr.as16.1).softwareId := by
  obtain ⟨port, octets⟩ := (isPeerVersionInformation_iff p).mp mark
  have flag : isV6Flag p = 0 := by simp [isV6Flag, mark]
  have value : ofLeBytes (p.addr.as16.1.drop 12) = 0xFFFFFFFF := by
    rw [octets]
    decide
  have first : p.addr.as16.1.getD 12 0 ≥ 224 := by
    rw [getD_twelve, octets]
    decide
  rw [peerEntryRead, peerEntryOf, if_pos flag]
  dsimp only
  rw [if_pos (.inr first), if_pos ⟨value, port⟩]
  rfl

theorem sets_peerEntryRead (p : AddrPort) : (peerEntryRead p).sets =
    if isPeerVersionInformation p then some (.ofOctets p.addr.as16.1) else none := by
  by_cases mark : isPeerVersionInformation p = true
  · rw [if_pos mark, peerEntryRead_of_mark mark]
    rfl
  · rw [if_neg mark, peerEntryRead, peerEntryOf]
    have size : (p.addr.as16.1.drop 12).length = 4 := by rw [List.length_drop, p.addr.as16.2]
    have other : ¬ (ofLeBytes (p.addr.as16.1.drop 12) = 0xFFFFFFFF ∧ p.port = 0xFFFF) := by
      rintro ⟨value, port⟩
      exact mark ((isPeerVersionInformation_iff p).mpr ⟨port, (ofLeBytes_eq_mark_iff size).mp value⟩)
    dsimp only
    rw [if_neg other]
    split_ifs <;> rfl

theorem offered_peerEntryRead (held : p.addr.unmap = p.addr) : (peerEntryRead p).offered = peerArrives p := by
  obtain ⟨addr, port⟩ := p
  cases addr with
  | v4 octets =>
    have back : (Addr.mapping ++ octets.1).drop 12 = octets.1 := List.drop_left' rfl
    have first : (Addr.mapping ++ octets.1).getD 12 0 = octets.1.headD 0 := by rw [getD_twelve, back]
    change (peerEntryOf 0 (Addr.mapping ++ octets.1) port).1.offered =
      if SpecialRange (.v4 octets) then none else some ⟨.v4 octets, port⟩
    rw [peerEntryOf, if_pos rfl]
    dsimp only
    rw [first, back]
    by_cases special : octets.1.headD 0 = 0 ∨ octets.1.headD 0 ≥ 224
    · rw [if_pos special, if_pos (show SpecialRange (.v4 octets) from special)]
      split_ifs <;> rfl
    · rw [if_neg special, if_neg (show ¬ SpecialRange (.v4 octets) from special)]
      exact congrArg (fun a => some (AddrPort.mk a port)) (Addr.unmap_mapping octets)
  | v6 octets zone =>
    by_cases mark : isPeerVersionInformation ⟨.v6 octets zone, port⟩ = true
    · rw [peerEntryRead_of_mark mark, peerArrives]
      dsimp only
      rw [if_pos mark]
      rfl
    · have flag : isV6Flag ⟨.v6 octets zone, port⟩ = 1 := by simp [isV6Flag, mark, Addr.is6]
      rw [peerEntryRead, peerArrives, peerEntryOf, if_neg (by rw [flag]; decide)]
      dsimp only
      rw [if_neg mark]
      exact congrArg (fun a => some (AddrPort.mk a port)) (Addr.unmap_addrFrom16 held)

/-! ## The whole list -/

structure Drained (L : ReadLoop PeerExchange) (x : PeerExchange) : Prop where
  goesOn : L.progress.stopped = none
  mode : L.progress.mode = .message
  exchange : L.progress.client.other = x

def peersMode (left : Nat) (rawIp : Bytes) : ReadMode := if left = 0 then .message else .peers left rawIp

theorem readByte_cons {b : UInt8} (whole : Whole S) (bytes : S.flatten = b :: rest) :
    ∃ T, readByte S = .ok (b, T) ∧ T.flatten = rest ∧ Whole T := by
  have first : flat (readByte S) = .ok (b, rest) := by rw [flat_readByte, bytes, Reader.readByte]
  obtain ⟨T, read, left⟩ := flat_eq_ok first
  exact ⟨T, read, left, exact_readByte.whole S T b whole read⟩

theorem readFull_append (front : Bytes) (whole : Whole S) (bytes : S.flatten = front ++ rest) :
    ∃ T, readFull front.length S = .ok (front, T) ∧ T.flatten = rest ∧ Whole T := by
  obtain ⟨T, read, left⟩ := readFull_of_le (n := front.length) (S := S) (by rw [bytes]; simp)
  rw [bytes, List.take_left] at read
  rw [bytes, List.drop_left] at left
  exact ⟨T, read, left, (exact_readFull _).whole S T front whole read⟩

theorem readPeer_entry {L : ReadLoop PeerExchange} (left : Nat)
    (whole : Whole L.connection) (bytes : L.connection.flatten = peerEntryBytes p ++ rest)
    (size : rawIp.length = 16) : ∃ T rawIp', T.flatten = rest ∧ Whole T ∧ rawIp'.length = 16 ∧
      ReadLoop.readPeer takePeers L (left + 1) rawIp = ReadLoop.emit takePeers L.progress
        (.peerEntry (peerEntryRead p)) (peersMode left rawIp') T := by
  rw [peerEntryBytes, List.cons_append, List.append_assoc] at bytes
  obtain ⟨S, flag, afterFlag, wholeS⟩ := readByte_cons whole bytes
  have more : S.flatten ≠ [] := by
    intro ended
    have count := congrArg List.length (afterFlag.symm.trans ended)
    simp [p.addr.as16.2] at count
  obtain ⟨U, ip, afterIp, wholeU⟩ := read_whole wholeS more 16
  have octets : S.flatten.take 16 = p.addr.as16.1 := by
    rw [afterFlag]
    exact List.take_left' p.addr.as16.2
  have dropped : S.flatten.drop 16 = leBytes 2 p.port.toNat ++ rest := by
    rw [afterFlag]
    exact List.drop_left' p.addr.as16.2
  rw [dropped] at afterIp
  obtain ⟨T, port, afterPort, wholeT⟩ := readFull_append _ wholeU afterIp
  rw [leBytes_length] at port
  have value : UInt16.ofNat (ofLeBytes (leBytes 2 p.port.toNat)) = p.port := by
    rw [ofLeBytes_leBytes_of_lt p.port.toNat_lt, UInt16.ofNat_toNat]
  have array : p.addr.as16.1 ++ rawIp.drop p.addr.as16.1.length = p.addr.as16.1 := by
    rw [p.addr.as16.2, List.drop_eq_nil_of_le (by omega), List.append_nil]
  refine ⟨T, (peerEntryOf (isV6Flag p) p.addr.as16.1 p.port).2, afterPort, wholeT,
    length_peerEntryOf p.addr.as16.2 p.port, ?_⟩
  rw [ReadLoop.readPeer, flag]
  dsimp only
  rw [ip, octets]
  dsimp only
  rw [port]
  dsimp only
  rw [value, array, peersMode, peerEntryRead]
  have last : left + 1 ≤ 1 ↔ left = 0 := by omega
  simp only [last, Nat.add_sub_cancel]

section Stream

variable [Crypto] (consensus : Consensus)

theorem run_peers : ∀ (list : List AddrPort) {L : ReadLoop PeerExchange} {rawIp : Bytes}, rawIp.length = 16 →
    Whole L.connection → L.connection.flatten = list.flatMap peerEntryBytes → L.progress.stopped = none →
    L.progress.mode = peersMode list.length rawIp →
    Drained (ReadLoop.run takePeers consensus list.length L)
      ⟨L.progress.client.other.offered ++ list.filterMap fun p => (peerEntryRead p).offered,
        L.progress.client.other.versions ++ list.filterMap fun p => (peerEntryRead p).sets⟩ := by
  intro list
  induction list with
  | nil =>
    intro L rawIp _ _ _ goesOn mode
    exact ⟨goesOn, mode, by simp [ReadLoop.run]⟩
  | cons p list ih =>
    intro L rawIp size whole bytes goesOn mode
    rw [List.flatMap_cons] at bytes
    obtain ⟨T, rawIp', rest, wholeT, size', read⟩ :=
      readPeer_entry list.length whole bytes size
    have step : ReadLoop.step takePeers consensus L = ⟨T, { L.progress with
        client := { L.progress.client with other := L.progress.client.other.take (peerEntryRead p) }
        mode := peersMode list.length rawIp'
        received := L.progress.received ++ [.peerEntry (peerEntryRead p)] }⟩ := by
      rw [ReadLoop.step, goesOn, mode]
      exact read
    have later := ih (L := ReadLoop.step takePeers consensus L) size' (by rw [step]; exact wholeT)
      (by rw [step]; exact rest) (by rw [step]; exact goesOn) (by rw [step])
    have drained : Drained (ReadLoop.run takePeers consensus list.length (ReadLoop.step takePeers consensus L)) _ :=
      later
    rw [List.length_cons, ReadLoop.run, Function.iterate_succ_apply]
    refine ⟨drained.goesOn, drained.mode, drained.exchange.trans ?_⟩
    rw [step]
    simp only [PeerExchange.take, List.append_assoc, List.filterMap_cons]
    cases (peerEntryRead p).offered <;> cases (peerEntryRead p).sets <;> rfl

theorem step_peerListResponse {L : ReadLoop PeerExchange} {list : List AddrPort}
    (fits : list.length ≤ peerListResponseMaxPeers.toNat) (whole : Whole L.connection)
    (bytes : L.connection.flatten =
      MessageId.peerListResponse.toByte :: UInt8.ofNat list.length :: list.flatMap peerEntryBytes)
    (goesOn : L.progress.stopped = none) (mode : L.progress.mode = .message)
    (ready : L.progress.client.handshakeComplete = true) :
    ∃ T, T.flatten = list.flatMap peerEntryBytes ∧ Whole T ∧
      ReadLoop.step takePeers consensus L = ⟨T, { L.progress with
        mode := peersMode list.length (List.replicate 16 0)
        received := L.progress.received ++ [.peerListResponse (UInt8.ofNat list.length)] }⟩ := by
  obtain ⟨S, name, afterName, wholeS⟩ := readFull_append [MessageId.peerListResponse.toByte] whole bytes
  obtain ⟨T, count, afterCount, wholeT⟩ := readByte_cons wholeS afterName
  refine ⟨T, afterCount, wholeT, ?_⟩
  have dispatch : L.progress.client.dispatch MessageId.peerListResponse.toByte = .ok (L.progress.client, .peers) := by
    rw [ReaderClient.dispatch, if_neg (by simp [ready])]
    rfl
  have number : (UInt8.ofNat list.length).toNat = list.length := UInt8.toNat_ofNat_of_lt' (lt_of_le_of_lt fits (by decide))
  have few : ¬ UInt8.ofNat list.length > peerListResponseMaxPeers := by
    rw [gt_iff_lt, UInt8.lt_iff_toNat_lt, number]
    exact Nat.not_lt.mpr fits
  have none_iff : UInt8.ofNat list.length = 0 ↔ list.length = 0 := by
    rw [← UInt8.toNat_inj, number]
    rfl
  rw [ReadLoop.step, goesOn, mode]
  change ReadLoop.readMessage takePeers consensus L = _
  rw [ReadLoop.readMessage]
  rw [show readFull 1 L.connection = _ from name]
  dsimp only [List.headD_cons]
  rw [dispatch]
  dsimp only
  rw [ReadLoop.readPeers]
  dsimp only
  rw [count]
  dsimp only
  rw [if_neg few]
  simp only [none_iff, number]
  rfl

theorem drained_message {client : ReaderClient PeerExchange} (ready : client.handshakeComplete = true)
    {list : List AddrPort} (fits : list.length ≤ peerListResponseMaxPeers.toNat) {S : Chunks} (whole : Whole S)
    (bytes : S.flatten =
      MessageId.peerListResponse.toByte :: UInt8.ofNat list.length :: list.flatMap peerEntryBytes) :
    Drained (ReadLoop.run takePeers consensus (list.length + 1) (.start client S))
      ⟨client.other.offered ++ list.filterMap fun p => (peerEntryRead p).offered,
        client.other.versions ++ list.filterMap fun p => (peerEntryRead p).sets⟩ := by
  obtain ⟨T, rest, wholeT, step⟩ := step_peerListResponse consensus (L := .start client S) fits whole bytes rfl rfl ready
  rw [ReadLoop.run, Function.iterate_succ_apply, step]
  exact run_peers consensus list (by simp) wholeT rest rfl rfl

end Stream

/-! ## What is carried -/

structure PeerMessage where
  before : List AddrPort
  version : Option PeerVersionInformation
  after : List AddrPort

namespace PeerMessage

def peers (m : PeerMessage) : List AddrPort := m.before ++ m.after

def entries (m : PeerMessage) : List AddrPort :=
  m.before ++ (m.version.map PeerVersionInformation.toAddrPort).toList ++ m.after

/-- The receiver offers the peers outside the special ranges, and has the version that was sent. -/
structure Carried (m : PeerMessage) (x : PeerExchange) : Prop where
  offered : x.offered = m.peers.filter fun p => ¬ SpecialRange p.addr
  versions : x.versions ≠ [] ↔ m.version.isSome = true
  exact_ : ∀ v ∈ x.versions, m.version = some v

/-- No IPv6 address has a zone or the mark of a version, and an IPv4 address with the mark reads as
the version that was sent. -/
def Carriable (m : PeerMessage) : Prop :=
  ∀ p ∈ m.peers, match p.addr with
    | .v4 _ => isPeerVersionInformation p = true → m.version = some (.ofOctets Addr.mapping)
    | .v6 _ zone => zone = "" ∧ isPeerVersionInformation p = false

variable {m : PeerMessage}

theorem offered_entries (held : ∀ p ∈ m.peers, p.addr.unmap = p.addr) :
    (m.entries.filterMap fun p => (peerEntryRead p).offered) = m.peers.filterMap peerArrives := by
  have version : ((m.version.map PeerVersionInformation.toAddrPort).toList.filterMap
      fun p => (peerEntryRead p).offered) = [] := by
    cases m.version with
    | none => rfl
    | some i =>
      have read := peerEntryRead_of_mark i.isPeerVersionInformation_toAddrPort
      simp [read, PeerEntry.offered]
  have peers : (m.peers.filterMap fun p => (peerEntryRead p).offered) = m.peers.filterMap peerArrives :=
    List.filterMap_congr fun p mem => offered_peerEntryRead (held p mem)
  rw [← peers, entries, List.filterMap_append, List.filterMap_append, version, List.append_nil, ← List.filterMap_append]
  rfl

theorem mem_versions_iff (v : PeerVersionInformation) :
    v ∈ (m.entries.filterMap fun p => (peerEntryRead p).sets) ↔ m.version = some v ∨
      ∃ p ∈ m.peers, isPeerVersionInformation p = true ∧ PeerVersionInformation.ofOctets p.addr.as16.1 = v := by
  have reads : ∀ p, (peerEntryRead p).sets = some v ↔
      isPeerVersionInformation p = true ∧ PeerVersionInformation.ofOctets p.addr.as16.1 = v := by
    intro p
    rw [sets_peerEntryRead]
    by_cases mark : isPeerVersionInformation p = true
    · simp [mark]
    · simp [mark]
  have own : ∀ i : PeerVersionInformation, (peerEntryRead i.toAddrPort).sets = some v ↔ i = v := by
    intro i
    have octets : PeerVersionInformation.ofOctets i.toAddrPort.addr.as16.1 = i := by
      rw [i.addr_toAddrPort]
      exact i.ofOctets_octets
    rw [reads, octets, and_iff_right i.isPeerVersionInformation_toAddrPort]
  have version : (∃ p ∈ (m.version.map PeerVersionInformation.toAddrPort).toList,
      (peerEntryRead p).sets = some v) ↔ m.version = some v := by
    cases m.version with
    | none => simp
    | some i => simp [own]
  simp only [List.mem_filterMap, entries, peers, List.mem_append, or_and_right, exists_or, version]
  simp only [reads]
  rw [or_assoc, or_left_comm]

theorem arrive_iff : m.peers.filterMap peerArrives = m.peers.filter (fun p => ¬ SpecialRange p.addr) ↔
    ∀ p ∈ m.peers, match p.addr with
      | .v4 _ => True
      | .v6 _ zone => zone = "" ∧ isPeerVersionInformation p = false := by
  have fewer : ∀ p, (peerArrives p).isSome → decide (¬ SpecialRange p.addr) = true := by
    rintro ⟨addr, port⟩ some
    cases addr with
    | v4 octets =>
      by_cases special : SpecialRange (.v4 octets)
      · simp [peerArrives, special] at some
      · simp [special]
    | v6 octets zone => simp [SpecialRange]
  rw [filterMap_eq_filter_iff fewer]
  refine forall₂_congr fun p _ => ?_
  obtain ⟨addr, port⟩ := p
  cases addr with
  | v4 octets =>
    refine iff_of_true (fun kept => ?_) trivial
    have regular : ¬ SpecialRange (.v4 octets) := by simpa using kept
    simp [peerArrives, regular]
  | v6 octets zone =>
    by_cases mark : isPeerVersionInformation ⟨.v6 octets zone, port⟩ = true
    · simp [peerArrives, mark, SpecialRange]
    · simp [peerArrives, mark, SpecialRange, eq_comm]

def exchanged (m : PeerMessage) : PeerExchange :=
  ⟨m.entries.filterMap fun p => (peerEntryRead p).offered, m.entries.filterMap fun p => (peerEntryRead p).sets⟩

theorem carried_iff (held : ∀ p ∈ m.peers, p.addr.unmap = p.addr) : m.Carried m.exchanged ↔ m.Carriable := by
  constructor
  · rintro ⟨offered, -, exact_⟩ p mem
    have v6 := arrive_iff.mp ((offered_entries held).symm.trans offered) p mem
    obtain ⟨addr, port⟩ := p
    cases addr with
    | v4 octets => exact fun mark => exact_ _ ((mem_versions_iff _).mpr (.inr ⟨_, mem, mark, rfl⟩))
    | v6 octets zone => exact v6
  · intro carriable
    have known : ∀ v ∈ m.exchanged.versions, m.version = some v := by
      intro v set
      rcases (mem_versions_iff v).mp set with sent | ⟨p, mem, mark, rfl⟩
      · exact sent
      · have entry := carriable p mem
        obtain ⟨addr, port⟩ := p
        cases addr with
        | v4 octets => exact entry mark
        | v6 octets zone =>
          rw [entry.2] at mark
          cases mark
    refine ⟨(offered_entries held).trans (arrive_iff.mpr fun p mem => ?_), ?_, known⟩
    · have entry := carriable p mem
      obtain ⟨addr, port⟩ := p
      cases addr with
      | v4 octets => trivial
      | v6 octets zone => exact entry
    · constructor
      · intro some
        obtain ⟨v, mem⟩ := List.exists_mem_of_ne_nil _ some
        rw [known v mem]
        rfl
      · intro some
        obtain ⟨v, sent⟩ := Option.isSome_iff_exists.mp some
        exact List.ne_nil_of_mem ((mem_versions_iff v).mpr (.inl sent))

/-- The list arrives as it was sent exactly if no entry of it can be taken for another. -/
theorem peerList_carried_iff [Crypto] (consensus : Consensus) (m : PeerMessage)
    (held : ∀ p ∈ m.peers, p.addr.unmap = p.addr) {client : ReaderClient PeerExchange}
    (ready : client.handshakeComplete = true) (fresh : client.other = ⟨[], []⟩) {buffer : Bytes}
    (sent : sendPeerListResponse m.entries = some buffer) {S : Chunks}
    (arrives : S.flatten = MessageId.peerListResponse.toByte :: buffer)
    (full : ReadLoop.Unbroken consensus takePeers client S) :
    (∃ x, Drained (ReadLoop.run takePeers consensus (m.entries.length + 1) (.start client S)) x ∧ m.Carried x) ↔
      m.Carriable := by
  rw [← carried_iff held]
  unfold sendPeerListResponse at sent
  split_ifs at sent with many
  obtain rfl := Option.some.inj sent
  have whole := drained_message consensus ready (Nat.not_lt.mp many) (whole_singleton S.flatten)
    (by rw [← arrives]; simp)
  -- the loop does the same on the stream in one piece
  have same := (ReadLoop.same_run takePeers consensus (L := .start client S) (M := .start client [S.flatten])
    ⟨by simp [ReadLoop.start], rfl⟩ full (fun k => ReadLoop.stepOk_whole consensus
      (ReadLoop.whole_run takePeers consensus (whole_singleton S.flatten) k)) (m.entries.length + 1)).progress
  have drained : Drained (ReadLoop.run takePeers consensus (m.entries.length + 1) (.start client S)) m.exchanged := by
    refine ⟨by rw [same]; exact whole.goesOn, by rw [same]; exact whole.mode, ?_⟩
    rw [same, whole.exchange, fresh]
    rfl
  constructor
  · rintro ⟨x, ended, carried⟩
    rwa [← drained.exchange, ended.exchange]
  · exact fun carried => ⟨_, drained, carried⟩

end PeerMessage

namespace PeerListExample

open RoundTripExample (crypto)

def client : ReaderClient PeerExchange := ⟨true, .handshakeSolution, 0, [], ⟨[], []⟩⟩

def ip6 (last : Octets 4) (zone : String) : Addr :=
  .v6 ⟨[0x20, 0x01, 0x0D, 0xB8, 0, 0, 0, 0, 0, 0, 0, 0] ++ last.1, by rw [List.length_append, last.2]; rfl⟩ zone

def wire (m : PeerMessage) : Bytes :=
  MessageId.peerListResponse.toByte :: UInt8.ofNat m.entries.length :: m.entries.flatMap peerEntryBytes

/-- Two addresses, one in a special range, and a version. -/
def regular : PeerMessage where
  before := [⟨.v4 ⟨[10, 1, 2, 3], rfl⟩, 37889⟩]
  version := some ⟨0x10002, 0x30000, 0x624F6F47⟩
  after := [⟨ip6 ⟨[0, 0, 0, 1], rfl⟩ "", 37889⟩, ⟨.v4 ⟨[0, 1, 2, 3], rfl⟩, 37889⟩]

theorem peerList_carried_regular :
    ∃ x, Drained (@ReadLoop.run _ takePeers crypto consensusMini (regular.entries.length + 1)
      (.start client [wire regular])) x ∧ regular.Carried x := by
  let : Crypto := crypto
  refine (PeerMessage.peerList_carried_iff consensusMini regular ?_ rfl rfl rfl (List.flatten_singleton ..)
    fun k => ?_).mpr ?_
  · decide +kernel
  · exact ReadLoop.stepOk_whole consensusMini (ReadLoop.whole_run takePeers consensusMini
      (L := .start client [wire regular]) (whole_singleton _) k)
  · intro p mem
    simp only [PeerMessage.peers, regular, List.cons_append, List.nil_append, List.mem_cons, List.not_mem_nil,
      or_false] at mem
    rcases mem with rfl | rfl | rfl
    · exact fun mark => absurd mark (by decide +kernel)
    · exact ⟨rfl, by decide +kernel⟩
    · exact fun mark => absurd mark (by decide +kernel)

def marked (addr : Addr) : PeerMessage := ⟨[⟨addr, 0xFFFF⟩], none, []⟩

theorem drained_marked (addr : Addr) :
    Drained (@ReadLoop.run _ takePeers crypto consensusMini 2 (.start client [wire (marked addr)]))
      (marked addr).exchanged :=
  @drained_message crypto consensusMini client rfl (marked addr).entries (show 1 ≤ 16 by decide) [wire (marked addr)]
    (whole_singleton _) (List.flatten_singleton ..)

theorem not_carried_marked (addr : Addr) {x : PeerExchange} (set : x.versions ≠ []) : ¬ (marked addr).Carried x := by
  intro carried
  have sent := carried.versions.mp set
  cases sent

/-- An IPv6 peer whose address ends in four bytes `0xFF` is not offered, and it sets a version, as
does the IPv4 peer `255.255.255.255`. -/
theorem marked_peer_lost :
    Drained (@ReadLoop.run _ takePeers crypto consensusMini 2
        (.start client [wire (marked (ip6 ⟨versionMark, rfl⟩ ""))])) ⟨[], [⟨0xB80D0120, 0, 0⟩]⟩ ∧
      ¬ (marked (ip6 ⟨versionMark, rfl⟩ "")).Carried ⟨[], [⟨0xB80D0120, 0, 0⟩]⟩ ∧
      Drained (@ReadLoop.run _ takePeers crypto consensusMini 2
        (.start client [wire (marked (.v4 ⟨versionMark, rfl⟩))])) ⟨[], [⟨0, 0, 0xFFFF0000⟩]⟩ ∧
      ¬ (marked (.v4 ⟨versionMark, rfl⟩)).Carried ⟨[], [⟨0, 0, 0xFFFF0000⟩]⟩ := by
  have six : (marked (ip6 ⟨versionMark, rfl⟩ "")).exchanged = ⟨[], [⟨0xB80D0120, 0, 0⟩]⟩ := by decide +kernel
  have four : (marked (.v4 ⟨versionMark, rfl⟩)).exchanged = ⟨[], [⟨0, 0, 0xFFFF0000⟩]⟩ := by decide +kernel
  refine ⟨?_, not_carried_marked _ (List.cons_ne_nil _ _), ?_, not_carried_marked _ (List.cons_ne_nil _ _)⟩
  · rw [← six]
    exact drained_marked _
  · rw [← four]
    exact drained_marked _

end PeerListExample

end P2PoolObserver
