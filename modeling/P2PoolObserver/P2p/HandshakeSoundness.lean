/-
# P2p.HandshakeSoundness -- one end of a connection against any peer (`Client.OnConnection`)

The other end may send any bytes, in any segments.  The read loop takes messages from them,
the handlers of the handshake change the client, and what ends the loop bans or closes it;
between two rounds another goroutine, or a failed write, may close the client as well.
-/
import P2PoolObserver.P2p.Handshake
import P2PoolObserver.P2p.ReadLoop

namespace P2PoolObserver

open Lib

/-! ## What a round of the read loop can do -/

namespace Received

def messageId : Received → MessageId
  | handshakeChallenge _ _ => .handshakeChallenge
  | handshakeSolution _ _ => .handshakeSolution
  | listenPort _ => .listenPort
  | blockRequest _ => .blockRequest
  | blockResponse _ _ => .blockResponse
  | blockBroadcast _ => .blockBroadcast
  | blockBroadcastCompact _ => .blockBroadcastCompact
  | peerListRequest => .peerListRequest
  | peerListResponse _ | peerEntry _ => .peerListResponse
  | blockNotify _ => .blockNotify

end Received

namespace Item

open Chunks

def Yields (m : MessageId) : Item → Prop
  | .fields reader => ∀ (S T : Chunks) (event : Received), reader S = .ok (.ok event, T) → event.messageId = m
  | .block _ received => ∀ block, (received block).messageId = m
  | .peers => m = .peerListResponse

theorem yields_challengeFields : (Item.fields challengeFields).Yields .handshakeChallenge := by
  intro S T event ok
  obtain ⟨challenge, S', -, ok⟩ := bind_eq_ok ok
  obtain ⟨peerId, S'', -, ok⟩ := bind_eq_ok ok
  cases ok
  rfl

theorem yields_solutionFields : (Item.fields solutionFields).Yields .handshakeSolution := by
  intro S T event ok
  obtain ⟨challengeHash, S', -, ok⟩ := bind_eq_ok ok
  obtain ⟨solution, S'', -, ok⟩ := bind_eq_ok ok
  cases ok
  rfl

theorem yields_listenPortFields : (Item.fields listenPortFields).Yields .listenPort := by
  intro S T event ok
  obtain ⟨port, S', -, ok⟩ := bind_eq_ok ok
  cases ok
  rfl

theorem yields_idFields {received : Hash → Received} {m : MessageId} (same : ∀ id, (received id).messageId = m) :
    (Item.fields (idFields received)).Yields m := by
  intro S T event ok
  obtain ⟨templateId, S', -, ok⟩ := bind_eq_ok ok
  cases ok
  exact same _

theorem yields_internalFields (m : MessageId) : (Item.fields internalFields).Yields m := by
  intro S T event ok
  obtain ⟨internalMessageId, S', -, ok⟩ := bind_eq_ok ok
  obtain ⟨messageSize, S'', -, ok⟩ := bind_eq_ok ok
  nomatch ok

end Item

namespace ReaderClient

variable {σ : Type} {c c' : ReaderClient σ} {item : Item} {m : MessageId}

def withPending (c : ReaderClient σ) (pending : List Hash) : ReaderClient σ :=
  { c with blockPendingRequests := pending }

/-- The checks that stand before the fields of a message. -/
structure MayTake (c : ReaderClient σ) (m : MessageId) : Prop where
  expected : c.handshakeComplete = false → m = c.expectedMessage
  handshake : m = .handshakeChallenge ∨ m = .handshakeSolution → c.handshakeComplete = false
  port : m = .listenPort → c.listenPort = 0

theorem itemOf_eq_ok (ok : c.itemOf m = .ok (c', item)) :
    (∃ pending, c' = c.withPending pending) ∧ item.Yields m ∧
      (m = .handshakeChallenge ∨ m = .handshakeSolution → c.handshakeComplete = false) ∧
      (m = .listenPort → c.listenPort = 0) := by
  cases m with
  | handshakeChallenge =>
    simp only [itemOf] at ok
    split_ifs at ok with complete
    cases ok
    exact ⟨⟨_, rfl⟩, Item.yields_challengeFields, fun _ => Bool.eq_false_of_not_eq_true complete, nofun⟩
  | handshakeSolution =>
    simp only [itemOf] at ok
    split_ifs at ok with complete
    cases ok
    exact ⟨⟨_, rfl⟩, Item.yields_solutionFields, fun _ => Bool.eq_false_of_not_eq_true complete, nofun⟩
  | listenPort =>
    simp only [itemOf] at ok
    split_ifs at ok with given
    cases ok
    exact ⟨⟨_, rfl⟩, Item.yields_listenPortFields, nofun, fun _ => not_not.mp given⟩
  | blockResponse =>
    simp only [itemOf] at ok
    split at ok
    · nomatch ok
    · cases ok
      exact ⟨⟨_, rfl⟩, fun _ => rfl, nofun, nofun⟩
  | blockRequest | blockNotify =>
    cases ok
    exact ⟨⟨_, rfl⟩, Item.yields_idFields fun _ => rfl, nofun, nofun⟩
  | blockBroadcast | blockBroadcastCompact =>
    cases ok
    exact ⟨⟨_, rfl⟩, fun _ => rfl, nofun, nofun⟩
  | peerListRequest =>
    cases ok
    refine ⟨⟨_, rfl⟩, ?_, nofun, nofun⟩
    intro S T event ok
    cases ok
    rfl
  | peerListResponse =>
    cases ok
    exact ⟨⟨_, rfl⟩, rfl, nofun, nofun⟩
  | internal =>
    cases ok
    exact ⟨⟨_, rfl⟩, Item.yields_internalFields _, nofun, nofun⟩

theorem dispatch_eq_ok {id : UInt8} (ok : c.dispatch id = .ok (c', item)) :
    ∃ m pending, c' = c.withPending pending ∧ c.MayTake m ∧ item.Yields m := by
  simp only [dispatch] at ok
  split_ifs at ok with unexpected
  split at ok
  · nomatch ok
  case h_2 m known =>
    obtain ⟨⟨pending, rfl⟩, yields, handshake, port⟩ := itemOf_eq_ok ok
    refine ⟨m, pending, rfl, ⟨?_, handshake, port⟩, yields⟩
    intro early
    have named : id = c.expectedMessage.toByte := by
      by_contra other
      exact unexpected ⟨early, other⟩
    rw [named, MessageId.ofByte_toByte] at known
    exact (Option.some.inj known).symm

end ReaderClient

namespace ReadProgress

variable {σ : Type}

def Takes (p : ReadProgress σ) (event : Received) (next : ReadMode) : Prop :=
  match p.mode with
  | .message => p.client.MayTake event.messageId ∧ (next = .message ∨ event.messageId = .peerListResponse)
  | .peers _ _ => event.messageId = .peerListResponse

end ReadProgress

namespace ReadLoop

open Chunks

variable {σ : Type} {react : ReaderClient σ → Received → Except ReadStop (ReaderClient σ)} {L : ReadLoop σ}

def Ends (react : ReaderClient σ → Received → Except ReadStop (ReaderClient σ)) (L M : ReadLoop σ) (m : MessageId) :
    Prop :=
  (∃ reason, M = L.stop reason) ∨
    ∃ S event next, M = emit react L.progress event next S ∧ event.messageId = m ∧
      (next = .message ∨ m = .peerListResponse)

theorem ends_readFields {reader : ChunkReader (Except ReadStop Received)} {m : MessageId}
    (yields : (Item.fields reader).Yields m) : Ends react L (readFields react L reader) m := by
  unfold readFields
  split
  · exact .inl ⟨_, rfl⟩
  · exact .inl ⟨_, rfl⟩
  case h_3 event S ok => exact .inr ⟨S, event, .message, rfl, yields _ _ _ ok, .inl rfl⟩

theorem ends_readPeers : Ends react L (readPeers react L) .peerListResponse := by
  unfold readPeers
  split
  · exact .inl ⟨_, rfl⟩
  · split_ifs
    · exact .inl ⟨_, rfl⟩
    · exact .inr ⟨_, _, _, rfl, rfl, .inr rfl⟩
    · exact .inr ⟨_, _, _, rfl, rfl, .inr rfl⟩

theorem ends_readPeer (left : Nat) (rawIp : Bytes) : Ends react L (readPeer react L left rawIp) .peerListResponse := by
  unfold readPeer
  split
  · exact .inl ⟨_, rfl⟩
  · split
    · exact .inl ⟨_, rfl⟩
    · split
      · exact .inl ⟨_, rfl⟩
      · exact .inr ⟨_, _, _, rfl, rfl, .inr rfl⟩

variable [Crypto] {consensus : Consensus}

theorem ends_readBlock {compact : Bool} {received : Option PoolBlock → Received} {m : MessageId}
    (yields : (Item.block compact received).Yields m) : Ends react L (readBlock react consensus L compact received) m := by
  unfold readBlock
  split
  · exact .inl ⟨_, rfl⟩
  · dsimp only
    split_ifs
    · exact .inr ⟨_, _, _, rfl, yields _, .inl rfl⟩
    · split
      · exact .inl ⟨_, rfl⟩
      · exact .inr ⟨_, _, _, rfl, yields _, .inl rfl⟩

theorem ends_item (M : ReadLoop σ) (item : Item) (m : MessageId) :
    item.Yields m → Ends react M
      (match item with
        | .fields reader => readFields react M reader
        | .block compact received => readBlock react consensus M compact received
        | .peers => readPeers react M) m := by
  intro yields
  cases item with
  | fields reader => exact ends_readFields yields
  | block compact received => exact ends_readBlock yields
  | peers =>
    obtain rfl : m = .peerListResponse := yields
    exact ends_readPeers

/-- A round ends the loop, or acts on something it had checked that it may take.  The client
the handlers are given differs from the one before at most in its pending requests. -/
theorem step_cases (react : ReaderClient σ → Received → Except ReadStop (ReaderClient σ)) (consensus : Consensus)
    (running : L.progress.stopped = none) : (∃ S pending reason, step react consensus L =
      ⟨S, { L.progress with client := L.progress.client.withPending pending, stopped := some reason }⟩) ∨
    ∃ S pending event next, L.progress.Takes event next ∧ step react consensus L =
      emit react { L.progress with client := L.progress.client.withPending pending } event next S := by
  unfold step
  rw [running, Option.isSome_none, if_neg Bool.false_ne_true]
  unfold ReadProgress.Takes
  cases mode : L.progress.mode with
  | peers left rawIp =>
    obtain ⟨reason, ended⟩ | ⟨S, event, next, emitted, same, -⟩ := ends_readPeer left rawIp
    · exact .inl ⟨_, L.progress.client.blockPendingRequests, reason, ended⟩
    · exact .inr ⟨S, L.progress.client.blockPendingRequests, event, next, same, emitted⟩
  | message =>
    dsimp only
    unfold readMessage
    cases read : readFull 1 L.connection with
    | error e => exact .inl ⟨_, L.progress.client.blockPendingRequests, _, rfl⟩
    | ok result =>
      obtain ⟨id, S⟩ := result
      dsimp only
      cases dispatched : L.progress.client.dispatch (id.headD 0) with
      | error reason => exact .inl ⟨_, L.progress.client.blockPendingRequests, reason, rfl⟩
      | ok taken =>
        obtain ⟨client, item⟩ := taken
        obtain ⟨m, pending, rfl, mayTake, yields⟩ := ReaderClient.dispatch_eq_ok dispatched
        obtain ⟨reason, ended⟩ | ⟨T, event, next, emitted, same, after⟩ :=
          ends_item ⟨S, { L.progress with client := L.progress.client.withPending pending }⟩ item m yields
        · exact .inl ⟨S, pending, reason, ended⟩
        · exact .inr ⟨T, pending, event, next, ⟨same ▸ mayTake, same ▸ after⟩, emitted⟩

theorem step_unexpected (react : ReaderClient σ → Received → Except ReadStop (ReaderClient σ)) (consensus : Consensus)
    {id : Bytes} {S : Chunks} (running : L.progress.stopped = none)
    (between : L.progress.mode = .message) (early : L.progress.client.handshakeComplete = false)
    (read : readFull 1 L.connection = .ok (id, S)) (other : id.headD 0 ≠ L.progress.client.expectedMessage.toByte) :
    step react consensus L =
      L.stop (.unexpectedPreHandshake (id.headD 0) L.progress.client.expectedMessage) := by
  unfold step
  rw [running, Option.isSome_none, if_neg Bool.false_ne_true, between]
  dsimp only
  unfold readMessage
  rw [read]
  dsimp only
  rw [ReaderClient.dispatch, if_pos ⟨early, other⟩]

end ReadLoop

/-! ## The handlers of the handshake, for any peer -/

namespace HandshakeClient

/-! ### What the handlers leave of the client -/

variable (c : HandshakeClient) (error : ClientError) (server : HandshakeServer)

@[simp] theorem closed_close : c.close.closed = true := by
  unfold close
  split_ifs with closed
  · exact closed
  · rfl
  · rfl

@[simp] theorem handshakeComplete_close : c.close.handshakeComplete = c.handshakeComplete := by
  unfold close
  split_ifs <;> rfl

@[simp] theorem listenPort_close : c.close.listenPort = c.listenPort := by
  unfold close
  split_ifs <;> rfl

theorem banned_close (cause : c.banned = true ∨ c.closed = false ∧ c.handshakeComplete = false) :
    c.close.banned = true := by
  unfold close
  split_ifs with closed complete
  · exact cause.resolve_right fun ⟨opened, _⟩ => Bool.false_ne_true (opened.symm.trans closed)
  · exact cause.resolve_right fun ⟨_, early⟩ => Bool.false_ne_true (early.symm.trans complete)
  · rfl

@[simp] theorem closed_ban : (c.ban error).closed = true := closed_close _

@[simp] theorem banned_ban : (c.ban error).banned = true := banned_close _ (.inl rfl)

@[simp] theorem handshakeComplete_ban : (c.ban error).handshakeComplete = c.handshakeComplete :=
  handshakeComplete_close _

@[simp] theorem listenPort_ban : (c.ban error).listenPort = c.listenPort := listenPort_close _

theorem checkHandshake_eq : ∃ outbox blockPendingRequests afterHandshakes,
    c.checkHandshake server = { c with outbox, blockPendingRequests, afterHandshakes } := by
  unfold checkHandshake onAfterHandshake sendBlockRequest sendMessage
  split_ifs
  · exact ⟨_, _, _, rfl⟩
  · exact ⟨_, _, _, rfl⟩
  · exact ⟨_, _, _, rfl⟩

theorem listenPort_checkHandshake : (c.checkHandshake server).listenPort = c.listenPort := by
  obtain ⟨outbox, pending, after, checked⟩ := checkHandshake_eq c server
  rw [checked]

end HandshakeClient

namespace HandshakeServer

/-- The id is neither ours nor that of another client. -/
def Regular (server : HandshakeServer) (peerId : UInt64) : Prop :=
  peerId ≠ server.peerId ∧ peerId ∉ server.otherPeerIds

end HandshakeServer

namespace HandshakeClient

variable {c : HandshakeClient} {server : HandshakeServer}

theorem listenPort_onChallenge (isIncomingConnection : Bool) (found : UInt64 × Hash × Bool) (peerId : UInt64) :
    (c.onChallenge server isIncomingConnection found peerId).listenPort = c.listenPort := by
  unfold onChallenge sendSolution
  split_ifs
  · exact listenPort_ban _ _
  · exact listenPort_close _
  · exact listenPort_close _
  · dsimp only
    split_ifs
    · exact listenPort_checkHandshake _ _
    · exact listenPort_checkHandshake _ _

theorem onChallenge_cases (server : HandshakeServer) (early : c.handshakeComplete = false) (isIncomingConnection : Bool)
    (found : UInt64 × Hash × Bool) (peerId : UInt64) :
    let c' := c.onChallenge server isIncomingConnection found peerId
    c'.closed = true ∧ c'.handshakeComplete = true ∨
      server.Regular peerId ∧ c'.closed = c.closed ∧ c'.handshakeComplete = false ∧
        c'.expectedMessage = .handshakeSolution := by
  unfold onChallenge sendSolution
  rw [if_neg (by simp [early])]
  split_ifs with self known
  · exact .inl ⟨closed_close _, handshakeComplete_close _⟩
  · exact .inl ⟨closed_close _, handshakeComplete_close _⟩
  · refine .inr ⟨⟨self, known⟩, ?_⟩
    dsimp only
    split_ifs
    all_goals
      obtain ⟨outbox, pending, after, checked⟩ := checkHandshake_eq _ _
      rw [checked]
      exact ⟨rfl, early, rfl⟩

theorem listenPort_onSolution (isIncomingConnection : Bool) (calculated : Hash × Bool) (challengeHash : Hash) :
    (c.onSolution server isIncomingConnection calculated challengeHash).listenPort = c.listenPort := by
  unfold onSolution
  dsimp only
  split_ifs
  · exact listenPort_ban _ _
  · exact listenPort_ban _ _
  · exact listenPort_ban _ _
  · exact listenPort_checkHandshake _ _

theorem onSolution_cases (server : HandshakeServer) (early : c.handshakeComplete = false) (isIncomingConnection : Bool)
    (calculated : Hash × Bool) (challengeHash : Hash) :
    let c' := c.onSolution server isIncomingConnection calculated challengeHash
    c'.closed = true ∧ c'.banned = true ∧ c'.handshakeComplete = false ∨
      calculated.1 = challengeHash ∧ (isIncomingConnection = true → calculated.2 = true) ∧ c'.closed = c.closed ∧
        c'.handshakeComplete = true := by
  unfold onSolution
  rw [if_neg (by simp [early])]
  dsimp only
  split_ifs with weak wrong
  · exact .inl ⟨closed_ban _ _, banned_ban _ _, (handshakeComplete_ban _ _).trans early⟩
  · exact .inl ⟨closed_ban _ _, banned_ban _ _, (handshakeComplete_ban _ _).trans early⟩
  · refine .inr ⟨not_not.mp wrong, fun incoming => ?_, ?_⟩
    · simpa [incoming] using weak
    · obtain ⟨outbox, pending, after, checked⟩ := checkHandshake_eq { c with handshakeComplete := true } server
      rw [checked]
      exact ⟨rfl, rfl⟩

theorem handleListenPort_cases (port : UInt32) :
    c.handleListenPort port = { c with listenPort := port } ∧ c.listenPort = 0 ∧ 1 ≤ port ∧ port ≤ 65535 ∨
      ∃ error, c.handleListenPort port = c.ban error := by
  unfold handleListenPort
  split_ifs with given range
  · exact .inr ⟨_, rfl⟩
  · exact .inr ⟨_, rfl⟩
  · refine .inl ⟨rfl, not_not.mp given, ?_, ?_⟩
    · grind
    · grind

end HandshakeClient

/-! ## One end of the connection -/

/-- A client of the read loop: its handshake, the error with which the loop itself ended, and
the ports it has stored and given to the peer list. -/
structure ConnectionClient where
  handshake : HandshakeClient
  stopError : Option ReadStop
  acceptedPorts : List UInt32

/-- What the handler of another message does to the client. -/
inductive OtherOutcome where
  | goesOn (blockPendingRequests : List Hash)
  | bans (reason : String)
  | closes

/-- Our end: `server` as the handler of the challenge finds it, and the handlers of the
messages that are not of the handshake, of which nothing is assumed. -/
structure LocalEnd where
  consensus : Consensus
  isIncomingConnection : Bool
  handshakeChallenge : HandshakeChallenge
  server : HandshakeServer
  others : ConnectionClient → Received → OtherOutcome

namespace ConnectionClient

def new : ConnectionClient := ⟨.new, none, []⟩

def toReader (c : ConnectionClient) : ReaderClient ConnectionClient where
  handshakeComplete := c.handshake.handshakeComplete
  expectedMessage := c.handshake.expectedMessage
  listenPort := c.handshake.listenPort
  blockPendingRequests := c.handshake.blockPendingRequests
  other := c

def withPending (c : ConnectionClient) (pending : List Hash) : ConnectionClient :=
  { c with handshake := { c.handshake with blockPendingRequests := pending } }

def close (c : ConnectionClient) : ConnectionClient := { c with handshake := c.handshake.close }

def ban (c : ConnectionClient) (reason : ReadStop) : ConnectionClient where
  handshake := { c.handshake with banned := true, closed := true }
  stopError := if c.handshake.banError.isSome then c.stopError else c.stopError.or (some reason)
  acceptedPorts := c.acceptedPorts

def endedBy (c : ConnectionClient) : ReadStop → ConnectionClient
  | .closed => c.close
  | reason => c.ban reason

variable [Crypto]

def handle (e : LocalEnd) (found : HandshakeChallenge → UInt64 × Hash × Bool) (c : ConnectionClient) :
    Received → ConnectionClient
  | .handshakeChallenge challenge peerId =>
    { c with
      handshake := c.handshake.onChallenge e.server e.isIncomingConnection (found challenge) peerId }
  | .handshakeSolution challengeHash solution =>
    let calculated := calculateChallengeHash e.handshakeChallenge e.consensus.id solution
    { c with
      handshake := c.handshake.onSolution e.server e.isIncomingConnection calculated challengeHash }
  | .listenPort port =>
    let handshake := c.handshake.handleListenPort port
    let stored := handshake.listenPort ≠ c.handshake.listenPort
    { c with
      handshake
      acceptedPorts := if stored then c.acceptedPorts ++ [handshake.listenPort] else c.acceptedPorts }
  | event =>
    match e.others c event with
    | .goesOn pending => c.withPending pending
    | .bans reason => c.ban (.handler reason)
    | .closes => c.close

def react (e : LocalEnd) (found : HandshakeChallenge → UInt64 × Hash × Bool) (r : ReaderClient ConnectionClient)
    (event : Received) : Except ReadStop (ReaderClient ConnectionClient) :=
  .ok (handle e found (r.other.withPending r.blockPendingRequests) event).toReader

end ConnectionClient

/-- A round of the read loop, with what the search for a salt returns if it is called; or a
call of `Close` from elsewhere. -/
inductive ConnectionEvent where
  | read (found : HandshakeChallenge → UInt64 × Hash × Bool)
  | close

namespace Connection

open ConnectionClient

def client (L : ReadLoop ConnectionClient) : ConnectionClient := L.progress.client.other

def withClient (L : ReadLoop ConnectionClient) (c : ConnectionClient) : ReadLoop ConnectionClient :=
  { L with progress := { L.progress with client := c.toReader } }

def received (L : ReadLoop ConnectionClient) : List MessageId := L.progress.received.map Received.messageId

variable [Crypto] (e : LocalEnd)

def read (found : HandshakeChallenge → UInt64 × Hash × Bool) (L : ReadLoop ConnectionClient) :
    ReadLoop ConnectionClient :=
  if (client L).handshake.closed then L
  else
    let L := L.step (react e found) e.consensus
    match L.progress.stopped with
    | none => L
    | some reason => withClient L (((client L).withPending L.progress.client.blockPendingRequests).endedBy reason)

def step (L : ReadLoop ConnectionClient) : ConnectionEvent → ReadLoop ConnectionClient
  | .read found => read e found L
  | .close => withClient L (client L).close

/-- The connection on which the peer sends the bytes of `S`. -/
def start (S : Chunks) : ReadLoop ConnectionClient := .start ConnectionClient.new.toReader S

def run (S : Chunks) (events : List ConnectionEvent) : ReadLoop ConnectionClient := events.foldl (step e) (start S)

end Connection

/-! ## Ports -/

namespace ConnectionClient

variable {c : ConnectionClient}

def PortsOk (c : ConnectionClient) : Prop :=
  c.acceptedPorts = [] ∧ c.handshake.listenPort = 0 ∨
    c.acceptedPorts = [c.handshake.listenPort] ∧ 1 ≤ c.handshake.listenPort ∧ c.handshake.listenPort ≤ 65535

theorem PortsOk.of_same {d : ConnectionClient} (ok : c.PortsOk) (accepted : d.acceptedPorts = c.acceptedPorts)
    (port : d.handshake.listenPort = c.handshake.listenPort) : d.PortsOk := by
  unfold PortsOk
  rw [accepted, port]
  exact ok

theorem PortsOk.close (ok : c.PortsOk) : c.close.PortsOk := ok.of_same rfl (HandshakeClient.listenPort_close _)

theorem PortsOk.endedBy (ok : c.PortsOk) (reason : ReadStop) : (c.endedBy reason).PortsOk := by
  cases reason with
  | closed => exact ok.close
  | _ => exact ok

theorem PortsOk.handle [Crypto] (ok : c.PortsOk) (e : LocalEnd) (found : HandshakeChallenge → UInt64 × Hash × Bool)
    (event : Received) : (handle e found c event).PortsOk := by
  cases event with
  | handshakeChallenge challenge peerId => exact ok.of_same rfl (HandshakeClient.listenPort_onChallenge _ _ _)
  | handshakeSolution challengeHash solution =>
    have port : (c.handshake.onSolution e.server e.isIncomingConnection
        (calculateChallengeHash e.handshakeChallenge e.consensus.id solution) challengeHash).listenPort =
          c.handshake.listenPort := HandshakeClient.listenPort_onSolution _ _ _
    exact ok.of_same rfl port
  | listenPort port =>
    obtain ⟨stored, none, low, high⟩ | ⟨error, banned⟩ := c.handshake.handleListenPort_cases port
    · have first : c.acceptedPorts = [] := by
        obtain ⟨empty, -⟩ | ⟨-, low, -⟩ := ok
        · exact empty
        · rw [none] at low
          exact absurd low (by decide)
      have changed : port ≠ c.handshake.listenPort := by
        rw [none]
        rintro rfl
        exact absurd low (by decide)
      refine .inr ⟨?_, ?_, ?_⟩
      · simp [ConnectionClient.handle, stored, changed, first]
      · simpa [ConnectionClient.handle, stored] using low
      · simpa [ConnectionClient.handle, stored] using high
    · refine ok.of_same ?_ ?_
      · simp [ConnectionClient.handle, banned]
      · simp [ConnectionClient.handle, banned]
  | _ =>
    unfold ConnectionClient.handle
    dsimp only
    split
    · exact ok
    · exact ok
    · exact ok.close

theorem closed_endedBy (c : ConnectionClient) (reason : ReadStop) : (c.endedBy reason).handshake.closed = true := by
  cases reason with
  | closed => exact HandshakeClient.closed_close _
  | _ => rfl

theorem handshakeComplete_endedBy (c : ConnectionClient) (reason : ReadStop) :
    (c.endedBy reason).handshake.handshakeComplete = c.handshake.handshakeComplete := by
  cases reason with
  | closed => exact HandshakeClient.handshakeComplete_close _
  | _ => rfl

theorem banned_endedBy (opened : c.handshake.closed = false) (early : c.handshake.handshakeComplete = false)
    (reason : ReadStop) : (c.endedBy reason).handshake.banned = true := by
  cases reason with
  | closed => exact HandshakeClient.banned_close _ (.inr ⟨opened, early⟩)
  | _ => rfl

theorem handshakeComplete_handle [Crypto] (e : LocalEnd) (found : HandshakeChallenge → UInt64 × Hash × Bool)
    {event : Received} (later : event.messageId ≠ .handshakeChallenge ∧ event.messageId ≠ .handshakeSolution) :
    (handle e found c event).handshake.handshakeComplete = c.handshake.handshakeComplete := by
  cases event with
  | handshakeChallenge challenge peerId => exact absurd rfl later.1
  | handshakeSolution challengeHash solution => exact absurd rfl later.2
  | listenPort port =>
    obtain ⟨stored, -⟩ | ⟨error, banned⟩ := c.handshake.handleListenPort_cases port
    · simp [handle, stored]
    · simp [handle, banned]
  | _ =>
    unfold handle
    dsimp only
    split
    · rfl
    · rfl
    · exact HandshakeClient.handshakeComplete_close _

end ConnectionClient

/-! ## Where the handshake stands -/

/-- The challenge and the solution come first and once, and what follows them came after the
handshake was complete. -/
def InOrder (complete : Bool) (ids : List MessageId) : Prop :=
  ids <+: [.handshakeChallenge, .handshakeSolution] ∨
    complete = true ∧ ∃ rest, ids = .handshakeChallenge :: .handshakeSolution :: rest ∧
      .handshakeChallenge ∉ rest ∧ .handshakeSolution ∉ rest

namespace Connection

open ConnectionClient

variable [Crypto] {e : LocalEnd} {L : ReadLoop ConnectionClient}

def Solves (e : LocalEnd) (challengeHash : Hash) (salt : UInt64) : Prop :=
  (calculateChallengeHash e.handshakeChallenge e.consensus.id salt).1 = challengeHash ∧
    (e.isIncomingConnection = true → (calculateChallengeHash e.handshakeChallenge e.consensus.id salt).2 = true)

structure Opened (L : ReadLoop ConnectionClient) (complete : Bool) : Prop where
  opened : (client L).handshake.closed = false
  running : L.progress.stopped = none
  handshakeComplete : (client L).handshake.handshakeComplete = complete

structure Awaits (L : ReadLoop ConnectionClient) (m : MessageId) : Prop extends Opened L false where
  between : L.progress.mode = .message
  expectedMessage : (client L).handshake.expectedMessage = m

inductive Stands (e : LocalEnd) (L : ReadLoop ConnectionClient) : Prop
  | challenge (awaits : Awaits L .handshakeChallenge) (events : L.progress.received = [])
  | solution (awaits : Awaits L .handshakeSolution) (challenge : HandshakeChallenge) (peerId : UInt64)
      (events : L.progress.received = [.handshakeChallenge challenge peerId]) (regular : e.server.Regular peerId)
  | complete (opened : Opened L true) (challenge : HandshakeChallenge) (peerId : UInt64) (challengeHash : Hash)
      (salt : UInt64) (rest : List Received)
      (events : L.progress.received = .handshakeChallenge challenge peerId :: .handshakeSolution challengeHash salt :: rest)
      (regular : e.server.Regular peerId) (solves : Solves e challengeHash salt)
      (later : ∀ event ∈ rest, event.messageId ≠ .handshakeChallenge ∧ event.messageId ≠ .handshakeSolution)
  | closed (closed : (client L).handshake.closed = true)
      (banned : (client L).handshake.handshakeComplete = false → (client L).handshake.banned = true)
      (order : InOrder (client L).handshake.handshakeComplete (received L))

structure Kept (e : LocalEnd) (L : ReadLoop ConnectionClient) : Prop where
  synced : L.progress.client = (client L).toReader
  stands : Stands e L
  ports : (client L).PortsOk

theorem kept_start (S : Chunks) : Kept e (start S) where
  synced := rfl
  stands := .challenge ⟨⟨rfl, rfl, rfl⟩, rfl, rfl⟩ rfl
  ports := .inl ⟨rfl, rfl⟩

omit [Crypto] in
theorem inOrder_of_later {challenge : HandshakeChallenge} {peerId : UInt64} {challengeHash : Hash} {salt : UInt64}
    {rest : List Received}
    (later : ∀ event ∈ rest, event.messageId ≠ .handshakeChallenge ∧ event.messageId ≠ .handshakeSolution) :
    InOrder true ((.handshakeChallenge challenge peerId :: .handshakeSolution challengeHash salt :: rest).map
      Received.messageId) := by
  refine .inr ⟨rfl, rest.map Received.messageId, rfl, ?_, ?_⟩
  · intro again
    obtain ⟨event, listed, same⟩ := List.mem_map.mp again
    exact (later event listed).1 same
  · intro again
    obtain ⟨event, listed, same⟩ := List.mem_map.mp again
    exact (later event listed).2 same

theorem Stands.inOrder (stands : Stands e L) : InOrder (client L).handshake.handshakeComplete (received L) := by
  cases stands with
  | challenge awaits events =>
    refine .inl ?_
    rw [received, events]
    exact List.nil_prefix
  | solution awaits challenge peerId events regular =>
    refine .inl ?_
    rw [received, events]
    exact ⟨[.handshakeSolution], rfl⟩
  | complete opened challenge peerId challengeHash salt rest events regular solves later =>
    rw [opened.handshakeComplete, received, events]
    exact inOrder_of_later later
  | closed closed banned order => exact order

theorem read_cases {complete : Bool} (opened : Opened L complete)
    (found : HandshakeChallenge → UInt64 × Hash × Bool) : (∃ S pending reason, read e found L =
      ⟨S, { L.progress with
            client := (((client L).withPending pending).endedBy reason).toReader
            stopped := some reason }⟩) ∨
    ∃ S pending event next, L.progress.Takes event next ∧ read e found L =
      ⟨S, { L.progress with
            client := (handle e found ((client L).withPending pending) event).toReader
            mode := next
            received := L.progress.received ++ [event] }⟩ := by
  unfold read
  rw [opened.opened, if_neg Bool.false_ne_true]
  obtain ⟨S, pending, reason, ended⟩ | ⟨S, pending, event, next, takes, emitted⟩ :=
    ReadLoop.step_cases (react e found) e.consensus opened.running
  · refine .inl ⟨S, pending, reason, ?_⟩
    rw [ended]
    rfl
  · refine .inr ⟨S, pending, event, next, takes, ?_⟩
    rw [emitted]
    dsimp only [ReadLoop.emit, react]
    rw [opened.running]
    rfl

theorem Stands.ended (stands : Stands e L) {complete : Bool} (opened : Opened L complete) (S : Chunks)
    (pending : List Hash) (reason : ReadStop) : Stands e ⟨S, { L.progress with
      client := (((client L).withPending pending).endedBy reason).toReader
      stopped := some reason }⟩ := by
  refine .closed (closed_endedBy _ reason) ?_ ?_
  · intro early
    have before := (handshakeComplete_endedBy _ reason).symm.trans early
    exact banned_endedBy (c := (client L).withPending pending) opened.opened before reason
  · have same : (((client L).withPending pending).endedBy reason).handshake.handshakeComplete =
        (client L).handshake.handshakeComplete := handshakeComplete_endedBy _ reason
    have order := stands.inOrder
    rw [← same] at order
    exact order

omit [Crypto] in
theorem Awaits.takes {m : MessageId} (awaits : Awaits L m) (synced : L.progress.client = (client L).toReader)
    (handshake : m ≠ .peerListResponse) {event : Received} {next : ReadMode} (takes : L.progress.Takes event next) :
    event.messageId = m ∧ next = .message := by
  unfold ReadProgress.Takes at takes
  rw [awaits.between, synced] at takes
  obtain ⟨mayTake, after⟩ := takes
  have same : event.messageId = m := (mayTake.expected awaits.handshakeComplete).trans awaits.expectedMessage
  exact ⟨same, after.resolve_right fun peers => handshake (same.symm.trans peers)⟩

section Rounds

variable {S : Chunks} {pending : List Hash} {event : Received} {next : ReadMode}
  {found : HandshakeChallenge → UInt64 × Hash × Bool}

def acted (e : LocalEnd) (L : ReadLoop ConnectionClient) (found : HandshakeChallenge → UInt64 × Hash × Bool)
    (S : Chunks) (pending : List Hash) (event : Received) (next : ReadMode) : ReadLoop ConnectionClient :=
  ⟨S, { L.progress with
        client := (handle e found ((client L).withPending pending) event).toReader
        mode := next
        received := L.progress.received ++ [event] }⟩

theorem stands_challenge (awaits : Awaits L .handshakeChallenge) (events : L.progress.received = [])
    (isChallenge : event.messageId = .handshakeChallenge) :
    Stands e (acted e L found S pending event .message) := by
  cases event with
  | handshakeChallenge challenge peerId =>
    have all : (acted e L found S pending (.handshakeChallenge challenge peerId) .message).progress.received =
        [.handshakeChallenge challenge peerId] := by
      dsimp only [acted]
      rw [events, List.nil_append]
    obtain ⟨closed, complete⟩ | ⟨regular, opened, early, expected⟩ :=
      HandshakeClient.onChallenge_cases (c := ((client L).withPending pending).handshake) e.server
        awaits.handshakeComplete e.isIncomingConnection (found challenge) peerId
    · refine .closed closed (fun early => ?_) ?_
      · exact absurd (complete.symm.trans early) Bool.false_ne_true.symm
      · refine .inl ?_
        rw [received, all]
        exact ⟨[.handshakeSolution], rfl⟩
    · exact .solution ⟨⟨opened.trans awaits.opened, awaits.running, early⟩, rfl, expected⟩ challenge peerId all regular
  | _ => nomatch isChallenge

theorem stands_solution (awaits : Awaits L .handshakeSolution) {challenge : HandshakeChallenge} {peerId : UInt64}
    (events : L.progress.received = [.handshakeChallenge challenge peerId]) (regular : e.server.Regular peerId)
    (isSolution : event.messageId = .handshakeSolution) :
    Stands e (acted e L found S pending event .message) := by
  cases event with
  | handshakeSolution challengeHash salt =>
    have all : (acted e L found S pending (.handshakeSolution challengeHash salt) .message).progress.received =
        [.handshakeChallenge challenge peerId, .handshakeSolution challengeHash salt] := by
      dsimp only [acted]
      rw [events, List.singleton_append]
    obtain ⟨closed, banned, early⟩ | ⟨same, meets, opened, complete⟩ :=
      HandshakeClient.onSolution_cases (c := ((client L).withPending pending).handshake) e.server
        awaits.handshakeComplete e.isIncomingConnection
        (calculateChallengeHash e.handshakeChallenge e.consensus.id salt) challengeHash
    · refine .closed closed (fun _ => banned) (.inl ?_)
      rw [received, all]
      exact ⟨[], rfl⟩
    · exact .complete ⟨opened.trans awaits.opened, awaits.running, complete⟩ challenge peerId challengeHash salt []
        all regular ⟨same, meets⟩ fun _ listed => absurd listed List.not_mem_nil
  | _ => nomatch isSolution

omit [Crypto] in
theorem Opened.later (opened : Opened L true) (synced : L.progress.client = (client L).toReader)
    (takes : L.progress.Takes event next) :
    event.messageId ≠ .handshakeChallenge ∧ event.messageId ≠ .handshakeSolution := by
  unfold ReadProgress.Takes at takes
  split at takes
  · have only := takes.1.handshake
    rw [synced] at only
    have complete : ¬ (client L).handshake.handshakeComplete = false := by simp [opened.handshakeComplete]
    exact ⟨fun same => complete (only (.inl same)), fun same => complete (only (.inr same))⟩
  · rw [takes]
    exact ⟨nofun, nofun⟩

theorem stands_complete (opened : Opened L true) {challenge : HandshakeChallenge} {peerId : UInt64}
    {challengeHash : Hash} {salt : UInt64} {rest : List Received}
    (events : L.progress.received = .handshakeChallenge challenge peerId :: .handshakeSolution challengeHash salt :: rest)
    (regular : e.server.Regular peerId) (solves : Solves e challengeHash salt)
    (later : ∀ seen ∈ rest ++ [event], seen.messageId ≠ .handshakeChallenge ∧ seen.messageId ≠ .handshakeSolution) :
    Stands e (acted e L found S pending event next) := by
  have complete : (client (acted e L found S pending event next)).handshake.handshakeComplete = true :=
    (handshakeComplete_handle e found (later event (by simp))).trans opened.handshakeComplete
  have all : (acted e L found S pending event next).progress.received =
      .handshakeChallenge challenge peerId :: .handshakeSolution challengeHash salt :: (rest ++ [event]) := by
    dsimp only [acted]
    rw [events, List.cons_append, List.cons_append]
  -- The handler may have closed the client; the messages are in order either way.
  cases closed : (client (acted e L found S pending event next)).handshake.closed with
  | false =>
    exact .complete ⟨closed, opened.running, complete⟩ challenge peerId challengeHash salt _ all regular solves later
  | true =>
    refine .closed closed (fun early => absurd (complete.symm.trans early) Bool.false_ne_true.symm) ?_
    rw [complete, received, all]
    exact inOrder_of_later later

end Rounds

theorem Stands.acted (stands : Stands e L) (opened : (client L).handshake.closed = false)
    (synced : L.progress.client = (client L).toReader) {event : Received} {next : ReadMode}
    (takes : L.progress.Takes event next) (found : HandshakeChallenge → UInt64 × Hash × Bool) (S : Chunks)
    (pending : List Hash) : Stands e (acted e L found S pending event next) := by
  cases stands with
  | challenge awaits events =>
    obtain ⟨isChallenge, rfl⟩ := awaits.takes synced nofun takes
    exact stands_challenge awaits events isChallenge
  | solution awaits challenge peerId events regular =>
    obtain ⟨isSolution, rfl⟩ := awaits.takes synced nofun takes
    exact stands_solution awaits events regular isSolution
  | complete opened challenge peerId challengeHash salt rest events regular solves later =>
    refine stands_complete opened events regular solves fun seen listed => ?_
    obtain listed | listed := List.mem_append.mp listed
    · exact later seen listed
    · obtain rfl := List.mem_singleton.mp listed
      exact opened.later synced takes
  | closed closed banned order => exact absurd (opened.symm.trans closed) Bool.false_ne_true

theorem Stands.opened (stands : Stands e L) (opened : (client L).handshake.closed = false) :
    Opened L (client L).handshake.handshakeComplete := by
  cases stands with
  | challenge awaits _ | solution awaits _ _ _ _ => exact ⟨opened, awaits.running, rfl⟩
  | complete isOpen => exact ⟨opened, isOpen.running, rfl⟩
  | closed closed _ _ => exact absurd (opened.symm.trans closed) Bool.false_ne_true

theorem Stands.banned (stands : Stands e L) (closed : (client L).handshake.closed = true)
    (early : (client L).handshake.handshakeComplete = false) : (client L).handshake.banned = true := by
  cases stands with
  | challenge awaits _ | solution awaits _ _ _ _ => exact absurd (awaits.opened.symm.trans closed) Bool.false_ne_true
  | complete isOpen => exact absurd (isOpen.opened.symm.trans closed) Bool.false_ne_true
  | closed _ banned _ => exact banned early

theorem Kept.read (kept : Kept e L) (found : HandshakeChallenge → UInt64 × Hash × Bool) : Kept e (read e found L) := by
  cases opened : (client L).handshake.closed with
  | true =>
    unfold Connection.read
    rw [opened, if_pos rfl]
    exact kept
  | false =>
    have isOpen := kept.stands.opened opened
    obtain ⟨S, pending, reason, ended⟩ | ⟨S, pending, event, next, takes, emitted⟩ := read_cases isOpen found
    · rw [ended]
      have ports : ((client L).withPending pending).PortsOk := kept.ports
      exact ⟨rfl, kept.stands.ended isOpen S pending reason, ports.endedBy reason⟩
    · rw [emitted]
      have ports : ((client L).withPending pending).PortsOk := kept.ports
      exact ⟨rfl, kept.stands.acted opened kept.synced takes found S pending, ports.handle e found event⟩

theorem Stands.close (stands : Stands e L) : Stands e (withClient L (client L).close) := by
  have same : (client L).close.handshake.handshakeComplete = (client L).handshake.handshakeComplete :=
    HandshakeClient.handshakeComplete_close _
  refine .closed (HandshakeClient.closed_close _) ?_ ?_
  · intro early
    have before := same.symm.trans early
    refine HandshakeClient.banned_close _ ?_
    cases closed : (client L).handshake.closed with
    | false => exact .inr ⟨rfl, before⟩
    | true => exact .inl (stands.banned closed before)
  · have order := stands.inOrder
    rw [← same] at order
    exact order

theorem Kept.step (kept : Kept e L) (event : ConnectionEvent) : Kept e (step e L event) := by
  cases event with
  | read found => exact kept.read found
  | close =>
    exact ⟨rfl, kept.stands.close, PortsOk.close kept.ports⟩

theorem kept_run (e : LocalEnd) (S : Chunks) (events : List ConnectionEvent) : Kept e (run e S events) :=
  List.foldlRecOn events (Connection.step e) (kept_start S) fun _ kept event _ => kept.step event

/-! ## What the handshake promises -/

def awaited (received : List MessageId) : MessageId :=
  if received.isEmpty then .handshakeChallenge else .handshakeSolution

theorem Awaits.unexpected {m : MessageId} (awaits : Awaits L m) (synced : L.progress.client = (client L).toReader)
    {id : Bytes} {S : Chunks} (next : Chunks.readFull 1 L.connection = .ok (id, S)) (other : id.headD 0 ≠ m.toByte)
    (found : HandshakeChallenge → UInt64 × Hash × Bool) :
    ∃ reason, read e found L = withClient (L.stop reason) ((client L).ban reason) := by
  have early : L.progress.client.handshakeComplete = false := by
    rw [synced]
    exact awaits.handshakeComplete
  have expected : L.progress.client.expectedMessage = m := by
    rw [synced]
    exact awaits.expectedMessage
  have step := ReadLoop.step_unexpected (react e found) e.consensus awaits.running awaits.between early next
    (by rw [expected]; exact other)
  refine ⟨.unexpectedPreHandshake (id.headD 0) L.progress.client.expectedMessage, ?_⟩
  unfold Connection.read
  rw [awaits.opened, if_neg Bool.false_ne_true, step]
  dsimp only [ReadLoop.stop, endedBy]
  rw [synced]
  rfl

/-- What one end can rely on against any peer. -/
structure Sound (e : LocalEnd) (L : ReadLoop ConnectionClient) : Prop where
  order : InOrder (client L).handshake.handshakeComplete (received L)
  unexpected : (client L).handshake.closed = false → (client L).handshake.handshakeComplete = false →
    ∀ (id : Bytes) (S : Chunks), Chunks.readFull 1 L.connection = .ok (id, S) →
      id.headD 0 ≠ (awaited (received L)).toByte → ∀ found,
        (client (Connection.read e found L)).handshake.banned = true ∧
          (client (Connection.read e found L)).handshake.closed = true ∧
          received (Connection.read e found L) = received L
  solved : (client L).handshake.handshakeComplete = true → (client L).handshake.closed = false →
    ∃ challengeHash salt, .handshakeSolution challengeHash salt ∈ L.progress.received ∧ Solves e challengeHash salt
  irregular : ∀ challenge peerId, .handshakeChallenge challenge peerId ∈ L.progress.received →
    peerId = e.server.peerId ∨ peerId ∈ e.server.otherPeerIds → (client L).handshake.closed = true
  ports : (client L).PortsOk

variable (stands : Stands e L)
include stands

theorem Stands.awaits (opened : (client L).handshake.closed = false)
    (early : (client L).handshake.handshakeComplete = false) : Awaits L (awaited (received L)) := by
  cases stands with
  | challenge awaits events | solution awaits challenge peerId events regular =>
    rw [received, events]
    exact awaits
  | complete isOpen => exact absurd (early.symm.trans isOpen.handshakeComplete) Bool.false_ne_true
  | closed closed _ _ => exact absurd (opened.symm.trans closed) Bool.false_ne_true

theorem Stands.solved (complete : (client L).handshake.handshakeComplete = true)
    (opened : (client L).handshake.closed = false) :
    ∃ challengeHash salt, .handshakeSolution challengeHash salt ∈ L.progress.received ∧ Solves e challengeHash salt := by
  cases stands with
  | challenge awaits _ => exact absurd (awaits.handshakeComplete.symm.trans complete) Bool.false_ne_true
  | solution awaits _ _ _ _ => exact absurd (awaits.handshakeComplete.symm.trans complete) Bool.false_ne_true
  | complete _ challenge peerId challengeHash salt rest events regular solves later =>
    refine ⟨challengeHash, salt, ?_, solves⟩
    rw [events]
    exact .tail _ (.head _)
  | closed closed _ _ => exact absurd (opened.symm.trans closed) Bool.false_ne_true

theorem Stands.regular (opened : (client L).handshake.closed = false) {challenge : HandshakeChallenge}
    {peerId : UInt64} (listed : .handshakeChallenge challenge peerId ∈ L.progress.received) :
    e.server.Regular peerId := by
  cases stands with
  | challenge _ events =>
    rw [events] at listed
    nomatch listed
  | solution _ challenge' peerId' events regular =>
    rw [events] at listed
    cases List.mem_singleton.mp listed
    exact regular
  | complete _ challenge' peerId' challengeHash salt rest events regular solves later =>
    rw [events] at listed
    obtain same | listed := List.mem_cons.mp listed
    · cases same
      exact regular
    obtain same | listed := List.mem_cons.mp listed
    · nomatch same
    · exact absurd rfl (later _ listed).1
  | closed closed _ _ => exact absurd (opened.symm.trans closed) Bool.false_ne_true

omit stands

/-- Whatever bytes the peer sends, in whatever segments, and whenever the client is closed. -/
theorem handshake_sound (e : LocalEnd) (S : Chunks) (events : List ConnectionEvent) : Sound e (run e S events) := by
  have kept := kept_run e S events
  generalize run e S events = L at kept
  refine ⟨kept.stands.inOrder, ?_, kept.stands.solved, ?_, kept.ports⟩
  · intro opened early id S' next other found
    obtain ⟨reason, banned⟩ := (kept.stands.awaits opened early).unexpected kept.synced next other found
    rw [banned]
    exact ⟨rfl, rfl, rfl⟩
  · intro challenge peerId listed irregular
    by_contra closed
    have regular := kept.stands.regular (Bool.eq_false_of_not_eq_true closed) listed
    exact irregular.elim regular.1 regular.2

/-- Where every hash is zero, a challenge and a solution of zeros, cut inside the challenge, complete
the handshake. -/
example :
    letI : Crypto := ⟨fun _ => 0, fun _ _ => 0, fun _ => 0, fun _ _ _ => (0, 0)⟩
    let e : LocalEnd := ⟨consensusMini, true, 5, ⟨1, 37889, 0, []⟩, fun _ _ => .closes⟩
    let w := run e [0 :: List.replicate 9 2, List.replicate 7 2 ++ 1 :: List.replicate 40 0]
      (List.replicate 2 (.read fun _ => (0, 0, true)))
    (client w).handshake.handshakeComplete = true ∧ (client w).handshake.closed = false := by
  decide +kernel

end Connection

end P2PoolObserver
