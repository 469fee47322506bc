/-
# P2p.ReadLoop -- how the read loop takes messages from the connection (`Client.OnConnection`)

The loop reads a byte that names a message, checks whether it may be sent now, and reads its
fields.  Most fields are read to their full length.  The sixteen bytes of an address in a
`PEER_LIST_RESPONSE` are asked for with one call of `Read`, and a block is decoded from a
buffered reader over the bytes its size announces, which is dropped when the decoder is done.

One step is one message, or one entry of a list of peers.  What the client does with what it
received is a parameter (`react`).
-/
import P2PoolObserver.Lib.Chunks
import P2PoolObserver.P2p.Challenge
import P2PoolObserver.P2p.Messages

namespace P2PoolObserver

open Lib

/-- What the loop asks of a client before it reads the fields of a message; `other` is the
rest of the client and of its server. -/
structure ReaderClient (σ : Type) where
  handshakeComplete : Bool
  expectedMessage : MessageId
  listenPort : UInt32
  blockPendingRequests : List Hash
  other : σ
  deriving DecidableEq

/-- An entry of a list of peers: none, the version of the peer, or an address for the peer list. -/
inductive PeerEntry where
  | ignored
  | version (protocol softwareVersion softwareId : UInt32)
  | peer (rawIp : Bytes) (port : UInt16)
  deriving DecidableEq

/-- What the loop has read.  A block of size zero is none. -/
inductive Received where
  | handshakeChallenge (challenge : HandshakeChallenge) (peerId : UInt64)
  | handshakeSolution (challengeHash : Hash) (solution : UInt64)
  | listenPort (port : UInt32)
  | blockRequest (templateId : Hash)
  | blockResponse (expectedBlockId : Hash) (block : Option PoolBlock)
  | blockBroadcast (block : Option PoolBlock)
  | blockBroadcastCompact (block : Option PoolBlock)
  | peerListRequest
  | peerListResponse (numPeers : UInt8)
  | peerEntry (entry : PeerEntry)
  | blockNotify (templateId : Hash)

inductive ReadStop where
  | closed
  | unexpectedPreHandshake (got : UInt8) (expected : MessageId)
  | challengeAfterHandshake
  | solutionAfterHandshake
  | listenPortReceived
  | unexpectedBlockResponse
  | tooManyPeers (numPeers : UInt8)
  | unknownInternalMessageId (id : UInt64)
  | unknownMessageId (id : UInt8)
  | read (error : ReadError)
  | handler (reason : String)
  deriving DecidableEq

inductive Item where
  | fields (reader : ChunkReader (Except ReadStop Received))
  | block (compact : Bool) (received : Option PoolBlock → Received)
  | peers

namespace Item

open Chunks

def uint64 (bytes : Bytes) : UInt64 := UInt64.ofNat (ofLeBytes bytes)

def uint32 (bytes : Bytes) : UInt32 := UInt32.ofNat (ofLeBytes bytes)

def challengeFields : ChunkReader (Except ReadStop Received) := do
  let challenge ← readFull handshakeChallengeSize
  let peerId ← readFull 8
  return .ok (.handshakeChallenge (BitVec.ofNat 64 (ofLeBytes challenge)) (uint64 peerId))

def solutionFields : ChunkReader (Except ReadStop Received) := do
  let challengeHash ← readFull hashSize
  let solution ← readFull 8
  return .ok (.handshakeSolution (.ofBytes challengeHash) (uint64 solution))

def listenPortFields : ChunkReader (Except ReadStop Received) := do
  let port ← readFull 4
  return .ok (.listenPort (uint32 port))

/-- The template id of `BLOCK_REQUEST` and `BLOCK_NOTIFY`. -/
def idFields (received : Hash → Received) : ChunkReader (Except ReadStop Received) := do
  let templateId ← readFull hashSize
  return .ok (received (.ofBytes templateId))

def readUvarintFrom : Nat → Nat → Nat → ChunkReader UInt64
  | 0, _, _ => fun _ => .error .overflow
  | fuel + 1, i, x => fun S =>
    match readByte S with
    | .error _ => .error (if 0 < i then .unexpectedEof else .eof)
    | .ok (b, T) =>
      if b.toNat < 128 then
        if i = 9 ∧ 1 < b.toNat then .error .overflow
        else .ok (UInt64.ofNat (x + b.toNat * 128 ^ i), T)
      else readUvarintFrom fuel (i + 1) (x + (b.toNat - 128) * 128 ^ i) T

def internalFields : ChunkReader (Except ReadStop Received) := do
  let internalMessageId ← readUvarintFrom 10 0 0
  let _messageSize ← readUvarintFrom 10 0 0
  return .error (.unknownInternalMessageId internalMessageId)

end Item

namespace ReaderClient

variable {σ : Type}

def itemOf (c : ReaderClient σ) : MessageId → Except ReadStop (ReaderClient σ × Item)
  | .handshakeChallenge =>
    if c.handshakeComplete then .error .challengeAfterHandshake else .ok (c, .fields Item.challengeFields)
  | .handshakeSolution =>
    if c.handshakeComplete then .error .solutionAfterHandshake else .ok (c, .fields Item.solutionFields)
  | .listenPort =>
    if c.listenPort ≠ 0 then .error .listenPortReceived else .ok (c, .fields Item.listenPortFields)
  | .blockRequest => .ok (c, .fields (Item.idFields .blockRequest))
  | .blockResponse =>
    match c.blockPendingRequests with
    | [] => .error .unexpectedBlockResponse
    | expected :: pending =>
      .ok ({ c with blockPendingRequests := pending }, .block false (.blockResponse expected))
  | .blockBroadcast => .ok (c, .block false .blockBroadcast)
  | .blockBroadcastCompact => .ok (c, .block true .blockBroadcastCompact)
  | .peerListRequest => .ok (c, .fields (Chunks.pure (.ok .peerListRequest)))
  | .peerListResponse => .ok (c, .peers)
  | .blockNotify => .ok (c, .fields (Item.idFields .blockNotify))
  | .internal => .ok (c, .fields Item.internalFields)

def dispatch (c : ReaderClient σ) (id : UInt8) : Except ReadStop (ReaderClient σ × Item) :=
  if c.handshakeComplete = false ∧ id ≠ c.expectedMessage.toByte then
    .error (.unexpectedPreHandshake id c.expectedMessage)
  else
    match MessageId.ofByte id with
    | none => .error (.unknownMessageId id)
    | some m => c.itemOf m

end ReaderClient

/-- The loop is between messages, or has entries of a list of peers to read; the array for
the address is the same one for all of them. -/
inductive ReadMode where
  | message
  | peers (left : Nat) (rawIp : Bytes)
  deriving DecidableEq

structure ReadProgress (σ : Type) where
  client : ReaderClient σ
  mode : ReadMode
  received : List Received
  stopped : Option ReadStop

structure ReadLoop (σ : Type) where
  connection : Chunks
  progress : ReadProgress σ

def peerListResponseMaxPeers : UInt8 := 16

/-- An entry from the array and the port, and what the array holds afterwards. -/
def peerEntryOf (isV6 : UInt8) (rawIp : Bytes) (port : UInt16) : PeerEntry × Bytes :=
  if isV6 = 0 then
    let first := rawIp.getD 12 0
    if first = 0 ∨ first ≥ 224 then
      if ofLeBytes (rawIp.drop 12) = 0xFFFFFFFF ∧ port = 0xFFFF then
        (.version (Item.uint32 (rawIp.take 4)) (Item.uint32 ((rawIp.drop 4).take 4))
          (Item.uint32 ((rawIp.drop 8).take 4)), rawIp)
      else (.ignored, rawIp)
    else
      let rawIp := List.replicate 10 0 ++ [0xFF, 0xFF] ++ rawIp.drop 12
      (.peer rawIp port, rawIp)
  else (.peer rawIp port, rawIp)

namespace ReadLoop

open Chunks

variable {σ : Type}

def start (client : ReaderClient σ) (S : Chunks) : ReadLoop σ := ⟨S, ⟨client, .message, [], none⟩⟩

def stop (L : ReadLoop σ) (reason : ReadStop) : ReadLoop σ :=
  { L with progress := { L.progress with stopped := some reason } }

section Loop

variable (react : ReaderClient σ → Received → Except ReadStop (ReaderClient σ))

/-- The client is given what was read, and goes on with what the connection still has. -/
def emit (p : ReadProgress σ) (event : Received) (mode : ReadMode) (S : Chunks) : ReadLoop σ :=
  let received := p.received ++ [event]
  match react p.client event with
  | .ok client => ⟨S, { p with client, mode, received }⟩
  | .error reason => ⟨S, { p with received, stopped := some reason }⟩

/-- One entry of a list of peers.  The call for the address may return fewer bytes, and then
the array keeps what it held. -/
def readPeer (L : ReadLoop σ) (left : Nat) (rawIp : Bytes) : ReadLoop σ :=
  match readByte L.connection with
  | .error e => L.stop (.read e)
  | .ok (isV6, S) =>
    match Chunks.read 16 S with
    | none => L.stop (.read .eof)
    | some (ip, T) =>
      match readFull 2 T with
      | .error e => L.stop (.read e)
      | .ok (port, U) =>
        let (entry, rawIp) := peerEntryOf isV6 (ip ++ rawIp.drop ip.length) (UInt16.ofNat (ofLeBytes port))
        emit react L.progress (.peerEntry entry) (if left ≤ 1 then .message else .peers (left - 1) rawIp) U

def readPeers (L : ReadLoop σ) : ReadLoop σ :=
  match readByte L.connection with
  | .error e => L.stop (.read e)
  | .ok (numPeers, S) =>
    if numPeers > peerListResponseMaxPeers then L.stop (.tooManyPeers numPeers)
    else
      emit react L.progress (.peerListResponse numPeers)
        (if numPeers = 0 then .message else .peers numPeers.toNat (List.replicate 16 0)) S

def readFields (L : ReadLoop σ) (reader : ChunkReader (Except ReadStop Received)) : ReadLoop σ :=
  match reader L.connection with
  | .error e => L.stop (.read e)
  | .ok (.error reason, _) => L.stop reason
  | .ok (.ok event, S) => emit react L.progress event .message S

variable [Crypto] (consensus : Consensus)

def decodeBlock (compact : Bool) : Reader PoolBlock :=
  if compact then PoolBlock.fromCompactReader consensus else PoolBlock.fromReader consensus

/-- What the buffered reader leaves of the connection when the decoder is done.  The decoder
begins with a read, so that the buffer is filled at least once. -/
def leftByDecoder (n : Nat) (S : Chunks) (rest : Bytes) : Chunks :=
  let need := max 1 ((S.flatten.take n).length - rest.length)
  pull need n need S

def readBlock (L : ReadLoop σ) (compact : Bool) (received : Option PoolBlock → Received) : ReadLoop σ :=
  match readFull 4 L.connection with
  | .error e => L.stop (.read e)
  | .ok (size, S) =>
    let blockSize := ofLeBytes size
    if blockSize = 0 then emit react L.progress (received none) .message S
    else
      match decodeBlock consensus compact (S.flatten.take blockSize) with
      | .error e => L.stop (.read e)
      | .ok (block, rest) =>
        emit react L.progress (received (some block)) .message (leftByDecoder blockSize S rest)

def readMessage (L : ReadLoop σ) : ReadLoop σ :=
  match readFull 1 L.connection with
  | .error _ => L.stop .closed
  | .ok (id, S) =>
    match L.progress.client.dispatch (id.headD 0) with
    | .error reason => L.stop reason
    | .ok (client, item) =>
      let L : ReadLoop σ := ⟨S, { L.progress with client }⟩
      match item with
      | .fields reader => readFields react L reader
      | .block compact received => readBlock react consensus L compact received
      | .peers => readPeers react L

def step (L : ReadLoop σ) : ReadLoop σ :=
  if L.progress.stopped.isSome then L
  else
    match L.progress.mode with
    | .message => readMessage react consensus L
    | .peers left rawIp => readPeer react L left rawIp

def run (k : Nat) (L : ReadLoop σ) : ReadLoop σ := (step react consensus)^[k] L

end Loop

end ReadLoop

end P2PoolObserver
