/-
# P2p.Handshake -- two ends of one connection (`Client.OnConnection`)

Each end runs the read loop of its client: it sends its challenge, answers the challenge of
the other end, checks the answer to its own, and then sends its listen port and a request for
the tip.  The messages of one end reach the other in order; a run is any sequence of the
connects, writes and reads of the two ends.
-/
import P2PoolObserver.P2p.Challenge
import P2PoolObserver.P2p.Messages

namespace P2PoolObserver

open Lib

/-! ## The two ends -/

/-- The end of the side that accepted the connection, and of the side that made it. -/
inductive Side where
  | incoming
  | outgoing
  deriving DecidableEq

namespace Side

def other : Side → Side
  | incoming => outgoing
  | outgoing => incoming

def isIncomingConnection : Side → Bool
  | incoming => true
  | outgoing => false

@[simp] theorem other_other (side : Side) : side.other.other = side := by cases side <;> rfl

@[simp] theorem other_ne (side : Side) : side.other ≠ side := by cases side <;> nofun

@[simp] theorem update_other {α : Type} (f : Side → α) (side : Side) (a : α) :
    Function.update f side a side.other = f side.other := Function.update_of_ne side.other_ne _ _

theorem eq_or_eq_other (side x : Side) : x = side ∨ x = side.other := by
  cases side <;> cases x <;> simp [other]

end Side

structure HandshakeServer where
  peerId : UInt64
  listenPort : UInt16
  externalListenPort : UInt16
  otherPeerIds : List UInt64
  deriving DecidableEq

def HandshakeServer.advertisedPort (server : HandshakeServer) : UInt16 :=
  if server.externalListenPort ≠ 0 then server.externalListenPort else server.listenPort

/-- Two servers of one consensus with different ids, neither of which has another client with
the id of the other; and the random challenge of each end. -/
structure Endpoints where
  consensusId : Hash
  server : Side → HandshakeServer
  challenge : Side → HandshakeChallenge
  apart : ∀ side, (server side.other).peerId ≠ (server side).peerId
  unknown : ∀ side, (server side.other).peerId ∉ (server side).otherPeerIds

inductive HandshakeMessage where
  | handshakeChallenge (challenge : HandshakeChallenge) (peerId : UInt64)
  | handshakeSolution (challengeHash : Hash) (solution : UInt64)
  | listenPort (port : UInt32)
  | blockRequest (id : Hash)
  deriving DecidableEq

def HandshakeMessage.messageId : HandshakeMessage → MessageId
  | handshakeChallenge _ _ => .handshakeChallenge
  | handshakeSolution _ _ => .handshakeSolution
  | listenPort _ => .listenPort
  | blockRequest _ => .blockRequest

inductive ClientError where
  | unexpectedPreHandshake (got expected : MessageId)
  | challengeAfterHandshake
  | connectedToSelf
  | alreadyConnected
  | solutionAfterHandshake
  | notEnoughPow
  | wrongHash
  | listenPortReceived
  | listenPortOutOfRange (port : UInt32)
  | disconnectedBeforeHandshake
  deriving DecidableEq

/-- A client of the handshake.  `outbox` is what its handler still has to write before the
loop reads again, `processed` the messages that passed the check before the switch, with
`HandshakeComplete` at that time, and `afterHandshakes` counts the runs of `OnAfterHandshake`. -/
structure HandshakeClient where
  connected : Bool
  expectedMessage : MessageId
  handshakeComplete : Bool
  sentHandshakeSolution : Bool
  peerId : UInt64
  listenPort : UInt32
  blockPendingRequests : List Hash
  banError : Option ClientError
  banned : Bool
  closed : Bool
  outbox : List HandshakeMessage
  processed : List (MessageId × Bool)
  afterHandshakes : Nat
  deriving DecidableEq

namespace HandshakeClient

def new : HandshakeClient where
  connected := false
  expectedMessage := .handshakeChallenge
  handshakeComplete := false
  sentHandshakeSolution := false
  peerId := 0
  listenPort := 0
  blockPendingRequests := []
  banError := none
  banned := false
  closed := false
  outbox := []
  processed := []
  afterHandshakes := 0

def setError (c : HandshakeClient) (error : ClientError) : HandshakeClient :=
  { c with banError := c.banError.or (some error) }

def close (c : HandshakeClient) : HandshakeClient :=
  if c.closed then c
  else if c.handshakeComplete then { c with closed := true }
  else { c.setError .disconnectedBeforeHandshake with closed := true, banned := true }

def ban (c : HandshakeClient) (error : ClientError) : HandshakeClient :=
  { c.setError error with banned := true }.close

def sendMessage (c : HandshakeClient) (m : HandshakeMessage) : HandshakeClient :=
  { c with outbox := c.outbox ++ [m] }

def sendBlockRequest (c : HandshakeClient) (id : Hash) : HandshakeClient :=
  if c.blockPendingRequests.length < 80 then
    { c.sendMessage (.blockRequest id) with blockPendingRequests := c.blockPendingRequests ++ [id] }
  else c

def onAfterHandshake (c : HandshakeClient) (server : HandshakeServer) : HandshakeClient :=
  let c := (c.sendMessage (.listenPort server.advertisedPort.toUInt32)).sendBlockRequest zeroHash
  { c with afterHandshakes := c.afterHandshakes + 1 }

def checkHandshake (c : HandshakeClient) (server : HandshakeServer) : HandshakeClient :=
  if c.handshakeComplete && c.sentHandshakeSolution then c.onAfterHandshake server else c

def handleListenPort (c : HandshakeClient) (port : UInt32) : HandshakeClient :=
  if c.listenPort ≠ 0 then c.ban .listenPortReceived
  else if port = 0 ∨ port ≥ 65536 then c.ban (.listenPortOutOfRange port)
  else { c with listenPort := port }

variable [Crypto]

def sendSolution (c : HandshakeClient) (server : HandshakeServer) (isIncomingConnection : Bool)
    (found : UInt64 × Hash × Bool) (peerId : UInt64) : HandshakeClient :=
  let (solution, hash, ok) := found
  let c := { c with peerId }
  let c := if ok || isIncomingConnection then
      { c.sendMessage (.handshakeSolution hash solution) with sentHandshakeSolution := true }
    else c
  { c with expectedMessage := .handshakeSolution }.checkHandshake server

/-- `HANDSHAKE_CHALLENGE`, with what the search finds. -/
def onChallenge (c : HandshakeClient) (server : HandshakeServer) (isIncomingConnection : Bool)
    (found : UInt64 × Hash × Bool) (peerId : UInt64) : HandshakeClient :=
  if c.handshakeComplete then c.ban .challengeAfterHandshake
  else if peerId = server.peerId then ({ c with handshakeComplete := true }.setError .connectedToSelf).close
  else if peerId ∈ server.otherPeerIds then
    ({ c with peerId, handshakeComplete := true }.setError .alreadyConnected).close
  else c.sendSolution server isIncomingConnection found peerId

/-- `HANDSHAKE_SOLUTION`, with what the check calculates. -/
def onSolution (c : HandshakeClient) (server : HandshakeServer) (isIncomingConnection : Bool)
    (calculated : Hash × Bool) (challengeHash : Hash) : HandshakeClient :=
  if c.handshakeComplete then c.ban .solutionAfterHandshake
  else
    let (hash, ok) := calculated
    if isIncomingConnection && !ok then c.ban .notEnoughPow
    else if hash ≠ challengeHash then c.ban .wrongHash
    else { c with handshakeComplete := true }.checkHandshake server

/-- The search of an incoming connection is stopped from the start and its result is sent as it
is; `none` if the search has not returned after `fuel` rounds. -/
def handleChallenge (c : HandshakeClient) (e : Endpoints) (side : Side) (fuel : Nat) (salt : UInt64)
    (challenge : HandshakeChallenge) (peerId : UInt64) : Option HandshakeClient :=
  let search := findChallengeSolution fuel challenge e.consensusId (side.isIncomingConnection || c.closed) salt
  -- a peer that is refused is not searched for
  if c.handshakeComplete ∨ peerId = (e.server side).peerId ∨ peerId ∈ (e.server side).otherPeerIds then
    some (c.onChallenge (e.server side) side.isIncomingConnection (search.getD default) peerId)
  else search.map fun found => c.onChallenge (e.server side) side.isIncomingConnection found peerId

def handleSolution (c : HandshakeClient) (e : Endpoints) (side : Side) (challengeHash : Hash) (solution : UInt64) :
    HandshakeClient :=
  c.onSolution (e.server side) side.isIncomingConnection
    (calculateChallengeHash (e.challenge side) e.consensusId solution) challengeHash

def process (c : HandshakeClient) (e : Endpoints) (side : Side) (fuel : Nat) (salt : UInt64) :
    HandshakeMessage → Option HandshakeClient
  | .handshakeChallenge challenge peerId => c.handleChallenge e side fuel salt challenge peerId
  | .handshakeSolution challengeHash solution => some (c.handleSolution e side challengeHash solution)
  | .listenPort port => some (c.handleListenPort port)
  | .blockRequest _ => some c

def handle (c : HandshakeClient) (e : Endpoints) (side : Side) (fuel : Nat) (salt : UInt64) (m : HandshakeMessage) :
    Option HandshakeClient :=
  if c.handshakeComplete = false ∧ m.messageId ≠ c.expectedMessage then
    some (c.ban (.unexpectedPreHandshake m.messageId c.expectedMessage))
  else { c with processed := c.processed ++ [(m.messageId, c.handshakeComplete)] }.process e side fuel salt m

end HandshakeClient

/-- Both ends, and for each the messages on their way to it. -/
structure Handshake where
  client : Side → HandshakeClient
  wire : Side → List HandshakeMessage

namespace Handshake

open HandshakeClient

def start : Handshake := ⟨fun _ => .new, fun _ => []⟩

def connect (w : Handshake) (e : Endpoints) (side : Side) : Handshake :=
  let c := w.client side
  if c.connected then w
  else
    let challenge := .handshakeChallenge (e.challenge side) (e.server side).peerId
    { w with client := Function.update w.client side ({ c with connected := true }.sendMessage challenge) }

/-- The next message of the handler goes to the connection.  Once the other end is closed a
write may fail, and a failed write closes the client. -/
def write (w : Handshake) (side : Side) (fails : Bool) : Handshake :=
  let c := w.client side
  match c.closed, c.outbox with
  | false, m :: rest =>
    if fails && (w.client side.other).closed then
      { w with client := Function.update w.client side c.close }
    else
      { client := Function.update w.client side { c with outbox := rest }
        wire := Function.update w.wire side.other (w.wire side.other ++ [m]) }
  | _, _ => w

variable [Crypto]

def read (w : Handshake) (e : Endpoints) (side : Side) (fuel : Nat) (salt : UInt64) : Handshake :=
  let c := w.client side
  if c.connected && !c.closed && c.outbox.isEmpty then
    match w.wire side with
    | [] =>
      if (w.client side.other).closed then { w with client := Function.update w.client side c.close } else w
    | m :: rest =>
      match c.handle e side fuel salt m with
      | none => w
      | some c =>
        { client := Function.update w.client side c
          wire := Function.update w.wire side rest }
  else w

inductive Action where
  | connect (side : Side)
  | write (side : Side) (fails : Bool)
  | read (side : Side) (fuel : Nat) (salt : UInt64)
  deriving DecidableEq

def step (e : Endpoints) (w : Handshake) : Action → Handshake
  | .connect side => w.connect e side
  | .write side fails => w.write side fails
  | .read side fuel salt => w.read e side fuel salt

end Handshake

end P2PoolObserver
