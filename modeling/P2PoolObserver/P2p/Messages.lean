/-
# P2p.Messages -- messages between peers (`p2p/messages.go`, `p2p/client.go`)
-/
import P2PoolObserver.Types

namespace P2PoolObserver

open Lib

/-- `MessageId`; on the wire one byte, in the order of the declaration. -/
inductive MessageId where
  | handshakeChallenge
  | handshakeSolution
  | listenPort
  | blockRequest
  | blockResponse
  | blockBroadcast
  | peerListRequest
  | peerListResponse
  | blockBroadcastCompact
  | blockNotify
  | internal
  deriving DecidableEq, Inhabited

namespace MessageId

def toByte : MessageId → UInt8
  | handshakeChallenge => 0
  | handshakeSolution => 1
  | listenPort => 2
  | blockRequest => 3
  | blockResponse => 4
  | blockBroadcast => 5
  | peerListRequest => 6
  | peerListResponse => 7
  | blockBroadcastCompact => 8
  | blockNotify => 9
  | internal => 0xff

def ofByte (b : UInt8) : Option MessageId :=
  if b = 0 then some handshakeChallenge
  else if b = 1 then some handshakeSolution
  else if b = 2 then some listenPort
  else if b = 3 then some blockRequest
  else if b = 4 then some blockResponse
  else if b = 5 then some blockBroadcast
  else if b = 6 then some peerListRequest
  else if b = 7 then some peerListResponse
  else if b = 8 then some blockBroadcastCompact
  else if b = 9 then some blockNotify
  else if b = 0xff then some internal
  else none

theorem ofByte_toByte (m : MessageId) : ofByte m.toByte = some m := by
  cases m <;> rfl

end MessageId

structure ClientMessage where
  messageId : MessageId
  buffer : Bytes
  deriving DecidableEq

def maxBufferSize : Nat := 128 * 1024

/-- `SendMessage` on an open connection: the bytes it writes, or the peer is disconnected. -/
def sendMessage (message : ClientMessage) : Option Bytes :=
  if message.buffer.length + 1 > maxBufferSize then none
  else some (message.messageId.toByte :: message.buffer)

end P2PoolObserver
