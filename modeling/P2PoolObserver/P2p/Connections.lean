/-
# P2p.Connections -- the limits on connections (`p2p/server.go`, `Client.Close`)

The accept loop compares the number of incoming connections with the limit before it adds one.
`UpdateClientConnections` starts goroutines that compare the number of outgoing connections with
its limit, look the peer up, and only then add one to the number and dial.  A run is any sequence
of the atomic parts of these, and of closes.
-/
import P2PoolObserver.P2p.PeerList
import P2PoolObserver.Utils

namespace P2PoolObserver

open Lib

structure PeerClient (A : Type) where
  id : Nat
  address : A
  isIncomingConnection : Bool
  deriving DecidableEq

/-- How far a goroutine of `UpdateClientConnections` is: started, below the limit, not
connected, pushed to the pending connections, counted and dialling, or done. -/
inductive DialState where
  | started
  | checked
  | unconnected
  | pending
  | dialling
  | done
  deriving DecidableEq

structure Dial (A : Type) where
  address : A
  state : DialState
  deriving DecidableEq

/-- The loop of `UpdateClientConnections` that starts them. -/
structure ConnectPass (A : Type) where
  i : Int32
  n : Int
  connectedPeers : List A
  peerList : List A

structure ConnServer (A : Type) where
  useIPv4 : Bool
  useIPv6 : Bool
  maxOutgoingPeers : UInt32
  maxIncomingPeers : UInt32
  numOutgoingConnections : Int32
  numIncomingConnections : Int32
  pendingOutgoingConnections : CircularBuffer (Option A)
  clients : List (PeerClient A)
  nextId : Nat
  accepting : Option A
  pass : Option (ConnectPass A)
  dials : List (Dial A)

namespace ConnServer

section Parts

variable {A : Type} [DecidableEq A] [NetAddr A]

def new (maxOutgoingPeers maxIncomingPeers : UInt32) (useIPv4 useIPv6 : Bool) : ConnServer A where
  useIPv4
  useIPv6
  maxOutgoingPeers := min maxOutgoingPeers 450
  maxIncomingPeers := min maxIncomingPeers 450
  numOutgoingConnections := 0
  numIncomingConnections := 0
  pendingOutgoingConnections := .new (min maxOutgoingPeers 450).toNat none
  clients := []
  nextId := 0
  accepting := none
  pass := none
  dials := []

def UsesFamily (s : ConnServer A) (addr : A) : Prop :=
  ¬ (s.useIPv4 = false ∧ NetAddr.is4 (NetAddr.unmap addr) = true) ∧
    ¬ (s.useIPv6 = false ∧ NetAddr.is6 (NetAddr.unmap addr) = true)

instance (s : ConnServer A) (addr : A) : Decidable (s.UsesFamily addr) :=
  inferInstanceAs (Decidable (_ ∧ _))

def Connected (s : ConnServer A) (addr : A) : Prop := ∃ c ∈ s.clients, c.address = addr

instance (s : ConnServer A) (addr : A) : Decidable (s.Connected addr) :=
  inferInstanceAs (Decidable (∃ c ∈ s.clients, c.address = addr))

/-! ## Incoming connections -/

def accept (s : ConnServer A) (addr : A) (banned : Bool) : ConnServer A :=
  if s.accepting.isSome = true then s
  else if s.numIncomingConnections.toUInt32 > s.maxIncomingPeers then s
  else if NetAddr.isLoopback addr = true ∨ (¬ s.Connected addr ∧ s.UsesFamily addr ∧ banned = false) then
    { s with accepting := some addr }
  else s

def addIncoming (s : ConnServer A) : ConnServer A :=
  match s.accepting with
  | none => s
  | some addr =>
    { s with accepting := none
             clients := s.clients ++ [⟨s.nextId, addr, true⟩]
             nextId := s.nextId + 1
             numIncomingConnections := s.numIncomingConnections + 1 }

def close (s : ConnServer A) (c : PeerClient A) : ConnServer A :=
  if c ∈ s.clients then
    if c.isIncomingConnection then
      { s with clients := s.clients.erase c, numIncomingConnections := s.numIncomingConnections - 1 }
    else
      { s with clients := s.clients.erase c
               numOutgoingConnections := s.numOutgoingConnections - 1
               pendingOutgoingConnections := s.pendingOutgoingConnections.replace (some c.address) none }
  else s

/-! ## Outgoing connections -/

/-- The head of the loop.  Without good peers those of monerod are scanned as well, and the
bound is the number of all (`scans`). -/
def startPass (s : ConnServer A) (connectedPeers peerList : List A) (scans : Bool) : ConnServer A :=
  match s.pass with
  | some _ => s
  | none =>
    let i := s.numOutgoingConnections - s.numIncomingConnections
    let n : Int := if scans then peerList.length else s.maxOutgoingPeers.toNat
    { s with pass := some ⟨i, n, connectedPeers, peerList⟩ }

def spawn (s : ConnServer A) (k : Nat) : ConnServer A :=
  match s.pass with
  | none => s
  | some pass =>
    match pass.peerList[k]? with
    | none => s
    | some addr =>
      if pass.i.toInt < pass.n then
        if addr ∈ pass.connectedPeers then
          { s with pass := some { pass with peerList := pass.peerList.eraseIdx k } }
        else
          { s with pass := some { pass with peerList := pass.peerList.eraseIdx k, i := pass.i + 1 }
                   dials := s.dials ++ [⟨addr, .started⟩] }
      else s

def wait (s : ConnServer A) : ConnServer A :=
  match s.pass with
  | none => s
  | some pass =>
    if (¬ pass.i.toInt < pass.n ∨ pass.peerList = []) ∧ ∀ d ∈ s.dials, d.state = .done then
      { s with pass := none, dials := [] }
    else s

def advance (s : ConnServer A) (g : Nat) (state : DialState) (next : Dial A → ConnServer A) : ConnServer A :=
  match s.dials[g]? with
  | some d => if d.state = state then next d else s
  | none => s

def setDial (s : ConnServer A) (g : Nat) (d : Dial A) (state : DialState) : ConnServer A :=
  { s with dials := s.dials.set g { d with state } }

def checkLimit (s : ConnServer A) (g : Nat) : ConnServer A :=
  s.advance g .started fun d =>
    if s.numOutgoingConnections ≥ s.maxOutgoingPeers.toInt32 then s.setDial g d .done
    else s.setDial g d .checked

def lookup (s : ConnServer A) (g : Nat) (banned : Bool) : ConnServer A :=
  s.advance g .checked fun d =>
    if banned = true ∨ ¬ s.UsesFamily d.address ∨ (NetAddr.isLoopback d.address = false ∧ s.Connected d.address) then
      s.setDial g d .done
    else s.setDial g d .unconnected

def push (s : ConnServer A) (g : Nat) : ConnServer A :=
  s.advance g .unconnected fun d =>
    match s.pendingOutgoingConnections.pushUnique (some d.address) with
    | none => s.setDial g d .done
    | some pending => { s.setDial g d .pending with pendingOutgoingConnections := pending }

def count (s : ConnServer A) (g : Nat) : ConnServer A :=
  s.advance g .pending fun d =>
    { s.setDial g d .dialling with numOutgoingConnections := s.numOutgoingConnections + 1 }

def dialFails (s : ConnServer A) (g : Nat) : ConnServer A :=
  s.advance g .dialling fun d =>
    { s.setDial g d .done with
      numOutgoingConnections := s.numOutgoingConnections - 1
      pendingOutgoingConnections := s.pendingOutgoingConnections.replace (some d.address) none }

/-- Dialling succeeds, and the connection becomes a client.  Its address is parsed from the text
of the remote address, where an IPv4 address in an IPv6 one is written as the IPv4 address. -/
def dialSucceeds (s : ConnServer A) (g : Nat) : ConnServer A :=
  s.advance g .dialling fun d =>
    { s.setDial g d .done with
      clients := s.clients ++ [⟨s.nextId, NetAddr.unmap d.address, false⟩]
      nextId := s.nextId + 1 }

inductive Action (A : Type) where
  | accept (addr : A) (banned : Bool)
  | addIncoming
  | close (c : PeerClient A)
  | startPass (connectedPeers peerList : List A) (scans : Bool)
  | spawn (k : Nat)
  | wait
  | checkLimit (g : Nat)
  | lookup (g : Nat) (banned : Bool)
  | push (g : Nat)
  | count (g : Nat)
  | dialFails (g : Nat)
  | dialSucceeds (g : Nat)

def step (s : ConnServer A) : Action A → ConnServer A
  | .accept addr banned => s.accept addr banned
  | .addIncoming => s.addIncoming
  | .close c => s.close c
  | .startPass connectedPeers peerList scans => s.startPass connectedPeers peerList scans
  | .spawn k => s.spawn k
  | .wait => s.wait
  | .checkLimit g => s.checkLimit g
  | .lookup g banned => s.lookup g banned
  | .push g => s.push g
  | .count g => s.count g
  | .dialFails g => s.dialFails g
  | .dialSucceeds g => s.dialSucceeds g

end Parts

/-! ## Counting -/

section Counting

variable {A : Type}

def incoming (s : ConnServer A) : Nat := s.clients.countP fun c => c.isIncomingConnection

def outgoing (s : ConnServer A) : Nat :=
  s.clients.countP (fun c => !c.isIncomingConnection) + s.dials.countP fun d => d.state = .dialling

structure WithinLimits (s : ConnServer A) : Prop where
  incoming : s.incoming ≤ s.maxIncomingPeers.toNat
  outgoing : s.outgoing ≤ s.maxOutgoingPeers.toNat

/-- The counters are the numbers of connections they stand for. -/
structure Counted (s : ConnServer A) : Prop where
  incoming : s.numIncomingConnections = Int32.ofNat s.incoming
  outgoing : s.numOutgoingConnections = Int32.ofNat s.outgoing

def AtCount (s : ConnServer A) (g : Nat) : Prop := ∃ d, s.dials[g]? = some d ∧ d.state = .pending

def StepOk (s : ConnServer A) : Action A → Prop
  | .addIncoming => s.accepting.isSome = true → s.numIncomingConnections.toUInt32 < s.maxIncomingPeers
  | .count g => s.AtCount g → s.numOutgoingConnections < s.maxOutgoingPeers.toInt32
  | _ => True

def SmallLimits (s : ConnServer A) : Prop := s.maxIncomingPeers.toNat ≤ 450 ∧ s.maxOutgoingPeers.toNat ≤ 450

/-- What a step changes: the numbers of connections, their counters alike, and no limit. -/
structure Moves (s t : ConnServer A) (i o : Int) : Prop where
  incoming : (t.incoming : Int) = s.incoming + i
  outgoing : (t.outgoing : Int) = s.outgoing + o
  numIncoming : t.numIncomingConnections = s.numIncomingConnections + Int32.ofInt i
  numOutgoing : t.numOutgoingConnections = s.numOutgoingConnections + Int32.ofInt o
  maxIncoming : t.maxIncomingPeers = s.maxIncomingPeers
  maxOutgoing : t.maxOutgoingPeers = s.maxOutgoingPeers

theorem Moves.refl (s : ConnServer A) : Moves s s 0 0 := by
  constructor <;> simp

theorem Moves.of_dials {s t : ConnServer A} (clients : t.clients = s.clients)
    (dials : (t.dials.countP fun d => d.state = .dialling) = s.dials.countP fun d => d.state = .dialling)
    (numIncoming : t.numIncomingConnections = s.numIncomingConnections)
    (numOutgoing : t.numOutgoingConnections = s.numOutgoingConnections)
    (maxIncoming : t.maxIncomingPeers = s.maxIncomingPeers)
    (maxOutgoing : t.maxOutgoingPeers = s.maxOutgoingPeers) : Moves s t 0 0 where
  incoming := by simp [ConnServer.incoming, clients]
  outgoing := by simp [ConnServer.outgoing, clients, dials]
  numIncoming := by simp [numIncoming]
  numOutgoing := by simp [numOutgoing]
  maxIncoming := maxIncoming
  maxOutgoing := maxOutgoing

theorem incoming_lt_iff {s : ConnServer A} (counted : s.Counted) (within : s.WithinLimits) (small : s.SmallLimits) :
    s.numIncomingConnections.toUInt32 < s.maxIncomingPeers ↔ s.incoming < s.maxIncomingPeers.toNat := by
  have bound := within.incoming.trans small.1
  rw [counted.incoming, Int32.toUInt32_ofNat', UInt32.lt_iff_toNat_lt, UInt32.toNat_ofNat',
    Nat.mod_eq_of_lt (by omega)]

theorem outgoing_lt_iff {s : ConnServer A} (counted : s.Counted) (within : s.WithinLimits) (small : s.SmallLimits) :
    s.numOutgoingConnections < s.maxOutgoingPeers.toInt32 ↔ s.outgoing < s.maxOutgoingPeers.toNat := by
  have bound := within.outgoing.trans small.2
  have limit : s.maxOutgoingPeers.toInt32 = Int32.ofNat s.maxOutgoingPeers.toNat := by
    rw [← UInt32.toInt32_ofNat', UInt32.ofNat_toNat]
  rw [counted.outgoing, limit, Int32.lt_iff_toInt_lt, Int32.toInt_ofNat_of_lt (by omega),
    Int32.toInt_ofNat_of_lt (by have := small.2; omega)]
  exact Int.ofNat_lt

theorem countP_setDial {s : ConnServer A} {g : Nat} {d : Dial A} (found : s.dials[g]? = some d)
    (state : DialState) :
    ((s.setDial g d state).dials.countP fun d => d.state = .dialling) +
        (if d.state = .dialling then 1 else 0) =
      (s.dials.countP fun d => d.state = .dialling) + if state = .dialling then 1 else 0 := by
  obtain ⟨inside, at_⟩ := List.getElem?_eq_some_iff.mp found
  have counted := List.countP_set (p := fun d : Dial A => d.state = .dialling) (a := { d with state }) inside
  rw [at_] at counted
  by_cases dialling : d.state = .dialling
  · have there : 0 < s.dials.countP fun d => d.state = .dialling :=
      List.countP_pos_iff.mpr ⟨d, at_ ▸ List.getElem_mem inside, by simpa using dialling⟩
    simp only [dialling, decide_true, if_true, decide_eq_true_eq] at counted ⊢
    rw [setDial, counted]
    omega
  · simp only [dialling, decide_false, Bool.false_eq_true, if_false, decide_eq_true_eq] at counted ⊢
    rw [setDial, counted]
    omega

theorem Moves.setDial {s t : ConnServer A} {g : Nat} {d : Dial A} (found : s.dials[g]? = some d)
    {state : DialState} (before : d.state ≠ .dialling) (after : state ≠ .dialling)
    (dials : t.dials = (s.setDial g d state).dials) (clients : t.clients = s.clients)
    (numIncoming : t.numIncomingConnections = s.numIncomingConnections)
    (numOutgoing : t.numOutgoingConnections = s.numOutgoingConnections)
    (maxIncoming : t.maxIncomingPeers = s.maxIncomingPeers)
    (maxOutgoing : t.maxOutgoingPeers = s.maxOutgoingPeers) : Moves s t 0 0 := by
  refine .of_dials clients ?_ numIncoming numOutgoing maxIncoming maxOutgoing
  have counted := countP_setDial found state
  rw [if_neg before, if_neg after] at counted
  rw [dials]
  exact counted

end Counting

section Steps

variable {A : Type} [DecidableEq A] [NetAddr A] {s : ConnServer A}

omit [DecidableEq A] [NetAddr A] in
theorem advance_cases (s : ConnServer A) (g : Nat) (state : DialState) (next : Dial A → ConnServer A) :
    s.advance g state next = s ∨
      ∃ d, s.dials[g]? = some d ∧ d.state = state ∧ s.advance g state next = next d := by
  unfold advance
  cases found : s.dials[g]? with
  | none => exact .inl rfl
  | some d =>
    dsimp only
    split_ifs with here
    · exact .inr ⟨d, rfl, here, rfl⟩
    · exact .inl rfl

theorem moves_accept (addr : A) (banned : Bool) : Moves s (s.accept addr banned) 0 0 := by
  unfold accept
  split_ifs
  · exact .refl s
  · exact .refl s
  · exact .of_dials rfl rfl rfl rfl rfl rfl
  · exact .refl s

omit [DecidableEq A] [NetAddr A] in
theorem moves_addIncoming (waiting : s.accepting.isSome = true) : Moves s s.addIncoming 1 0 := by
  obtain ⟨addr, some⟩ := Option.isSome_iff_exists.mp waiting
  unfold addIncoming
  rw [some]
  constructor <;> simp [incoming, outgoing]

theorem sub_one_eq (x : Int32) : x - 1 = x + Int32.ofInt (-1) := by grind

omit [NetAddr A] in
theorem moves_close (c : PeerClient A) : ∃ i o, Moves s (s.close c) i o ∧ i ≤ 0 ∧ o ≤ 0 := by
  unfold close
  split_ifs with listed direction
  · refine ⟨-1, 0, ⟨?_, ?_, ?_, ?_, rfl, rfl⟩, by decide, by decide⟩
    · have there : 0 < s.clients.countP fun c => c.isIncomingConnection :=
        List.countP_pos_iff.mpr ⟨c, listed, direction⟩
      simp only [incoming, List.countP_erase, listed, direction, and_self, if_true]
      omega
    · simp [outgoing, List.countP_erase, direction]
    · exact sub_one_eq _
    · simp
  · refine ⟨0, -1, ⟨?_, ?_, ?_, ?_, rfl, rfl⟩, by decide, by decide⟩
    · simp [incoming, List.countP_erase, direction]
    · have there : 0 < s.clients.countP fun c => !c.isIncomingConnection :=
        List.countP_pos_iff.mpr ⟨c, listed, by simpa using direction⟩
      have erased := List.countP_erase (fun c => !c.isIncomingConnection) s.clients c
      rw [if_pos ⟨listed, by simpa using direction⟩] at erased
      simp only [outgoing, erased]
      omega
    · simp
    · exact sub_one_eq _
  · exact ⟨0, 0, .refl s, le_rfl, le_rfl⟩

omit [DecidableEq A] [NetAddr A] in
theorem moves_startPass (connectedPeers peerList : List A) (scans : Bool) :
    Moves s (s.startPass connectedPeers peerList scans) 0 0 := by
  unfold startPass
  split
  · exact .refl s
  · exact .of_dials rfl rfl rfl rfl rfl rfl

omit [NetAddr A] in
theorem moves_spawn (k : Nat) : Moves s (s.spawn k) 0 0 := by
  unfold spawn
  split
  · exact .refl s
  · split
    · exact .refl s
    · split_ifs
      · exact .of_dials rfl rfl rfl rfl rfl rfl
      · refine .of_dials rfl ?_ rfl rfl rfl rfl
        simp
      · exact .refl s

omit [DecidableEq A] [NetAddr A] in
theorem moves_wait : Moves s s.wait 0 0 := by
  unfold wait
  split
  · exact .refl s
  · split_ifs with finished
    · refine .of_dials rfl ?_ rfl rfl rfl rfl
      have idle : (s.dials.countP fun d => d.state = .dialling) = 0 :=
        List.countP_eq_zero.mpr fun d mem => by simp [finished.2 d mem]
      rw [idle]
      rfl
    · exact .refl s

omit [DecidableEq A] [NetAddr A] in
theorem moves_checkLimit (g : Nat) : Moves s (s.checkLimit g) 0 0 := by
  unfold checkLimit
  rcases advance_cases s g .started _ with same | ⟨d, found, here, stepped⟩
  · rw [same]
    exact .refl s
  · rw [stepped]
    split_ifs
    · exact .setDial found (by simp [here]) (by decide) rfl rfl rfl rfl rfl rfl
    · exact .setDial found (by simp [here]) (by decide) rfl rfl rfl rfl rfl rfl

theorem moves_lookup (g : Nat) (banned : Bool) : Moves s (s.lookup g banned) 0 0 := by
  unfold lookup
  rcases advance_cases s g .checked _ with same | ⟨d, found, here, stepped⟩
  · rw [same]
    exact .refl s
  · rw [stepped]
    split_ifs
    · exact .setDial found (by simp [here]) (by decide) rfl rfl rfl rfl rfl rfl
    · exact .setDial found (by simp [here]) (by decide) rfl rfl rfl rfl rfl rfl

omit [NetAddr A] in
theorem moves_push (g : Nat) : Moves s (s.push g) 0 0 := by
  unfold push
  rcases advance_cases s g .unconnected _ with same | ⟨d, found, here, stepped⟩
  · rw [same]
    exact .refl s
  · rw [stepped]
    split
    · exact .setDial found (by simp [here]) (by decide) rfl rfl rfl rfl rfl rfl
    · exact .setDial found (by simp [here]) (by decide) rfl rfl rfl rfl rfl rfl

omit [DecidableEq A] [NetAddr A] in
theorem moves_count {g : Nat} (pending : s.AtCount g) : Moves s (s.count g) 0 1 := by
  obtain ⟨d, found, here⟩ := pending
  have counted := countP_setDial found .dialling
  rw [if_neg (by simp [here]), if_pos rfl, Nat.add_zero] at counted
  unfold count advance
  rw [found]
  dsimp only
  rw [if_pos here]
  refine ⟨?_, ?_, ?_, rfl, rfl, rfl⟩
  · simp [incoming, setDial]
  · simp only [outgoing, setDial] at counted ⊢
    omega
  · simp [setDial]

omit [NetAddr A] in
theorem moves_dialFails (g : Nat) : ∃ o, Moves s (s.dialFails g) 0 o ∧ o ≤ 0 := by
  unfold dialFails
  rcases advance_cases s g .dialling _ with same | ⟨d, found, here, stepped⟩
  · rw [same]
    exact ⟨0, .refl s, le_rfl⟩
  · rw [stepped]
    have counted := countP_setDial found .done
    rw [if_pos here, if_neg (by decide)] at counted
    refine ⟨-1, ⟨?_, ?_, ?_, sub_one_eq _, rfl, rfl⟩, by decide⟩
    · simp [incoming, setDial]
    · simp only [outgoing, setDial] at counted ⊢
      omega
    · simp [setDial]

omit [DecidableEq A] in
theorem moves_dialSucceeds (g : Nat) : Moves s (s.dialSucceeds g) 0 0 := by
  unfold dialSucceeds
  rcases advance_cases s g .dialling _ with same | ⟨d, found, here, stepped⟩
  · rw [same]
    exact .refl s
  · rw [stepped]
    have counted := countP_setDial found .done
    rw [if_pos here, if_neg (by decide)] at counted
    refine ⟨?_, ?_, ?_, ?_, rfl, rfl⟩
    · simp [incoming]
    · have one : ([⟨s.nextId, NetAddr.unmap d.address, false⟩] : List (PeerClient A)).countP
          (fun c => !c.isIncomingConnection) = 1 := rfl
      simp only [outgoing, setDial, List.countP_append, one] at counted ⊢
      omega
    · simp [setDial]
    · simp [setDial]

/-- A step adds an incoming connection, adds an outgoing one, or adds none; what it changes
is counted. -/
theorem moves_step (s : ConnServer A) (a : Action A) : ∃ i o, Moves s (s.step a) i o ∧
    ((i = 1 ∧ o = 0 ∧ (s.StepOk a ↔ s.numIncomingConnections.toUInt32 < s.maxIncomingPeers)) ∨
      (i = 0 ∧ o = 1 ∧ (s.StepOk a ↔ s.numOutgoingConnections < s.maxOutgoingPeers.toInt32)) ∨
      (i ≤ 0 ∧ o ≤ 0 ∧ s.StepOk a)) := by
  have quiet : ∀ t, Moves s t 0 0 → s.StepOk a → ∃ i o, Moves s t i o ∧
      ((i = 1 ∧ o = 0 ∧ (s.StepOk a ↔ s.numIncomingConnections.toUInt32 < s.maxIncomingPeers)) ∨
        (i = 0 ∧ o = 1 ∧ (s.StepOk a ↔ s.numOutgoingConnections < s.maxOutgoingPeers.toInt32)) ∨
        (i ≤ 0 ∧ o ≤ 0 ∧ s.StepOk a)) :=
    fun t moves ok => ⟨0, 0, moves, .inr (.inr ⟨le_rfl, le_rfl, ok⟩)⟩
  cases a with
  | accept addr banned => exact quiet _ (moves_accept addr banned) trivial
  | addIncoming =>
    by_cases waiting : s.accepting.isSome = true
    · exact ⟨1, 0, moves_addIncoming waiting, .inl ⟨rfl, rfl, ⟨fun ok => ok waiting, fun below _ => below⟩⟩⟩
    · have none : s.addIncoming = s := by
        rw [addIncoming, Option.not_isSome_iff_eq_none.mp waiting]
      exact quiet _ (by rw [step, none]; exact .refl s) fun some => absurd some waiting
  | close c =>
    obtain ⟨i, o, moves, incoming, outgoing⟩ := moves_close (s := s) c
    exact ⟨i, o, moves, .inr (.inr ⟨incoming, outgoing, trivial⟩)⟩
  | startPass connectedPeers peerList scans =>
    exact quiet _ (moves_startPass connectedPeers peerList scans) trivial
  | spawn k => exact quiet _ (moves_spawn k) trivial
  | wait => exact quiet _ moves_wait trivial
  | checkLimit g => exact quiet _ (moves_checkLimit g) trivial
  | lookup g banned => exact quiet _ (moves_lookup g banned) trivial
  | push g => exact quiet _ (moves_push g) trivial
  | count g =>
    by_cases pending : s.AtCount g
    · exact ⟨0, 1, moves_count pending, .inr (.inl ⟨rfl, rfl, ⟨fun ok => ok pending, fun below _ => below⟩⟩)⟩
    · refine quiet _ ?_ fun some => absurd some pending
      rcases advance_cases s g .pending _ with same | ⟨d, found, here, -⟩
      · rw [step, count, same]
        exact .refl s
      · exact absurd ⟨d, found, here⟩ pending
  | dialFails g =>
    obtain ⟨o, moves, outgoing⟩ := moves_dialFails (s := s) g
    exact ⟨0, o, moves, .inr (.inr ⟨le_rfl, outgoing, trivial⟩)⟩
  | dialSucceeds g => exact quiet _ (moves_dialSucceeds g) trivial

/-! ## Runs -/

theorem counted_step (counted : s.Counted) (a : Action A) : (s.step a).Counted := by
  obtain ⟨i, o, moves, -⟩ := moves_step s a
  constructor
  · rw [moves.numIncoming, counted.incoming, ← Int32.ofInt_eq_ofNat, ← Int32.ofInt_eq_ofNat, moves.incoming,
      Int32.ofInt_add]
  · rw [moves.numOutgoing, counted.outgoing, ← Int32.ofInt_eq_ofNat, ← Int32.ofInt_eq_ofNat, moves.outgoing,
      Int32.ofInt_add]

theorem withinLimits_step_iff (counted : s.Counted) (small : s.SmallLimits) (within : s.WithinLimits)
    (a : Action A) : (s.step a).WithinLimits ↔ s.StepOk a := by
  obtain ⟨i, o, moves, kinds⟩ := moves_step s a
  have incoming := moves.incoming
  have outgoing := moves.outgoing
  have before := And.intro within.incoming within.outgoing
  have limits : (s.step a).WithinLimits ↔ (s.step a).incoming ≤ s.maxIncomingPeers.toNat ∧
      (s.step a).outgoing ≤ s.maxOutgoingPeers.toNat := by
    rw [← moves.maxIncoming, ← moves.maxOutgoing]
    exact ⟨fun w => ⟨w.incoming, w.outgoing⟩, fun ⟨i, o⟩ => ⟨i, o⟩⟩
  rw [limits]
  rcases kinds with ⟨rfl, rfl, ok⟩ | ⟨rfl, rfl, ok⟩ | ⟨fewer, fewer', ok⟩
  · rw [ok, incoming_lt_iff counted within small]
    omega
  · rw [ok, outgoing_lt_iff counted within small]
    omega
  · exact iff_of_true (by omega) ok

theorem smallLimits_step (small : s.SmallLimits) (a : Action A) : (s.step a).SmallLimits := by
  obtain ⟨i, o, moves, -⟩ := moves_step s a
  rwa [SmallLimits, moves.maxIncoming, moves.maxOutgoing]

theorem toNat_min_le (x : UInt32) : (min x 450).toNat ≤ 450 := by
  change (if x ≤ 450 then x else 450).toNat ≤ 450
  split_ifs with small
  · exact UInt32.le_iff_toNat_le.mp small
  · exact le_rfl

/-- In every run the limits hold after each step exactly if, wherever a connection is added,
its counter is still below the limit. -/
theorem limits_hold_iff (maxOutgoingPeers maxIncomingPeers : UInt32) (useIPv4 useIPv6 : Bool)
    (actions : List (Action A)) :
    EachStep step (fun s a => (s.step a).WithinLimits)
        (new maxOutgoingPeers maxIncomingPeers useIPv4 useIPv6) actions ↔
      EachStep step StepOk (new maxOutgoingPeers maxIncomingPeers useIPv4 useIPv6) actions := by
  refine eachStep_iff (I := fun s => s.Counted ∧ s.SmallLimits ∧ s.WithinLimits) ?_ ?_ actions
    ⟨⟨rfl, rfl⟩, ⟨?_, ?_⟩, ⟨Nat.zero_le _, Nat.zero_le _⟩⟩
  · intro s a ⟨counted, small, _⟩ after
    exact ⟨counted_step counted a, smallLimits_step small a, after⟩
  · intro s a ⟨counted, small, within⟩
    exact withinLimits_step_iff counted small within a
  · exact toNat_min_le maxIncomingPeers
  · exact toNat_min_le maxOutgoingPeers

/-- One incoming and one outgoing connection are allowed.  The accept loop lets a second
connection in, because it refuses only above the limit.  With one incoming connection two
goroutines are started, both find no outgoing connection, and both are counted. -/
theorem limits_exceeded :
    (([.accept 1 false, .addIncoming, .accept 2 false, .addIncoming] : List (Action Nat)).foldl
      (@step Nat _ PeerRun.LostUpdate.numbers) (new 1 1 true true)).incoming = 2 ∧
    (([.accept 9 false, .addIncoming, .startPass [9] [1, 2] false, .spawn 0, .spawn 0, .checkLimit 0, .checkLimit 1,
        .lookup 0 false, .lookup 1 false, .push 0, .push 1, .count 0, .count 1] : List (Action Nat)).foldl
      (@step Nat _ PeerRun.LostUpdate.numbers) (new 1 1 true true)).outgoing = 2 := by
  decide +kernel

end Steps

end ConnServer

end P2PoolObserver
