/-
# P2p.HandshakeAgreement -- two honest ends agree

What an end does follows a short script, and how far it is decides its whole state
(`Stage`, `state`).

* `proceeds_step`: a connect, write or read that changes anything leads from stages to stages,
  with less left to do.
* `handshake_agrees`: what the stages say of every run.
-/
import P2PoolObserver.P2p.Handshake
import P2PoolObserver.Lib.Trace

namespace P2PoolObserver

open Lib

namespace Handshake

open HandshakeClient

variable [Crypto]

/-! ## Stages -/

/-- How far an end is: not connected, its challenge sent, the challenge of the other end
answered, the answer of the other end accepted, its port stored or refused, its request read. -/
inductive Stage where
  | idle
  | connected
  | answered (solution : UInt64)
  | complete (solution : UInt64)
  | listening (solution : UInt64)
  | refused (solution : UInt64)
  | requested (solution : UInt64)
  deriving DecidableEq

namespace Stage

def received : Stage → Nat
  | idle | connected => 0
  | answered _ => 1
  | complete _ => 2
  | listening _ | refused _ => 3
  | requested _ => 4

def solution : Stage → Option UInt64
  | idle | connected => none
  | answered s | complete s | listening s | refused s | requested s => some s

end Stage

section Script

variable (e : Endpoints) (side : Side)

def challengeMessage : HandshakeMessage := .handshakeChallenge (e.challenge side) (e.server side).peerId

def solutionMessage (solution : UInt64) : HandshakeMessage :=
  .handshakeSolution (calculateChallengeHash (e.challenge side.other) e.consensusId solution).1 solution

def portMessage : HandshakeMessage := .listenPort (e.server side).advertisedPort.toUInt32

def tipMessage : HandshakeMessage := .blockRequest zeroHash

def script : Stage → List HandshakeMessage
  | .idle => []
  | .connected => [challengeMessage e side]
  | .answered s => [challengeMessage e side, solutionMessage e side s]
  | .complete s | .listening s | .refused s | .requested s =>
    [challengeMessage e side, solutionMessage e side s, portMessage e side, tipMessage]

def answeredClient : HandshakeClient :=
  { HandshakeClient.new with
    connected := true
    peerId := (e.server side.other).peerId
    sentHandshakeSolution := true
    expectedMessage := .handshakeSolution
    processed := [(.handshakeChallenge, false)] }

def completeClient : HandshakeClient :=
  { answeredClient e side with
    handshakeComplete := true
    blockPendingRequests := [zeroHash]
    afterHandshakes := 1
    processed := [(.handshakeChallenge, false), (.handshakeSolution, false)] }

def listeningClient : HandshakeClient :=
  { completeClient e side with
    listenPort := (e.server side.other).advertisedPort.toUInt32
    processed := [(.handshakeChallenge, false), (.handshakeSolution, false), (.listenPort, true)] }

/-- The client of an end at a stage, but for what it still has to write and for a close. -/
def state : Stage → HandshakeClient
  | .idle => .new
  | .connected => { HandshakeClient.new with connected := true }
  | .answered _ => answeredClient e side
  | .complete _ => completeClient e side
  | .listening _ => listeningClient e side
  | .refused _ =>
    { completeClient e side with
      banError := some (.listenPortOutOfRange 0)
      banned := true
      processed := [(.handshakeChallenge, false), (.handshakeSolution, false), (.listenPort, true)] }
  | .requested _ =>
    { listeningClient e side with
      processed :=
        [(.handshakeChallenge, false), (.handshakeSolution, false), (.listenPort, true), (.blockRequest, true)] }

def clientAt (t : Stage) (outbox : List HandshakeMessage) (closed : Bool) : HandshakeClient :=
  { state e side t with outbox, closed }

omit [Crypto] in
theorem handshakeComplete_state (t : Stage) : (state e side t).handshakeComplete = decide (2 ≤ t.received) := by
  cases t <;> rfl

omit [Crypto] in
theorem afterHandshakes_state (t : Stage) : (state e side t).afterHandshakes = if 2 ≤ t.received then 1 else 0 := by
  cases t <;> rfl

omit [Crypto] in
theorem processed_state (t : Stage) :
    ∀ p ∈ (state e side t).processed, p.1 = .listenPort ∨ p.1 = .blockRequest → p.2 = true := by
  cases t <;> simp [state, HandshakeClient.new, answeredClient, completeClient, listeningClient]

omit [Crypto] in
theorem banned_state {t : Stage} (banned : (state e side t).banned = true) :
    (∃ s, t = .refused s) ∧ (state e side t).banError = some (.listenPortOutOfRange 0) := by
  cases t with
  | refused s => exact ⟨⟨s, rfl⟩, rfl⟩
  | _ => nomatch banned

omit [Crypto] in
theorem connected_state (t : Stage) : (state e side t).connected = decide (t ≠ .idle) := by
  cases t <;> rfl

end Script

/-- Both ends are at a stage, and what one has sent by its script is read, on the wire or still in
its outbox. -/
structure Follows (e : Endpoints) (w : Handshake) (stage : Side → Stage) : Prop where
  client : ∀ x, w.client x = clientAt e x (stage x) (w.client x).outbox (w.client x).closed
  flow : ∀ x, (script e x (stage x)).drop (stage x.other).received = w.wire x.other ++ (w.client x).outbox
  bound : ∀ x, (stage x.other).received ≤ (script e x (stage x)).length
  work : ∀ s, (stage .outgoing).solution = some s →
    (calculateChallengeHash (e.challenge .incoming) e.consensusId s).2 = true
  ended : ∀ x, (w.client x).closed = true → ∀ y, 2 ≤ (stage y).received
  refused : ∀ x s, stage x = .refused s → (w.client x).closed = true ∧ (e.server x.other).advertisedPort = 0

variable {e : Endpoints} {w : Handshake} {stage : Side → Stage}

theorem follows_start : Follows e start fun _ => .idle where
  client _ := rfl
  flow _ := rfl
  bound _ := Nat.le_refl 0
  work := nofun
  ended := nofun
  refused := nofun

/-- The connect and the close that an end has before it. -/
def pending (c : HandshakeClient) : Nat := (if c.connected then 0 else 1) + (if c.closed then 0 else 1)

/-- What an end has before it: these, the messages to read and the messages to write. -/
def remaining (w : Handshake) (stage : Side → Stage) (x : Side) : Nat :=
  pending (w.client x) + (4 - (stage x).received) + (4 - ((stage x.other).received + (w.wire x.other).length))

def rank (w : Handshake) (stage : Side → Stage) : Nat := remaining w stage .incoming + remaining w stage .outgoing

/-- Nothing changes, or both ends are at stages again and have less before them. -/
def Proceeds (e : Endpoints) (w : Handshake) (stage : Side → Stage) (w' : Handshake) : Prop :=
  w' = w ∨ ∃ stage', Follows e w' stage' ∧ rank w' stage' < rank w stage

omit [Crypto] in
theorem rank_eq (w : Handshake) (stage : Side → Stage) (x : Side) :
    rank w stage = remaining w stage x + remaining w stage x.other := by
  cases x with
  | incoming => rfl
  | outgoing => exact Nat.add_comm _ _

/-! ## One end goes on -/

omit [Crypto] in
theorem rank_advance (stage : Side → Stage) {x : Side} {t : Stage} {c : HandshakeClient}
    (taken rest : List HandshakeMessage) (reads : w.wire x = taken ++ rest) (received : t.received = (stage x).received + taken.length)
    (less : pending c + (4 - t.received) < pending (w.client x) + (4 - (stage x).received)) :
    rank ⟨Function.update w.client x c, Function.update w.wire x rest⟩ (Function.update stage x t) < rank w stage := by
  have length := congrArg List.length reads
  rw [List.length_append] at length
  rw [rank_eq _ _ x, rank_eq _ _ x]
  simp only [remaining, Side.other_other, Function.update_self, Side.update_other]
  omega

theorem Follows.advance (follows : Follows e w stage) {x : Side} {t : Stage} {c : HandshakeClient}
    (taken rest added : List HandshakeMessage) (reads : w.wire x = taken ++ rest)
    (received : t.received = (stage x).received + taken.length) (sends : script e x t = script e x (stage x) ++ added)
    (client : c = clientAt e x t ((w.client x).outbox ++ added) c.closed)
    (work : x = .outgoing → ∀ s, t.solution = some s →
      (calculateChallengeHash (e.challenge .incoming) e.consensusId s).2 = true)
    (ended : c.closed = true → 2 ≤ t.received ∧ 2 ≤ (stage x.other).received)
    (refused : ∀ s, t = .refused s → c.closed = true ∧ (e.server x.other).advertisedPort = 0) :
    Follows e ⟨Function.update w.client x c, Function.update w.wire x rest⟩ (Function.update stage x t) := by
  have outbox : c.outbox = (w.client x).outbox ++ added := by
    rw [client]
    rfl
  have other := follows.flow x.other
  rw [Side.other_other, reads, List.append_assoc] at other
  have room : t.received ≤ (script e x.other (stage x.other)).length := by
    have length := congrArg List.length other
    rw [List.length_drop, List.length_append] at length
    have bound := follows.bound x.other
    rw [Side.other_other] at bound
    omega
  constructor
  · intro y
    rcases x.eq_or_eq_other y with rfl | rfl
    · simp only [Function.update_self]
      rw [outbox]
      exact client
    · simp only [Side.update_other]
      exact follows.client x.other
  · intro y
    rcases x.eq_or_eq_other y with rfl | rfl
    · simp only [Function.update_self, Side.update_other]
      rw [sends, List.drop_append_of_le_length (follows.bound y), follows.flow y, outbox, List.append_assoc]
    · simp only [Side.other_other, Function.update_self, Side.update_other]
      rw [received, ← List.drop_drop, other, List.drop_left]
  · intro y
    rcases x.eq_or_eq_other y with rfl | rfl
    · simp only [Function.update_self, Side.update_other]
      rw [sends, List.length_append]
      exact Nat.le_add_right_of_le (follows.bound y)
    · simp only [Side.other_other, Function.update_self, Side.update_other]
      exact room
  · intro s found
    cases x with
    | incoming => exact follows.work s found
    | outgoing => exact work rfl s found
  · intro y closed z
    have both : 2 ≤ t.received ∧ 2 ≤ (stage x.other).received := by
      rcases x.eq_or_eq_other y with rfl | rfl
      · simp only [Function.update_self] at closed
        exact ended closed
      · simp only [Side.update_other] at closed
        have past := follows.ended x.other closed
        exact ⟨received ▸ Nat.le_add_right_of_le (past x), past x.other⟩
    rcases x.eq_or_eq_other z with rfl | rfl
    · simp only [Function.update_self]
      exact both.1
    · simp only [Side.update_other]
      exact both.2
  · intro y s found
    rcases x.eq_or_eq_other y with rfl | rfl
    · simp only [Function.update_self] at found ⊢
      exact refused s found
    · simp only [Side.update_other] at found ⊢
      exact follows.refused x.other s found

theorem proceeds_connect (follows : Follows e w stage) (x : Side) : Proceeds e w stage (w.connect e x) := by
  have here := follows.client x
  unfold connect
  dsimp only
  split_ifs with before
  · exact .inl rfl
  · have idle : stage x = .idle := by
      rw [here] at before
      change ¬ (state e x (stage x)).connected = true at before
      rw [connected_state] at before
      exact not_not.mp fun moved => before (decide_eq_true moved)
    rw [idle] at here
    have opened : (w.client x).closed ≠ true := by
      intro closed
      have past := follows.ended x closed x
      rw [idle] at past
      exact absurd past (by decide)
    have less := rank_advance stage (w := w) (x := x) (t := .connected) [] (w.wire x)
      (c := { w.client x with connected := true }.sendMessage (challengeMessage e x)) rfl (by rw [idle]; rfl)
      (by rw [idle]; simp [pending, before, opened, HandshakeClient.sendMessage, Stage.received])
    refine .inr ⟨Function.update stage x .connected, ?_⟩
    have after := follows.advance (x := x) (t := .connected) [] (w.wire x) [challengeMessage e x]
      (c := { w.client x with connected := true }.sendMessage (challengeMessage e x)) rfl (by rw [idle]; rfl)
      (by rw [idle]; rfl) (by rw [here]; rfl) nofun
      (fun closed : (w.client x).closed = true => absurd closed opened) nofun
    rw [Function.update_eq_self] at after less
    exact ⟨after, less⟩

theorem Follows.hangUp (follows : Follows e w stage) {x : Side} (opened : (w.client x).closed = false)
    (ended : (w.client x.other).closed = true) :
    Proceeds e w stage { w with client := Function.update w.client x (w.client x).close } := by
  have past := follows.ended x.other ended
  have here := follows.client x
  have complete : (w.client x).handshakeComplete = true := by
    rw [here]
    exact (handshakeComplete_state e x (stage x)).trans (decide_eq_true (past x))
  have closes : (w.client x).close = { w.client x with closed := true } := by
    unfold HandshakeClient.close
    rw [if_neg (by rw [opened]; nofun), if_pos complete]
  have after := follows.advance (x := x) (t := stage x) [] (w.wire x) []
    (c := { w.client x with closed := true }) rfl rfl (List.append_nil _).symm
    (by rw [List.append_nil, here]; rfl) (by rintro rfl; exact follows.work) (fun _ => ⟨past x, past x.other⟩)
    (fun s found => ⟨rfl, (follows.refused x s found).2⟩)
  have less := rank_advance stage (w := w) (x := x) (t := stage x) [] (w.wire x)
    (c := { w.client x with closed := true }) rfl rfl (by simp [pending, opened])
  rw [Function.update_eq_self, Function.update_eq_self, ← closes] at after less
  exact .inr ⟨stage, after, less⟩

theorem Follows.send (follows : Follows e w stage) {x : Side} {m : HandshakeMessage} {rest : List HandshakeMessage}
    (outbox : (w.client x).outbox = m :: rest) :
    Follows e ⟨Function.update w.client x { w.client x with outbox := rest },
      Function.update w.wire x.other (w.wire x.other ++ [m])⟩ stage := by
  refine ⟨?_, ?_, follows.bound, follows.work, ?_, ?_⟩
  · intro y
    rcases x.eq_or_eq_other y with rfl | rfl
    · simp only [Function.update_self]
      rw [follows.client y]
      rfl
    · simp only [Side.update_other]
      exact follows.client x.other
  · intro y
    rcases x.eq_or_eq_other y with rfl | rfl
    · simp only [Function.update_self]
      rw [follows.flow y, outbox, List.append_assoc]
      rfl
    · have apart : Function.update w.wire x.other (w.wire x.other ++ [m]) x = w.wire x :=
        Function.update_of_ne x.other_ne.symm _ _
      have flow := follows.flow x.other
      rw [Side.other_other] at flow ⊢
      dsimp only
      rw [apart, Side.update_other, flow]
  · intro y closed
    rcases x.eq_or_eq_other y with rfl | rfl
    · simp only [Function.update_self] at closed
      exact follows.ended y closed
    · simp only [Side.update_other] at closed
      exact follows.ended x.other closed
  · intro y s found
    rcases x.eq_or_eq_other y with rfl | rfl
    · simp only [Function.update_self]
      exact follows.refused y s found
    · simp only [Side.update_other]
      exact follows.refused x.other s found

theorem script_length_le (x : Side) (t : Stage) : (script e x t).length ≤ 4 := by
  cases t <;> simp [script]

theorem proceeds_write (follows : Follows e w stage) (x : Side) (fails : Bool) :
    Proceeds e w stage (w.write x fails) := by
  unfold write
  dsimp only
  split
  · next m rest opened outbox =>
      split_ifs with failed
      · exact follows.hangUp opened (Bool.and_eq_true_iff.mp failed).2
      · refine .inr ⟨stage, follows.send outbox, ?_⟩
        -- the script has at most four messages, and one of them was in the outbox
        have length := congrArg List.length (follows.flow x)
        rw [List.length_drop, List.length_append, outbox, List.length_cons] at length
        have short := script_length_le (e := e) x (stage x)
        have apart : Function.update w.wire x.other (w.wire x.other ++ [m]) x = w.wire x :=
          Function.update_of_ne x.other_ne.symm _ _
        rw [rank_eq _ _ x, rank_eq _ _ x]
        simp only [remaining, pending, Side.other_other, Function.update_self, Side.update_other, apart,
          List.length_append, List.length_singleton]
        omega
  · exact .inl rfl

/-! ## One message -/

theorem Follows.next (follows : Follows e w stage) {x : Side} {m : HandshakeMessage} {rest : List HandshakeMessage}
    (wire : w.wire x = m :: rest) : (script e x.other (stage x.other))[(stage x).received]? = some m := by
  have flow := follows.flow x.other
  rw [Side.other_other, wire] at flow
  rw [← List.head?_drop, flow]
  rfl

section Handlers

variable {x : Side} {fuel : Nat} {salt : UInt64} {outbox : List HandshakeMessage}

theorem handle_challenge :
    (clientAt e x .connected outbox false).handle e x fuel salt (challengeMessage e x.other) =
      (findChallengeSolution fuel (e.challenge x.other) e.consensusId x.isIncomingConnection salt).map
        fun (solution, _, _) => clientAt e x (.answered solution) (outbox ++ [solutionMessage e x solution]) false := by
  simp only [handle, clientAt, state, challengeMessage, HandshakeMessage.messageId, HandshakeClient.new, process,
    handleChallenge, onChallenge, sendSolution, ne_eq, not_true_eq_false, and_false, if_false, Bool.false_eq_true, e.apart x, e.unknown x,
    Bool.or_false]
  cases found : findChallengeSolution fuel (e.challenge x.other) e.consensusId x.isIncomingConnection salt with
  | none => rfl
  | some result =>
    obtain ⟨solution, hash, ok⟩ := result
    obtain ⟨rfl, -, rfl⟩ := findChallengeSolution_spec found
    have sent : (!x.isIncomingConnection || x.isIncomingConnection) = true := by cases x <;> rfl
    simp only [Option.map_some, sent, if_true]
    rfl

theorem handle_solution {s s' : UInt64}
    (work : x = .incoming → (calculateChallengeHash (e.challenge x) e.consensusId s').2 = true) :
    (clientAt e x (.answered s) outbox false).handle e x fuel salt (solutionMessage e x.other s') =
      some (clientAt e x (.complete s) (outbox ++ [portMessage e x, tipMessage]) false) := by
  have enough : (x.isIncomingConnection && !(calculateChallengeHash (e.challenge x) e.consensusId s').2) = false := by
    cases x with
    | incoming => simp [work rfl]
    | outgoing => rfl
  simp only [handle, clientAt, state, solutionMessage, HandshakeMessage.messageId, answeredClient, HandshakeClient.new,
    process, handleSolution, onSolution, ne_eq, not_true_eq_false, and_false, if_false, Bool.false_eq_true, Side.other_other, enough]
  simp [checkHandshake, onAfterHandshake, sendBlockRequest, HandshakeClient.sendMessage, completeClient,
    answeredClient, HandshakeClient.new, portMessage, tipMessage]

omit [Crypto] in
theorem port_range_iff (port : UInt16) : (port.toUInt32 = 0 ∨ port.toUInt32 ≥ 65536) ↔ port = 0 := by
  rw [ge_iff_le, UInt32.le_iff_toNat_le, ← UInt32.toNat_inj, ← UInt16.toNat_inj, UInt16.toNat_toUInt32]
  change port.toNat = 0 ∨ 65536 ≤ port.toNat ↔ port.toNat = 0
  have := port.toNat_lt
  omega

theorem handle_port {s : UInt64} :
    (clientAt e x (.complete s) outbox false).handle e x fuel salt (portMessage e x.other) =
      some (if (e.server x.other).advertisedPort = 0 then clientAt e x (.refused s) outbox true
        else clientAt e x (.listening s) outbox false) := by
  simp only [handle, clientAt, state, portMessage, HandshakeMessage.messageId, completeClient, answeredClient,
    HandshakeClient.new, process, handleListenPort, Bool.true_eq_false, false_and, if_false, ne_eq, not_true_eq_false,
    port_range_iff]
  split_ifs with zero
  · rw [zero]
    rfl
  · rfl

theorem handle_tip {s : UInt64} : (clientAt e x (.listening s) outbox false).handle e x fuel salt tipMessage =
      some (clientAt e x (.requested s) outbox false) := by
  simp only [handle, clientAt, state, listeningClient, completeClient, Bool.true_eq_false, false_and, if_false]
  rfl

end Handlers

section Script

variable {x : Side} {t : Stage} {m : HandshakeMessage}

theorem script_challenge (at_ : (script e x t)[0]? = some m) : m = challengeMessage e x := by
  cases t <;> simp_all [script]

theorem script_solution (at_ : (script e x t)[1]? = some m) :
    ∃ s, t.solution = some s ∧ m = solutionMessage e x s := by
  cases t <;> simp_all [script, Stage.solution]

theorem script_port (at_ : (script e x t)[2]? = some m) : m = portMessage e x := by
  cases t <;> simp_all [script]

theorem script_tip (at_ : (script e x t)[3]? = some m) : m = tipMessage := by
  cases t <;> simp_all [script]

theorem script_end : (script e x t)[4]? = none := by
  cases t <;> rfl

end Script

variable {x : Side} {m : HandshakeMessage} {rest : List HandshakeMessage} {fuel i : Nat}
  {salt solution : UInt64} {c : HandshakeClient} {t : Stage} {hash : Hash}

theorem Follows.process (follows : Follows e w stage) (connected : (w.client x).connected = true)
    (opened : (w.client x).closed = false) (written : (w.client x).outbox = []) (wire : w.wire x = m :: rest)
    (handled : (w.client x).handle e x fuel salt m = some c) : ∃ t, t.received = (stage x).received + 1 ∧
      Follows e ⟨Function.update w.client x c, Function.update w.wire x rest⟩ (Function.update stage x t) := by
  have here := follows.client x
  have next := follows.next wire
  rw [written, opened] at here
  rw [here] at handled
  cases at_ : stage x with
  | idle =>
    rw [here, at_] at connected
    nomatch connected
  | connected =>
    rw [at_] at handled next
    obtain rfl := script_challenge next
    rw [handle_challenge, Option.map_eq_some_iff] at handled
    obtain ⟨⟨solution, hash, ok⟩, found, rfl⟩ := handled
    refine ⟨_, rfl, follows.advance (t := .answered solution) [_] _ _ wire (by rw [at_]; rfl) (by rw [at_]; rfl)
      (by rw [written]; rfl) ?_ nofun nofun⟩
    rintro rfl s same
    obtain rfl := Option.some.inj same
    obtain ⟨-, -, rfl⟩ := findChallengeSolution_spec found
    exact congrArg Prod.snd (solution_ok found)
  | answered s =>
    rw [at_] at handled next
    obtain ⟨s', found, rfl⟩ := script_solution next
    rw [handle_solution (by rintro rfl; exact follows.work s' found)] at handled
    obtain rfl := Option.some.inj handled
    refine ⟨_, rfl, follows.advance (t := .complete s) [_] _ _ wire (by rw [at_]; rfl) (by rw [at_]; rfl)
      (by rw [written]; rfl) ?_ nofun nofun⟩
    rintro rfl s same
    exact follows.work s (by rw [at_]; exact same)
  | complete s =>
    rw [at_] at handled next
    obtain rfl := script_port next
    rw [handle_port] at handled
    obtain rfl := Option.some.inj handled
    have work : x = .outgoing → ∀ s', some s = some s' →
        (calculateChallengeHash (e.challenge .incoming) e.consensusId s').2 = true := by
      rintro rfl s' same
      exact follows.work s' (by rw [at_]; exact same)
    -- the other end has sent its port, hence is past its handshake as well
    have other : 2 ≤ (stage x.other).received := by
      cases past : stage x.other <;> rw [past] at next <;> simp_all [script, Stage.received]
    split_ifs with zero
    · exact ⟨_, rfl, follows.advance (t := .refused s) [_] _ [] wire (by rw [at_]; rfl)
        (by rw [at_]; rfl) (by rw [written]; rfl) work (fun _ => ⟨Nat.le_succ 2, other⟩) (fun _ _ => ⟨rfl, zero⟩)⟩
    · exact ⟨_, rfl, follows.advance (t := .listening s) [_] _ [] wire (by rw [at_]; rfl)
        (by rw [at_]; rfl) (by rw [written]; rfl) work nofun nofun⟩
  | listening s =>
    rw [at_] at handled next
    obtain rfl := script_tip next
    rw [handle_tip] at handled
    obtain rfl := Option.some.inj handled
    refine ⟨_, rfl, follows.advance (t := .requested s) [_] _ [] wire (by rw [at_]; rfl)
      (by rw [at_]; rfl) (by rw [written]; rfl) ?_ nofun nofun⟩
    rintro rfl s' same
    exact follows.work s' (by rw [at_]; exact same)
  | refused s =>
    have closed := (follows.refused x s at_).1
    rw [opened] at closed
    nomatch closed
  | requested s =>
    rw [at_] at next
    exact absurd (script_end.symm.trans next) nofun

omit [Crypto] in
theorem received_le (t : Stage) : t.received ≤ 4 := by
  cases t <;> simp [Stage.received]

theorem proceeds_read (follows : Follows e w stage) (x : Side) (fuel : Nat) (salt : UInt64) :
    Proceeds e w stage (w.read e x fuel salt) := by
  unfold read
  dsimp only
  by_cases ready : ((w.client x).connected && !(w.client x).closed && (w.client x).outbox.isEmpty) = true
  · rw [if_pos ready]
    simp only [Bool.and_eq_true, Bool.not_eq_true', List.isEmpty_iff] at ready
    obtain ⟨⟨connected, opened⟩, written⟩ := ready
    split
    · split_ifs with ended
      · exact follows.hangUp opened ended
      · exact .inl rfl
    · next m rest wire =>
        split
        · exact .inl rfl
        · next c handled =>
            obtain ⟨t, received, after⟩ := follows.process connected opened written wire handled
            refine .inr ⟨_, after, rank_advance stage [m] rest wire received ?_⟩
            have same := after.client x
            simp only [Function.update_self] at same
            have still : c.connected = true := by
              rw [same]
              refine (connected_state e x t).trans (decide_eq_true ?_)
              rintro rfl
              exact absurd received.symm (Nat.succ_ne_zero _)
            have bound := received_le t
            have closing : (if c.closed then 0 else 1) ≤ 1 := by split_ifs <;> decide
            simp only [pending, still, connected, opened, if_true, Bool.false_eq_true, if_false]
            omega
  · rw [if_neg ready]
    exact .inl rfl

theorem proceeds_step (follows : Follows e w stage) (a : Action) : Proceeds e w stage (step e w a) := by
  cases a with
  | connect x => exact proceeds_connect follows x
  | write x fails => exact proceeds_write follows x fails
  | read x fuel salt => exact proceeds_read follows x fuel salt

theorem follows_run (e : Endpoints) (actions : List Action) : ∃ stage, Follows e (actions.foldl (step e) start) stage := by
  suffices run : ∀ {w stage}, Follows e w stage → ∃ stage', Follows e (actions.foldl (step e) w) stage' from
    run follows_start
  induction actions with
  | nil => exact fun follows => ⟨_, follows⟩
  | cons a actions later =>
    intro w stage follows
    rcases proceeds_step follows a with same | ⟨stage', after, -⟩
    · rw [List.foldl_cons, same]
      exact later follows
    · exact later after

/-! ## What the stages say -/

structure Ready (w : Handshake) (x : Side) : Prop where
  connected : (w.client x).connected = true
  opened : (w.client x).closed = false
  written : (w.client x).outbox = []

theorem read_message (ready : w.Ready x) (wire : w.wire x = m :: rest)
    (handled : (w.client x).handle e x fuel salt m = some c) :
    w.read e x fuel salt = ⟨Function.update w.client x c, Function.update w.wire x rest⟩ := by
  simp only [read, ready.connected, ready.opened, ready.written, wire, handled]
  rfl

def SearchReturns (e : Endpoints) : Prop :=
  ∃ fuel salt, (findChallengeSolution fuel (e.challenge .incoming) e.consensusId false salt).isSome

theorem script_of_challenge {challenge : HandshakeChallenge} {peerId : UInt64}
    (at_ : (script e x t)[i]? = some (.handshakeChallenge challenge peerId)) : challenge = e.challenge x := by
  have mem := List.mem_of_getElem? at_
  cases t <;> simp_all [script, challengeMessage, solutionMessage, portMessage, tipMessage]

theorem script_of_solution (at_ : (script e x t)[i]? = some (.handshakeSolution hash solution)) :
    i = 1 ∧ t.solution = some solution ∧
      (calculateChallengeHash (e.challenge x.other) e.consensusId solution).1 = hash := by
  match i with
  | 0 => nomatch script_challenge at_
  | 1 =>
    obtain ⟨s, found, same⟩ := script_solution at_
    obtain ⟨rfl, rfl⟩ := HandshakeMessage.handshakeSolution.inj same
    exact ⟨rfl, found, rfl⟩
  | 2 => nomatch script_port at_
  | 3 => nomatch script_tip at_
  | i + 4 => cases t <;> nomatch at_

theorem script_of_port {port : UInt32} (at_ : (script e x t)[i]? = some (.listenPort port)) :
    i = 2 ∧ .listenPort port = portMessage e x := by
  match i with
  | 0 => nomatch script_challenge at_
  | 1 =>
    obtain ⟨s, -, same⟩ := script_solution at_
    nomatch same
  | 2 => exact ⟨rfl, script_port at_⟩
  | 3 => nomatch script_tip at_
  | i + 4 => cases t <;> nomatch at_

theorem handle_returns (search : ∀ challenge peerId, m = .handshakeChallenge challenge peerId →
      findChallengeSolution fuel challenge e.consensusId (x.isIncomingConnection || c.closed) salt ≠ none) :
    ∃ c', c.handle e x fuel salt m = some c' := by
  unfold handle
  split_ifs with early
  · exact ⟨_, rfl⟩
  · cases m with
    | handshakeChallenge challenge peerId =>
      obtain ⟨result, found⟩ := Option.ne_none_iff_exists'.mp (search challenge peerId rfl)
      unfold HandshakeClient.process handleChallenge
      dsimp only
      split_ifs
      · exact ⟨_, rfl⟩
      · rw [found]
        exact ⟨_, rfl⟩
    | handshakeSolution | listenPort | blockRequest => exact ⟨_, rfl⟩

theorem Follows.responds (follows : Follows e w stage) (returns : SearchReturns e) (ready : w.Ready x)
    (wire : w.wire x = m :: rest) : ∃ fuel salt c, (w.client x).handle e x fuel salt m = some c := by
  have next := follows.next wire
  cases x with
  | incoming =>
    refine ⟨1, 0, handle_returns ?_⟩
    intro challenge peerId _
    obtain ⟨hash, found⟩ := findChallengeSolution_stop 0 challenge e.consensusId 0
    exact Option.ne_none_iff_exists'.mpr ⟨_, found⟩
  | outgoing =>
    obtain ⟨fuel, salt, found⟩ := returns
    refine ⟨fuel, salt, handle_returns ?_⟩
    rintro challenge peerId rfl
    rw [script_of_challenge next, ready.opened]
    exact Option.isSome_iff_ne_none.mp found

/-- The loops of both ends wait and nothing is on its way. -/
def Quiet (e : Endpoints) (w : Handshake) : Prop := ∀ a, step e w a = w

theorem Quiet.connected (quiet : Quiet e w) (x : Side) : (w.client x).connected = true := by
  by_contra before
  have same := congrArg (fun w => (w.client x).connected) (quiet (.connect x))
  simp only [step, connect, if_neg before, Function.update_self] at same
  exact before same.symm

theorem Quiet.written (quiet : Quiet e w) (opened : (w.client x).closed = false) :
    (w.client x).outbox = [] := by
  cases outbox : (w.client x).outbox with
  | nil => rfl
  | cons m rest =>
    have same := congrArg (fun w => (w.client x).outbox) (quiet (.write x false))
    simp only [step, write, opened, outbox, Bool.false_and, Bool.false_eq_true, if_false, Function.update_self] at same
    exact absurd same.symm (List.cons_ne_self m rest)

theorem Quiet.wire (quiet : Quiet e w) (follows : Follows e w stage) (returns : SearchReturns e) {x : Side}
    (ready : w.Ready x) : w.wire x = [] := by
  cases wire : w.wire x with
  | nil => rfl
  | cons m rest =>
    obtain ⟨fuel, salt, c, handled⟩ := follows.responds returns ready wire
    have same := congrArg (fun w => w.wire x) (quiet (.read x fuel salt))
    simp only [step, read_message ready wire handled, Function.update_self] at same
    exact absurd (wire.symm.trans same.symm) (List.cons_ne_self m rest)

theorem received_le_script (x : Side) (t : Stage) : t.received ≤ (script e x t).length := by
  cases t <;> simp [script, Stage.received]

theorem received_lt_script (moved : t ≠ .idle) (more : t.received < 4) :
    t.received < (script e x t).length := by
  cases t <;> first | exact absurd rfl moved | (simp_all [script, Stage.received])

theorem Quiet.complete (quiet : Quiet e w) (follows : Follows e w stage) (returns : SearchReturns e) (x : Side) :
    2 ≤ (stage x).received := by
  by_cases closed : ∃ y, (w.client y).closed = true
  · obtain ⟨y, closed⟩ := closed
    exact follows.ended y closed x
  · have ready : ∀ y, w.Ready y := fun y =>
      have opened := Bool.eq_false_of_not_eq_true fun closed_ => closed ⟨y, closed_⟩
      ⟨quiet.connected y, opened, quiet.written opened⟩
    have moved : ∀ y, stage y ≠ .idle := by
      intro y idle
      have connected := quiet.connected y
      rw [follows.client y, idle] at connected
      exact nomatch connected
    -- with empty wires each end has read all that the other has sent
    have read : ∀ y, (script e y (stage y)).length ≤ (stage y.other).received := by
      intro y
      have flow := follows.flow y
      rw [quiet.wire follows returns (ready y.other), (ready y).written] at flow
      exact List.drop_eq_nil_iff.mp flow
    by_contra few
    have here := received_lt_script (e := e) (x := x) (moved x) (by omega)
    have there := received_le_script (e := e) x.other (stage x.other)
    have one := read x
    have two := read x.other
    rw [Side.other_other] at two
    omega

/-- What two honest ends can rely on. -/
structure Agrees (e : Endpoints) (w : Handshake) : Prop where
  /-- A ban is that of a listen port that is zero. -/
  bans : ∀ x, (w.client x).banned = true →
    (w.client x).banError = some (.listenPortOutOfRange 0) ∧ (e.server x.other).advertisedPort = 0
  /-- A listen port that is read gets its sender banned exactly if it is zero. -/
  ports : ∀ x port rest fuel salt, w.Ready x → w.wire x = .listenPort port :: rest →
    (((w.read e x fuel salt).client x).banned = true ↔ (e.server x.other).advertisedPort = 0)
  /-- A solution has the hash the check computes, and the work if that is checked; it is accepted. -/
  accepts : ∀ x hash solution rest fuel salt, w.Ready x → w.wire x = .handshakeSolution hash solution :: rest →
    (calculateChallengeHash (e.challenge x) e.consensusId solution).1 = hash ∧
      (x = .incoming → (calculateChallengeHash (e.challenge x) e.consensusId solution).2 = true) ∧
      ((w.read e x fuel salt).client x).handshakeComplete = true
  once : ∀ x, (w.client x).afterHandshakes ≤ 1
  /-- A listen port or a request is processed only when the handshake is complete. -/
  afterwards : ∀ x, ∀ p ∈ (w.client x).processed, p.1 = .listenPort ∨ p.1 = .blockRequest → p.2 = true
  /-- Where nothing more can happen, both sides have completed the handshake. -/
  completes : SearchReturns e → Quiet e w →
    ∀ x, (w.client x).handshakeComplete = true ∧ (w.client x).afterHandshakes = 1

theorem Follows.accepts (follows : Follows e w stage) (fuel : Nat) (salt : UInt64) (ready : w.Ready x)
    (wire : w.wire x = .handshakeSolution hash solution :: rest) :
    (calculateChallengeHash (e.challenge x) e.consensusId solution).1 = hash ∧
      (x = .incoming → (calculateChallengeHash (e.challenge x) e.consensusId solution).2 = true) ∧
      ((w.read e x fuel salt).client x).handshakeComplete = true := by
  obtain ⟨second, known, rfl⟩ := script_of_solution (follows.next wire)
  have work : x = .incoming → (calculateChallengeHash (e.challenge x) e.consensusId solution).2 = true := by
    rintro rfl
    exact follows.work solution known
  rw [Side.other_other]
  refine ⟨rfl, work, ?_⟩
  have here := follows.client x
  rw [ready.written, ready.opened] at here
  cases at_ : stage x with
  | answered s =>
    have handled : (clientAt e x (.answered s) [] false).handle e x fuel salt (solutionMessage e x.other solution) = _ :=
      handle_solution work
    rw [at_] at here
    rw [← here, solutionMessage, Side.other_other] at handled
    rw [Side.other_other] at wire
    rw [read_message ready wire handled]
    simp only [Function.update_self]
    rfl
  | idle | connected | complete | listening | refused | requested =>
    rw [at_] at second
    nomatch second

theorem Follows.ports (follows : Follows e w stage) {port : UInt32} (ready : w.Ready x)
    (wire : w.wire x = .listenPort port :: rest) :
    ((w.read e x fuel salt).client x).banned = true ↔ (e.server x.other).advertisedPort = 0 := by
  obtain ⟨third, sent⟩ := script_of_port (follows.next wire)
  have here := follows.client x
  rw [ready.written, ready.opened] at here
  cases at_ : stage x with
  | complete s =>
    have handled : (clientAt e x (.complete s) [] false).handle e x fuel salt (portMessage e x.other) = _ :=
      handle_port
    rw [at_] at here
    rw [← here, ← sent] at handled
    rw [read_message ready wire handled]
    simp only [Function.update_self]
    split_ifs with zero
    · exact iff_of_true rfl zero
    · exact iff_of_false Bool.false_ne_true zero
  | idle | connected | answered | listening | refused | requested =>
    rw [at_] at third
    nomatch third

theorem Follows.agrees (follows : Follows e w stage) : Agrees e w where
  bans x banned := by
    rw [follows.client x] at banned ⊢
    obtain ⟨⟨s, at_⟩, error⟩ := banned_state e x banned
    exact ⟨error, (follows.refused x s at_).2⟩
  ports x port rest fuel salt ready wire := follows.ports ready wire
  accepts x hash solution rest fuel salt ready wire := follows.accepts fuel salt ready wire
  once x := by
    rw [follows.client x]
    refine (afterHandshakes_state e x (stage x)).trans_le ?_
    split_ifs <;> decide
  afterwards x := by
    rw [follows.client x]
    exact processed_state e x (stage x)
  completes returns quiet x := by
    have past := quiet.complete follows returns x
    rw [follows.client x]
    exact ⟨(handshakeComplete_state e x (stage x)).trans (decide_eq_true past),
      (afterHandshakes_state e x (stage x)).trans (if_pos past)⟩

/-- In every run of two honest ends: the ban of a listen port that is zero is the only one, each
solution is accepted, `OnAfterHandshake` runs at most once, and nothing that belongs after the
handshake is processed before it is complete. -/
theorem handshake_agrees (e : Endpoints) (actions : List Action) : Agrees e (actions.foldl (step e) start) := by
  obtain ⟨stage, follows⟩ := follows_run e actions
  exact follows.agrees

namespace ZeroPort

/-- Every hash is zero, which meets every difficulty. -/
@[reducible] def crypto : Crypto where
  keccak256 _ := 0
  deterministicTransactionPrivateKey _ _ := 0
  publicKey _ := 0
  ephemeralPublicKey _ _ _ := (0, 0)

/-- The accepting server with the given port to advertise; zero stands for a port the system chose. -/
def endpoints (port : UInt16) : Endpoints where
  consensusId := 7
  server
    | .incoming => ⟨1, port, 0, []⟩
    | .outgoing => ⟨2, 37889, 0, []⟩
  challenge _ := 5
  apart side := by cases side <;> simp [Side.other]
  unknown side := by cases side <;> simp [Side.other]

def exchange : List Action :=
  [.connect .incoming, .connect .outgoing, .write .incoming false, .write .outgoing false,
    .read .incoming 1 3, .read .outgoing 1 4, .write .incoming false, .write .outgoing false,
    .read .incoming 1 0, .read .outgoing 1 0, .write .incoming false, .write .outgoing false,
    .write .outgoing false, .read .outgoing 1 0]

omit [Crypto] in
example : ∀ x ∈ [Side.incoming, .outgoing],
    let w := exchange.foldl (@step crypto (endpoints 37889)) start
    (w.client x).handshakeComplete = true ∧ (w.client x).afterHandshakes = 1 ∧ (w.client x).banned = false := by
  decide +kernel

end ZeroPort

omit [Crypto] in
/-- A server that advertises port zero is banned by the peer it has just agreed with. -/
theorem zero_port_banned :
    let w := ZeroPort.exchange.foldl (@step ZeroPort.crypto (ZeroPort.endpoints 0)) start
    (w.client .outgoing).banned = true ∧ (w.client .outgoing).banError = some (.listenPortOutOfRange 0) := by
  decide +kernel

end Handshake

end P2PoolObserver
