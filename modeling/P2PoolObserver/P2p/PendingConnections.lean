/-
# P2p.PendingConnections -- which addresses are being connected to (`DirectConnect`)

`DirectConnect` puts the address in a ring of `MaxOutgoingPeers` slots before it dials and takes
it out when the dial fails; `Client.Close` takes out the address of the client.  A second call
for an address in the ring is refused.

A push writes the slot after the last one written, free or not.  So a connection in progress can
be overwritten although there are fewer connections than slots (`forgotten_below_limit`).
-/
import P2PoolObserver.P2p.Connections

namespace P2PoolObserver

open Lib

namespace ConnServer

variable {A : Type} [DecidableEq A] [NetAddr A]

/-! ## Runs of `DirectConnect` -/

inductive ConnectAction (A : Type) where
  | directConnect (addr : A)
  | lookup (g : Nat)
  | push (g : Nat)
  | count (g : Nat)
  | dialFails (g : Nat)
  | dialSucceeds (g : Nat)
  | accept (addr : A) (banned : Bool)
  | addIncoming
  | close (c : PeerClient A)

def connectStep (s : ConnServer A) : ConnectAction A → ConnServer A
  | .directConnect addr => { s with dials := s.dials ++ [⟨addr, .checked⟩] }
  | .lookup g => s.lookup g false
  | .push g => s.push g
  | .count g => s.count g
  | .dialFails g => s.dialFails g
  | .dialSucceeds g => s.dialSucceeds g
  | .accept addr banned => s.accept addr banned
  | .addIncoming => s.addIncoming
  | .close c => s.close c

/-- A dial in progress: pushed, and neither failed nor established. -/
def InProgress (d : Dial A) : Prop := d.state = .pending ∨ d.state = .dialling

instance (d : Dial A) : Decidable (InProgress d) := inferInstanceAs (Decidable (_ ∨ _))

def Active (s : ConnServer A) (addr : A) : Prop :=
  (∃ d ∈ s.dials, InProgress d ∧ d.address = addr) ∨
    ∃ c ∈ s.clients, c.isIncomingConnection = false ∧ c.address = addr

def numActive (s : ConnServer A) : Nat :=
  s.dials.countP (fun d => InProgress d) + s.clients.countP fun c => !c.isIncomingConnection

/-- Every address of a connection in progress or open is in the ring, and a second call for it is
refused. -/
structure NeverForgotten (s : ConnServer A) : Prop where
  present : ∀ addr, s.Active addr → some addr ∈ s.pendingOutgoingConnections.buffer
  refused : ∀ g d, s.dials[g]? = some d → d.state = .unconnected → s.Active d.address →
    s.push g = s.setDial g d .done

def Keeps (s : ConnServer A) : ConnectAction A → Prop
  | .push g => ∀ d, s.dials[g]? = some d → d.state = .unconnected →
      some d.address ∉ s.pendingOutgoingConnections.buffer → ∀ addr, s.Active addr →
      s.pendingOutgoingConnections.buffer[s.pendingOutgoingConnections.nextSlot]? ≠ some (some addr)
  | .dialFails g => ∀ d, s.dials[g]? = some d → d.state = .dialling →
      ¬ (s.setDial g d .done).Active d.address
  | .dialSucceeds g => ∀ d, s.dials[g]? = some d → d.state = .dialling →
      some (NetAddr.unmap d.address) ∈ s.pendingOutgoingConnections.buffer
  | .close c => c ∈ s.clients → c.isIncomingConnection = false →
      ¬ { s with clients := s.clients.erase c }.Active c.address
  | _ => True

variable {s : ConnServer A}

/-! ## One call goes on -/

/-- Every address of a connection in progress or open is in the ring. -/
def Present (s : ConnServer A) : Prop :=
  ∀ addr, s.Active addr → some addr ∈ s.pendingOutgoingConnections.buffer

omit [NetAddr A] in
theorem neverForgotten_iff_present : s.NeverForgotten ↔ s.Present := by
  refine ⟨NeverForgotten.present, fun present => ⟨present, fun g d found here active => ?_⟩⟩
  have refused : s.pendingOutgoingConnections.pushUnique (some d.address) = none :=
    if_pos (.inr (present d.address active))
  simp only [push, advance, found, here, if_true, refused]

omit [DecidableEq A] [NetAddr A] in
theorem Present.mono (present : s.Present) {t : ConnServer A}
    (ring : t.pendingOutgoingConnections = s.pendingOutgoingConnections)
    (active : ∀ addr, t.Active addr → s.Active addr) : t.Present := by
  intro addr now
  rw [ring]
  exact present addr (active addr now)

omit [DecidableEq A] [NetAddr A] in
theorem present_advance_iff (present : s.Present) {g : Nat} {state : DialState} {next : Dial A → ConnServer A}
    {Q : Dial A → Prop} (each : ∀ d, s.dials[g]? = some d → d.state = state → ((next d).Present ↔ Q d)) :
    (s.advance g state next).Present ↔ ∀ d, s.dials[g]? = some d → d.state = state → Q d := by
  unfold advance
  cases found : s.dials[g]? with
  | none => exact ⟨fun _ => nofun, fun _ => present⟩
  | some d =>
    dsimp only
    by_cases here : d.state = state
    · rw [if_pos here, each d found here]
      exact ⟨fun q d' same _ => Option.some.inj same ▸ q, fun q => q d rfl here⟩
    · rw [if_neg here]
      exact ⟨fun _ d' same there => absurd (Option.some.inj same ▸ there) here, fun _ => present⟩

def ActiveBeside (s : ConnServer A) (g : Nat) (addr : A) : Prop :=
  (∃ i ≠ g, ∃ d, s.dials[i]? = some d ∧ InProgress d ∧ d.address = addr) ∨
    ∃ c ∈ s.clients, c.isIncomingConnection = false ∧ c.address = addr

theorem exists_mem_set_iff {α : Type} {l : List α} {g : Nat} {a : α} (inside : l[g]? = some a) (b : α)
    (P : α → Prop) : (∃ x ∈ l.set g b, P x) ↔ P b ∨ ∃ i ≠ g, ∃ x, l[i]? = some x ∧ P x := by
  have bound : g < l.length := (List.getElem?_eq_some_iff.mp inside).1
  constructor
  · rintro ⟨x, mem, holds⟩
    obtain ⟨i, found⟩ := List.mem_iff_getElem?.mp mem
    by_cases here : g = i
    · subst here
      rw [List.getElem?_set_self bound] at found
      exact .inl (Option.some.inj found ▸ holds)
    · rw [List.getElem?_set_ne here] at found
      exact .inr ⟨i, Ne.symm here, x, found, holds⟩
  · rintro (holds | ⟨i, other, x, found, holds⟩)
    · exact ⟨b, List.mem_set bound _, holds⟩
    · refine ⟨x, List.mem_iff_getElem?.mpr ⟨i, ?_⟩, holds⟩
      rw [List.getElem?_set_ne (Ne.symm other), found]

omit [DecidableEq A] [NetAddr A] in
theorem active_setDial_iff {g : Nat} {d : Dial A} (found : s.dials[g]? = some d) (state : DialState) (addr : A) :
    (s.setDial g d state).Active addr ↔
      ((state = .pending ∨ state = .dialling) ∧ d.address = addr) ∨ s.ActiveBeside g addr := by
  unfold Active ActiveBeside
  rw [← or_assoc]
  exact or_congr (exists_mem_set_iff found { d with state } fun d => InProgress d ∧ d.address = addr) Iff.rfl

omit [DecidableEq A] [NetAddr A] in
theorem active_iff {g : Nat} {d : Dial A} (found : s.dials[g]? = some d) (addr : A) :
    s.Active addr ↔ (InProgress d ∧ d.address = addr) ∨ s.ActiveBeside g addr := by
  have same : s.setDial g d d.state = s := by
    have unchanged : s.dials.set g d = s.dials := by
      obtain ⟨inside, rfl⟩ := List.getElem?_eq_some_iff.mp found
      exact List.set_getElem_self inside
    exact congrArg (fun dials => { s with dials }) unchanged
  have set := active_setDial_iff found d.state addr
  rw [same] at set
  exact set

omit [DecidableEq A] [NetAddr A] in
theorem active_of_setDial {g : Nat} {d : Dial A} (found : s.dials[g]? = some d) {state : DialState}
    (idle : state = .pending ∨ state = .dialling → InProgress d) {addr : A}
    (active : (s.setDial g d state).Active addr) : s.Active addr := by
  rw [active_setDial_iff found] at active
  rw [active_iff found]
  exact active.imp_left fun now => ⟨idle now.1, now.2⟩

theorem present_lookup (present : s.Present) (g : Nat) (banned : Bool) : (s.lookup g banned).Present := by
  refine (present_advance_iff present (Q := fun _ => True) fun d found here => iff_true_intro ?_).mpr
    fun _ _ _ => trivial
  split_ifs
  · exact present.mono rfl fun addr => active_of_setDial found (by simp)
  · exact present.mono rfl fun addr => active_of_setDial found (by simp)

omit [DecidableEq A] [NetAddr A] in
theorem present_count (present : s.Present) (g : Nat) : (s.count g).Present := by
  refine (present_advance_iff present (Q := fun _ => True) fun d found here => iff_true_intro ?_).mpr
    fun _ _ _ => trivial
  exact present.mono rfl fun addr => active_of_setDial found fun _ => .inl here

theorem present_push_iff (present : s.Present) (distinct : s.pendingOutgoingConnections.Distinct none) (g : Nat) :
    (s.push g).Present ↔ s.Keeps (.push g) := by
  refine present_advance_iff present fun d found here => ?_
  cases pushed : s.pendingOutgoingConnections.pushUnique (some d.address) with
  | none =>
    refine iff_of_true (present.mono rfl fun addr => active_of_setDial found (by simp)) ?_
    intro new addr _ overwritten
    refine absurd pushed ?_
    rw [CircularBuffer.pushUnique, if_neg]
    · nofun
    · rintro (empty | old)
      · rw [List.length_eq_zero_iff.mp empty] at overwritten
        cases overwritten
      · exact new old
  | some pending =>
    have new := (CircularBuffer.pushUnique_eq_some_iff.mp pushed).2.1
    have active : ∀ addr, (s.setDial g d .pending).Active addr ↔ d.address = addr ∨ s.Active addr := by
      intro addr
      rw [active_setDial_iff found, active_iff found]
      simp [InProgress, here]
    have kept : ∀ addr : A, some addr ∈ pending.buffer ↔ addr = d.address ∨
        (some addr ∈ s.pendingOutgoingConnections.buffer ∧
          s.pendingOutgoingConnections.buffer[s.pendingOutgoingConnections.nextSlot]? ≠ some (some addr)) := by
      intro addr
      rw [CircularBuffer.mem_pushUnique_iff distinct pushed (by simp), Option.some_inj]
    constructor
    · intro after _ addr now overwritten
      rcases (kept addr).mp (after addr ((active addr).mpr (.inr now))) with rfl | ⟨-, safe⟩
      · exact new (List.mem_of_getElem? overwritten)
      · exact safe overwritten
    · intro safe addr now
      refine (kept addr).mpr ?_
      rcases (active addr).mp now with rfl | before
      · exact .inl rfl
      · exact .inr ⟨present addr before, safe new addr before⟩

omit [NetAddr A] in
theorem present_replace_iff {t : ConnServer A} (addr : A)
    (present : ∀ a, t.Active a → some a ∈ s.pendingOutgoingConnections.buffer)
    (ring : t.pendingOutgoingConnections = s.pendingOutgoingConnections.replace (some addr) none) :
    t.Present ↔ ¬ t.Active addr := by
  have out : ∀ a : A, some a ∈ t.pendingOutgoingConnections.buffer ↔
      some a ∈ s.pendingOutgoingConnections.buffer ∧ a ≠ addr := by
    intro a
    rw [ring, CircularBuffer.mem_replace_iff (by simp), Ne, Option.some_inj]
  constructor
  · intro after active
    exact ((out addr).mp (after addr active)).2 rfl
  · intro none a active
    refine (out a).mpr ⟨present a active, ?_⟩
    rintro rfl
    exact none active

theorem present_dialFails_iff (present : s.Present) (g : Nat) :
    (s.dialFails g).Present ↔ s.Keeps (.dialFails g) := by
  refine present_advance_iff present fun d found here => ?_
  exact present_replace_iff (s := s) _ (fun a active => present a (active_of_setDial found (by simp) active)) rfl

theorem present_dialSucceeds_iff (present : s.Present) (g : Nat) :
    (s.dialSucceeds g).Present ↔ s.Keeps (.dialSucceeds g) := by
  refine present_advance_iff present fun d found here => ?_
  constructor
  · intro after
    refine after (NetAddr.unmap d.address) (.inr ⟨⟨s.nextId, NetAddr.unmap d.address, false⟩, ?_, rfl, rfl⟩)
    exact List.mem_append_right _ (List.mem_singleton_self _)
  · intro there addr active
    rcases active with dial | ⟨c, mem, outgoing, rfl⟩
    · exact present addr (active_of_setDial found (by simp) (.inl dial))
    · rcases List.mem_append.mp mem with old | new
      · exact present c.address (.inr ⟨c, old, outgoing, rfl⟩)
      · obtain rfl := List.mem_singleton.mp new
        exact there

theorem present_close_iff (present : s.Present) (c : PeerClient A) :
    (s.close c).Present ↔ s.Keeps (.close c) := by
  have fewer : ∀ addr, ({ s with clients := s.clients.erase c } : ConnServer A).Active addr → s.Active addr := by
    intro addr active
    rcases active with dial | ⟨c', mem, open_⟩
    · exact .inl dial
    · exact .inr ⟨c', List.mem_of_mem_erase mem, open_⟩
  unfold close
  split_ifs with listed incoming
  · refine iff_of_true (present.mono rfl fewer) ?_
    intro _ outgoing
    rw [incoming] at outgoing
    cases outgoing
  · have ends := present_replace_iff (s := s) (t := { s with
      clients := s.clients.erase c
      numOutgoingConnections := s.numOutgoingConnections - 1
      pendingOutgoingConnections := s.pendingOutgoingConnections.replace (some c.address) none })
      c.address (fun a active => present a (fewer a active)) rfl
    exact ends.trans ⟨fun none _ _ => none, fun none => none listed (by simpa using incoming)⟩
  · exact iff_of_true present fun there => absurd there listed

omit [DecidableEq A] [NetAddr A] in
theorem present_directConnect (present : s.Present) (addr : A) :
    ({ s with dials := s.dials ++ [⟨addr, .checked⟩] } : ConnServer A).Present := by
  refine present.mono rfl fun a active => ?_
  rcases active with ⟨d, mem, busy, same⟩ | client
  · rcases List.mem_append.mp mem with old | new
    · exact .inl ⟨d, old, busy, same⟩
    · obtain rfl := List.mem_singleton.mp new
      simp [InProgress] at busy
  · exact .inr client

theorem present_accept (present : s.Present) (addr : A) (banned : Bool) : (s.accept addr banned).Present := by
  unfold accept
  split_ifs <;> exact present

omit [DecidableEq A] [NetAddr A] in
theorem present_addIncoming (present : s.Present) : s.addIncoming.Present := by
  unfold addIncoming
  split
  · exact present
  · refine present.mono rfl fun a active => ?_
    rcases active with dial | ⟨c, mem, outgoing, same⟩
    · exact .inl dial
    · rcases List.mem_append.mp mem with old | new
      · exact .inr ⟨c, old, outgoing, same⟩
      · obtain rfl := List.mem_singleton.mp new
        cases outgoing

/-! ## Runs -/

theorem present_step_iff (present : s.Present) (distinct : s.pendingOutgoingConnections.Distinct none)
    (a : ConnectAction A) : (s.connectStep a).Present ↔ s.Keeps a := by
  cases a with
  | directConnect addr => exact iff_of_true (present_directConnect present addr) trivial
  | lookup g => exact iff_of_true (present_lookup present g false) trivial
  | push g => exact present_push_iff present distinct g
  | count g => exact iff_of_true (present_count present g) trivial
  | dialFails g => exact present_dialFails_iff present g
  | dialSucceeds g => exact present_dialSucceeds_iff present g
  | accept addr banned => exact iff_of_true (present_accept present addr banned) trivial
  | addIncoming => exact iff_of_true (present_addIncoming present) trivial
  | close c => exact present_close_iff present c

omit [DecidableEq A] [NetAddr A] in
theorem ring_advance {P : CircularBuffer (Option A) → Prop} (before : P s.pendingOutgoingConnections) {g : Nat}
    {state : DialState} {next : Dial A → ConnServer A} (each : ∀ d, P (next d).pendingOutgoingConnections) :
    P (s.advance g state next).pendingOutgoingConnections := by
  rcases advance_cases s g state next with same | ⟨d, -, -, stepped⟩
  · rwa [same]
  · rw [stepped]
    exact each d

theorem distinct_step (distinct : s.pendingOutgoingConnections.Distinct none) (a : ConnectAction A) :
    (s.connectStep a).pendingOutgoingConnections.Distinct none := by
  cases a with
  | directConnect addr => exact distinct
  | lookup g => exact ring_advance distinct fun d => by split_ifs <;> exact distinct
  | push g =>
    refine ring_advance distinct fun d => ?_
    split
    · exact distinct
    · next pending pushed => exact CircularBuffer.distinct_pushUnique distinct pushed
  | count g => exact ring_advance distinct fun d => distinct
  | dialFails g => exact ring_advance distinct fun d => CircularBuffer.distinct_replace distinct _
  | dialSucceeds g => exact ring_advance distinct fun d => distinct
  | accept addr banned =>
    change (s.accept addr banned).pendingOutgoingConnections.Distinct none
    unfold accept
    split_ifs <;> exact distinct
  | addIncoming =>
    change s.addIncoming.pendingOutgoingConnections.Distinct none
    unfold addIncoming
    split <;> exact distinct
  | close c =>
    change (s.close c).pendingOutgoingConnections.Distinct none
    unfold close
    split_ifs
    · exact distinct
    · exact CircularBuffer.distinct_replace distinct _
    · exact distinct

/-- In every run no connection is forgotten after any step exactly if every step keeps the addresses
of the connections in progress and open. -/
theorem neverForgotten_iff (maxOutgoingPeers maxIncomingPeers : UInt32) (useIPv4 useIPv6 : Bool)
    (actions : List (ConnectAction A)) :
    EachStep connectStep (fun s a => (s.connectStep a).NeverForgotten)
        (new maxOutgoingPeers maxIncomingPeers useIPv4 useIPv6) actions ↔
      EachStep connectStep Keeps (new maxOutgoingPeers maxIncomingPeers useIPv4 useIPv6) actions := by
  refine eachStep_iff (I := fun s => s.Present ∧ s.pendingOutgoingConnections.Distinct none) ?_ ?_ actions
    ⟨?_, CircularBuffer.distinct_new _ _⟩
  · intro s a ⟨_, distinct⟩ after
    exact ⟨neverForgotten_iff_present.mp after, distinct_step distinct a⟩
  · intro s a ⟨present, distinct⟩
    rw [neverForgotten_iff_present, present_step_iff present distinct]
  · rintro addr (⟨d, mem, -⟩ | ⟨c, mem, -⟩)
    · cases mem
    · cases mem

end ConnServer

namespace PendingExample

open ConnServer

/-- With two slots: 1 and 2 are dialled, 2 fails, and then 3 is dialled. -/
def actions : List (ConnectAction Nat) :=
  [.directConnect 1, .lookup 0, .push 0, .count 0, .directConnect 2, .lookup 1, .push 1, .count 1, .dialFails 1,
    .directConnect 3, .lookup 2, .push 2, .count 2]

def last : ConnServer Nat := actions.foldl (@connectStep Nat _ PeerRun.LostUpdate.numbers) (new 2 2 true true)

/-- There are never more than two connections, but 3 is written over 1, which is still dialled. -/
theorem forgotten_below_limit :
    EachStep (@connectStep Nat _ PeerRun.LostUpdate.numbers)
        (fun s a => (@connectStep Nat _ PeerRun.LostUpdate.numbers s a).numActive ≤ 2) (new 2 2 true true) actions ∧
      last.pendingOutgoingConnections.buffer = [none, some 3] ∧
      last.dials = [⟨1, .dialling⟩, ⟨2, .done⟩, ⟨3, .dialling⟩] ∧ ¬ last.NeverForgotten := by
  have ring : last.pendingOutgoingConnections.buffer = [none, some 3] := by decide +kernel
  have dials : last.dials = [⟨1, .dialling⟩, ⟨2, .done⟩, ⟨3, .dialling⟩] := by decide +kernel
  refine ⟨by simp only [EachStep, actions]; decide +kernel, ring, dials, fun never => ?_⟩
  have there := never.present 1 (.inl ⟨⟨1, .dialling⟩, by rw [dials]; decide, .inr rfl, rfl⟩)
  rw [ring] at there
  exact absurd there (by decide)

end PendingExample

end P2PoolObserver
