/-
# P2p.PeerList -- updates of the peer list (`p2p/server.go`)

`AddToPeerList`, `UpdateInPeerList` and `RemoveFromPeerList` change the list under its lock.
`UpdateClientConnections` copies the list under the lock, looks at the copied entries without it,
and, if some have expired, stores what is left of the copy under the lock again.  A run is any
sequence of these sections, and its `History` says of an address whether it was last added,
removed or expired.
-/
import P2PoolObserver.Sidechain.PoolBlock
import P2PoolObserver.Lib.Trace

namespace P2PoolObserver

open Lib

/-- What the server asks of a `netip.Addr`; `Compare` is zero for equal addresses only. -/
class NetAddr (A : Type) where
  unmap : A → A
  isLoopback : A → Bool
  is4 : A → Bool
  is6 : A → Bool

structure PeerListEntry (A : Type) where
  address : A
  port : UInt16
  failedConnections : UInt32
  lastSeenTimestamp : UInt64
  deriving DecidableEq

/-- `UpdateClientConnections` between its two sections: the entries it has still to look at,
whether it has refreshed the first of them, and what is left of the copy. -/
structure UpdatePass (A : Type) where
  currentTime : UInt64
  connectedPeers : List A
  rest : List Ptr
  refreshed : Bool
  peerList2 : List Ptr
  deletedPeers : Nat

/-- The pass after it has looked at one entry, with what it has left of the copy. -/
def UpdatePass.judged {A : Type} (pass : UpdatePass A) (rest peerList2 : List Ptr) (deletedPeers : Nat) :
    UpdatePass A :=
  { pass with rest, refreshed := false, peerList2, deletedPeers }

/-- The peer list holds pointers: the copy shares its entries. -/
structure PeerServer (A : Type) where
  useIPv4 : Bool
  useIPv6 : Bool
  entry : Ptr → PeerListEntry A
  next : Ptr
  peerList : List Ptr
  pass : Option (UpdatePass A)

namespace PeerServer

variable {A : Type} [DecidableEq A] [NetAddr A]

/-! ## The sections -/

def address (s : PeerServer A) (p : Ptr) : A := (s.entry p).address

def get (s : PeerServer A) (addr : A) : Option Ptr := s.peerList.find? fun p => s.address p = addr

def delete (s : PeerServer A) (l : List Ptr) (addr : A) : List Ptr := l.filter fun p => s.address p ≠ addr

def modify (s : PeerServer A) (p : Ptr) (f : PeerListEntry A → PeerListEntry A) : PeerServer A :=
  { s with entry := Function.update s.entry p (f (s.entry p)) }

/-- Whether peers with this address are considered at all. -/
def Admits (s : PeerServer A) (addr : A) : Prop :=
  ¬ NetAddr.isLoopback addr = true ∧
    ¬ (s.useIPv4 = false ∧ NetAddr.is4 (NetAddr.unmap addr) = true) ∧
    ¬ (s.useIPv6 = false ∧ NetAddr.is6 (NetAddr.unmap addr) = true)

instance (s : PeerServer A) (addr : A) : Decidable (s.Admits addr) :=
  inferInstanceAs (Decidable (_ ∧ _ ∧ _))

def insertPeer (seen : PeerListEntry A → PeerListEntry A) (s : PeerServer A) (addr : A) (port : UInt16)
    (banned : Bool) (now : UInt64) : PeerServer A :=
  if s.Admits addr then
    match s.get (NetAddr.unmap addr) with
    | some p => s.modify p seen
    | none =>
      if banned then s
      else { s with entry := Function.update s.entry s.next ⟨NetAddr.unmap addr, port, 0, now⟩
                    next := s.next + 1
                    peerList := s.peerList ++ [s.next] }
  else s

def addToPeerList (s : PeerServer A) (addr : A) (port : UInt16) (banned : Bool) (now : UInt64) : PeerServer A :=
  insertPeer (fun e => { e with lastSeenTimestamp := now }) s addr port banned now

def updateInPeerList (s : PeerServer A) (addr : A) (port : UInt16) (banned : Bool) (now : UInt64) : PeerServer A :=
  insertPeer (fun e => { e with failedConnections := 0, lastSeenTimestamp := now }) s addr port banned now

/-- `RemoveFromPeerList`: the last entry with the address. -/
def removeFromPeerList (s : PeerServer A) (ip : A) : PeerServer A :=
  { s with peerList := (s.peerList.reverse.eraseP fun p => s.address p = NetAddr.unmap ip).reverse }

def snapshot (s : PeerServer A) (currentTime : UInt64) (connectedPeers : List A) : PeerServer A :=
  match s.pass with
  | some _ => s
  | none => { s with pass := some ⟨currentTime, connectedPeers, s.peerList, false, s.peerList, 0⟩ }

def refresh (s : PeerServer A) : PeerServer A :=
  match s.pass with
  | some pass =>
    match pass.refreshed, pass.rest with
    | false, p :: _ =>
      let s := if s.address p ∈ pass.connectedPeers then
          s.modify p fun e => { e with lastSeenTimestamp := pass.currentTime }
        else s
      { s with pass := some { pass with refreshed := true } }
    | _, _ => s
  | none => s

/-- Whether the pass finds the entry too old; the sum wraps. -/
def Expired (s : PeerServer A) (pass : UpdatePass A) (p : Ptr) : Prop :=
  (s.entry p).lastSeenTimestamp + 3600 < pass.currentTime

instance (s : PeerServer A) (pass : UpdatePass A) (p : Ptr) : Decidable (s.Expired pass p) :=
  inferInstanceAs (Decidable (_ < _))

/-- A peer that has not been seen for an hour is deleted from the copy. -/
def judge (s : PeerServer A) : PeerServer A :=
  match s.pass with
  | some pass =>
    match pass.refreshed, pass.rest with
    | true, p :: rest =>
      if s.Expired pass p then
        { s with pass := some (pass.judged rest (s.delete pass.peerList2 (s.address p)) (pass.deletedPeers + 1)) }
      else { s with pass := some (pass.judged rest pass.peerList2 pass.deletedPeers) }
    | _, _ => s
  | none => s

/-- What is left of the copy is stored if something was deleted from it. -/
def store (s : PeerServer A) : PeerServer A :=
  match s.pass with
  | some pass =>
    match pass.rest with
    | [] =>
      if pass.deletedPeers > 0 then { s with peerList := pass.peerList2, pass := none }
      else { s with pass := none }
    | _ :: _ => s
  | none => s

inductive Action (A : Type) where
  | add (addr : A) (port : UInt16) (banned : Bool) (now : UInt64)
  | updateIn (addr : A) (port : UInt16) (banned : Bool) (now : UInt64)
  | remove (ip : A)
  | snapshot (currentTime : UInt64) (connectedPeers : List A)
  | refresh
  | judge
  | store

def act (s : PeerServer A) : Action A → PeerServer A
  | .add addr port banned now => s.addToPeerList addr port banned now
  | .updateIn addr port banned now => s.updateInPeerList addr port banned now
  | .remove ip => s.removeFromPeerList ip
  | .snapshot currentTime connectedPeers => s.snapshot currentTime connectedPeers
  | .refresh => s.refresh
  | .judge => s.judge
  | .store => s.store

/-! ## The history of a run -/

/-- The address a call of `AddToPeerList` or `UpdateInPeerList` adds: one that is considered
and is there already or not banned. -/
def Adds (s : PeerServer A) (addr : A) (banned : Bool) : Prop :=
  s.Admits addr ∧ ((s.get (NetAddr.unmap addr)).isSome = true ∨ banned = false)

instance (s : PeerServer A) (addr : A) (banned : Bool) : Decidable (s.Adds addr banned) :=
  inferInstanceAs (Decidable (_ ∧ _))

def expires (s : PeerServer A) : Option Ptr :=
  match s.pass with
  | some pass =>
    match pass.refreshed, pass.rest with
    | true, p :: _ => if s.Expired pass p ∧ p ∈ s.peerList then some p else none
    | _, _ => none
  | none => none

/-- For each address whether it was last added (`some true`) or removed (`some false`);
nothing before that, and nothing after it has expired. -/
abbrev History (A : Type) := A → Option Bool

def noted (s : PeerServer A) (h : History A) : Action A → History A
  | .add addr _ banned _ | .updateIn addr _ banned _ =>
    if s.Adds addr banned then Function.update h (NetAddr.unmap addr) (some true) else h
  | .remove ip => Function.update h (NetAddr.unmap ip) (some false)
  | .judge =>
    match s.expires with
    | some p => Function.update h (s.address p) none
    | none => h
  | .snapshot .. | .refresh | .store => h

/-! ## What the sections change -/

section Frame

variable (s : PeerServer A)

omit [DecidableEq A] [NetAddr A] in
theorem address_modify (p q : Ptr) {f : PeerListEntry A → PeerListEntry A} (keeps : ∀ e, (f e).address = e.address) :
    (s.modify p f).address q = s.address q := by
  simp only [address, modify, Function.update_apply]
  split_ifs with same
  · rw [keeps, same]
  · rfl

theorem insertPeer_cases (seen : PeerListEntry A → PeerListEntry A) (addr : A) (port : UInt16) (banned : Bool) (now : UInt64) :
    (¬ s.Adds addr banned ∧ insertPeer seen s addr port banned now = s) ∨
    (s.Adds addr banned ∧ ∃ p ∈ s.peerList, s.address p = NetAddr.unmap addr ∧
      insertPeer seen s addr port banned now = s.modify p seen) ∨
    (s.Adds addr banned ∧ (∀ p ∈ s.peerList, s.address p ≠ NetAddr.unmap addr) ∧
      insertPeer seen s addr port banned now =
        { s with entry := Function.update s.entry s.next ⟨NetAddr.unmap addr, port, 0, now⟩
                 next := s.next + 1
                 peerList := s.peerList ++ [s.next] }) := by
  unfold insertPeer Adds
  by_cases admits : s.Admits addr
  · rw [if_pos admits]
    cases found : s.get (NetAddr.unmap addr) with
    | some p =>
      have there := List.mem_of_find?_eq_some found
      have same := List.find?_some found
      exact .inr (.inl ⟨⟨admits, .inl rfl⟩, p, there, by simpa using same, rfl⟩)
    | none =>
      have absent : ∀ p ∈ s.peerList, s.address p ≠ NetAddr.unmap addr := by
        simpa [get] using found
      cases banned with
      | true => exact .inl ⟨by simp, rfl⟩
      | false => exact .inr (.inr ⟨⟨admits, .inr rfl⟩, absent, rfl⟩)
  · rw [if_neg admits]
    exact .inl ⟨fun adds => admits adds.1, rfl⟩

end Frame

end PeerServer

/-- A server with the history of its run and that since the copy was taken. -/
structure PeerRun (A : Type) where
  server : PeerServer A
  history : PeerServer.History A
  since : PeerServer.History A

namespace PeerRun

open PeerServer

variable {A : Type} [DecidableEq A] [NetAddr A]

def start (useIPv4 useIPv6 : Bool) (blank : PeerListEntry A) : PeerRun A :=
  ⟨⟨useIPv4, useIPv6, fun _ => blank, 0, [], none⟩, fun _ => none, fun _ => none⟩

def step (r : PeerRun A) (a : Action A) : PeerRun A where
  server := r.server.act a
  history := r.server.noted r.history a
  since :=
    match a, r.server.pass with
    | .snapshot .., none => fun _ => none
    | a, _ => r.server.noted r.since a

def addresses (r : PeerRun A) (l : List Ptr) : List A := l.map r.server.address

/-- The list agrees with the history, and no address occurs twice. -/
structure Kept (r : PeerRun A) : Prop where
  added : ∀ addr, r.history addr = some true → addr ∈ r.addresses r.server.peerList
  removed : ∀ addr, r.history addr = some false → addr ∉ r.addresses r.server.peerList
  once : (r.addresses r.server.peerList).Nodup

/-- A copy that is stored holds what was added since it was taken and nothing that was
removed since. -/
def StoreOk (r : PeerRun A) : Action A → Prop
  | .store => ∀ pass, r.server.pass = some pass → pass.rest = [] → pass.deletedPeers > 0 →
      ∀ addr, (r.since addr = some true → addr ∈ r.addresses pass.peerList2) ∧
        (r.since addr = some false → addr ∉ r.addresses pass.peerList2)
  | _ => True

/-! ## The invariant -/

structure PassInv (r : PeerRun A) (pass : UpdatePass A) : Prop where
  restOld : ∀ p ∈ pass.rest, p < r.server.next
  copyOld : ∀ p ∈ pass.peerList2, p < r.server.next
  restOnce : (r.addresses pass.rest).Nodup
  copyOnce : (r.addresses pass.peerList2).Nodup
  current : ∀ p ∈ pass.rest, r.since (r.server.address p) = none → p ∈ r.server.peerList
  sinceHistory : ∀ addr b, r.since addr = some b → r.history addr = some b
  untouched : ∀ addr, r.since addr = none → r.history addr = none ∨
    (addr ∈ r.addresses r.server.peerList ↔ addr ∈ r.addresses pass.peerList2)

structure Inv (r : PeerRun A) : Prop extends Kept r where
  old : ∀ p ∈ r.server.peerList, p < r.server.next
  pass : ∀ pass, r.server.pass = some pass → r.PassInv pass

section Invariant

variable {r : PeerRun A} {pass : UpdatePass A}

omit [DecidableEq A] [NetAddr A] in
theorem addresses_congr {r' : PeerRun A} {l : List Ptr} (old : ∀ p ∈ l, p < r.server.next)
    (same : ∀ p < r.server.next, r'.server.address p = r.server.address p) : r'.addresses l = r.addresses l :=
  List.map_congr_left fun p mem => same p (old p mem)

omit [NetAddr A] in
theorem Inv.touch (inv : r.Inv) {r' : PeerRun A} {a : A} {b : Bool}
    (same : ∀ p < r.server.next, r'.server.address p = r.server.address p)
    (next : r.server.next ≤ r'.server.next) (samePass : r'.server.pass = r.server.pass)
    (history : r'.history = Function.update r.history a (some b))
    (since : r'.since = Function.update r.since a (some b)) (old : ∀ p ∈ r'.server.peerList, p < r'.server.next)
    (here : a ∈ r'.addresses r'.server.peerList ↔ b = true)
    (others : ∀ addr, addr ≠ a → (addr ∈ r'.addresses r'.server.peerList ↔ addr ∈ r.addresses r.server.peerList))
    (stays : ∀ p ∈ r.server.peerList, r.server.address p ≠ a → p ∈ r'.server.peerList)
    (once : (r'.addresses r'.server.peerList).Nodup) : r'.Inv where
  added addr last := by
    rw [history, Function.update_apply] at last
    split_ifs at last with this
    · exact this ▸ here.mpr (Option.some.inj last)
    · exact (others addr this).mpr (inv.added addr last)
  removed addr last := by
    rw [history, Function.update_apply] at last
    split_ifs at last with this
    · rw [this, here, Option.some.inj last]
      exact Bool.false_ne_true
    · exact fun mem => inv.removed addr last ((others addr this).mp mem)
  once := once
  old := old
  pass pass running := by
    rw [samePass] at running
    obtain ⟨restOld, copyOld, restOnce, copyOnce, current, sinceHistory, untouched⟩ := inv.pass pass running
    have rest := addresses_congr restOld same
    have copy := addresses_congr copyOld same
    refine ⟨fun p mem => (restOld p mem).trans_le next, fun p mem => (copyOld p mem).trans_le next,
      by rwa [rest], by rwa [copy], fun p mem none => ?_, fun addr b' last => ?_, fun addr none => ?_⟩
    · rw [same p (restOld p mem), since, Function.update_apply] at none
      split_ifs at none with this
      exact stays p (current p mem none) this
    · rw [since, Function.update_apply] at last
      rw [history, Function.update_apply]
      split_ifs at last ⊢ with this
      · exact last
      · exact sinceHistory addr b' last
    · rw [since, Function.update_apply] at none
      split_ifs at none with this
      rw [history, Function.update_of_ne this, copy, others addr this]
      exact untouched addr none

omit [DecidableEq A] [NetAddr A] in
theorem Inv.calm (inv : r.Inv) {r' : PeerRun A} (same : ∀ p, r'.server.address p = r.server.address p)
    (next : r'.server.next = r.server.next) (list : r'.server.peerList = r.server.peerList)
    (history : r'.history = r.history) (since : r'.since = r.since)
    (samePass : ∀ pass', r'.server.pass = some pass' → ∃ pass, r.server.pass = some pass ∧
      pass'.rest = pass.rest ∧ pass'.peerList2 = pass.peerList2) : r'.Inv := by
  have shown : ∀ l, r'.addresses l = r.addresses l := fun l => List.map_congr_left fun p _ => same p
  refine ⟨⟨?_, ?_, ?_⟩, ?_, fun pass' running => ?_⟩
  · rw [history, list, shown]
    exact inv.added
  · rw [history, list, shown]
    exact inv.removed
  · rw [list, shown]
    exact inv.once
  · rw [list, next]
    exact inv.old
  · obtain ⟨pass, running, rest, copy⟩ := samePass pass' running
    obtain ⟨restOld, copyOld, restOnce, copyOnce, current, sinceHistory, untouched⟩ := inv.pass pass running
    refine ⟨?_, ?_, ?_, ?_, ?_, ?_, ?_⟩
    · rwa [rest, next]
    · rwa [copy, next]
    · rwa [shown, rest]
    · rwa [shown, copy]
    · rw [rest, since, list]
      simpa only [same] using current
    · rwa [since, history]
    · rw [since, history, list, copy, shown, shown]
      exact untouched

theorem Inv.insert (inv : r.Inv) (seen : PeerListEntry A → PeerListEntry A)
    (keeps : ∀ e, (seen e).address = e.address) (addr : A) (port : UInt16) (banned : Bool) (now : UInt64)
    {r' : PeerRun A} (server : r'.server = insertPeer seen r.server addr port banned now)
    (history : r'.history = if r.server.Adds addr banned then
      Function.update r.history (NetAddr.unmap addr) (some true) else r.history)
    (since : r'.since = if r.server.Adds addr banned then
      Function.update r.since (NetAddr.unmap addr) (some true) else r.since) : r'.Inv := by
  rcases r.server.insertPeer_cases seen addr port banned now with
    ⟨refused, result⟩ | ⟨adds, p, there, atAddr, result⟩ | ⟨adds, absent, result⟩
  · rw [if_neg refused] at history since
    rw [result] at server
    refine inv.calm (fun p => by rw [server]) (by rw [server]) (by rw [server]) history since
      fun pass' running => ⟨pass', by rwa [server] at running, rfl, rfl⟩
  · rw [if_pos adds] at history since
    rw [result] at server
    have same : ∀ q, r'.server.address q = r.server.address q := fun q => by
      rw [server, address_modify _ _ _ keeps]
    have list : r'.server.peerList = r.server.peerList := by rw [server]; rfl
    have shown : r'.addresses r'.server.peerList = r.addresses r.server.peerList := by
      rw [list]
      exact List.map_congr_left fun q _ => same q
    refine inv.touch (fun q _ => same q) (by rw [server]; rfl) (by rw [server]; rfl) history since
      (by rw [list, server]; exact inv.old) ?_ (fun other _ => by rw [shown]) (fun q mem _ => by rwa [list])
      (by rw [shown]; exact inv.once)
    rw [shown]
    exact iff_of_true (List.mem_map.mpr ⟨p, there, atAddr⟩) rfl
  · rw [if_pos adds] at history since
    rw [result] at server
    have same : ∀ q < r.server.next, r'.server.address q = r.server.address q := fun q old => by
      rw [server]
      exact congrArg PeerListEntry.address (Function.update_of_ne (Nat.ne_of_lt old) _ _)
    have new : r'.server.address r.server.next = NetAddr.unmap addr := by
      simp only [server, address, Function.update_self]
    have list : r'.server.peerList = r.server.peerList ++ [r.server.next] := by rw [server]
    have shown : r'.addresses r'.server.peerList = r.addresses r.server.peerList ++ [NetAddr.unmap addr] := by
      rw [list, addresses, List.map_append, List.map_singleton, new]
      exact congrArg (· ++ _) (addresses_congr inv.old same)
    have fresh : NetAddr.unmap addr ∉ r.addresses r.server.peerList := fun mem => by
      obtain ⟨p, there, atAddr⟩ := List.mem_map.mp mem
      exact absent p there atAddr
    refine inv.touch same (by rw [server]; exact Nat.le_succ _) (by rw [server]) history since ?_ ?_ ?_ ?_ ?_
    · intro p mem
      rw [list, List.mem_append, List.mem_singleton] at mem
      rw [server]
      rcases mem with before | rfl
      · exact (inv.old p before).trans (Nat.lt_succ_self _)
      · exact Nat.lt_succ_self _
    · simp [shown]
    · intro other apart
      simp [shown, apart]
    · intro p mem _
      rw [list]
      exact List.mem_append_left _ mem
    · rw [shown]
      exact List.nodup_append.mpr ⟨inv.once, List.nodup_singleton _, fun x mem y single => by
        rw [List.mem_singleton.mp single]
        exact fun eq => fresh (eq ▸ mem)⟩

omit [NetAddr A] in
theorem mem_eraseP_of_nodup (f : Ptr → A) (a : A) : ∀ {l : List Ptr}, (l.map f).Nodup →
    ∀ p, p ∈ l.eraseP (fun q => f q = a) ↔ p ∈ l ∧ f p ≠ a
  | [], _, p => by simp
  | q :: l, once, p => by
    rw [List.map_cons, List.nodup_cons] at once
    by_cases hit : f q = a
    · rw [List.eraseP_cons_of_pos (by simpa using hit)]
      constructor
      · intro mem
        exact ⟨.tail _ mem, fun same => once.1 (List.mem_map.mpr ⟨p, mem, same.trans hit.symm⟩)⟩
      · rintro ⟨mem, other⟩
        exact (List.mem_cons.mp mem).resolve_left fun eq => other (eq ▸ hit)
    · rw [List.eraseP_cons_of_neg (by simpa using hit), List.mem_cons, mem_eraseP_of_nodup f a once.2,
        List.mem_cons]
      constructor
      · rintro (rfl | ⟨mem, other⟩)
        · exact ⟨.inl rfl, hit⟩
        · exact ⟨.inr mem, other⟩
      · rintro ⟨rfl | mem, other⟩
        · exact .inl rfl
        · exact .inr ⟨mem, other⟩

theorem Inv.remove (inv : r.Inv) (ip : A) : (r.step (.remove ip)).Inv := by
  have list : ∀ p, p ∈ (r.step (.remove ip)).server.peerList ↔
      p ∈ r.server.peerList ∧ r.server.address p ≠ NetAddr.unmap ip := by
    intro p
    have once : (r.server.peerList.reverse.map r.server.address).Nodup := by
      rw [List.map_reverse]
      exact List.nodup_reverse.mpr inv.once
    have erased := mem_eraseP_of_nodup r.server.address (NetAddr.unmap ip) once p
    rw [List.mem_reverse] at erased
    simpa [step, act, removeFromPeerList] using erased
  have shown : ∀ addr, addr ∈ (r.step (.remove ip)).addresses (r.step (.remove ip)).server.peerList ↔
      addr ∈ r.addresses r.server.peerList ∧ addr ≠ NetAddr.unmap ip := by
    intro addr
    simp only [addresses, List.mem_map, list]
    constructor
    · rintro ⟨p, ⟨mem, other⟩, rfl⟩
      exact ⟨⟨p, mem, rfl⟩, other⟩
    · rintro ⟨⟨p, mem, rfl⟩, other⟩
      exact ⟨p, ⟨mem, other⟩, rfl⟩
  refine inv.touch (a := NetAddr.unmap ip) (b := false) (fun _ _ => rfl) le_rfl rfl rfl rfl
    (fun p mem => inv.old p ((list p).mp mem).1) ?_ (fun addr other => ?_) (fun p mem other => ?_) ?_
  · simp [shown]
  · simp [shown, other]
  · exact (list p).mpr ⟨mem, other⟩
  · have sub : (r.step (.remove ip)).server.peerList.Sublist r.server.peerList := by
      have := (List.eraseP_sublist (p := fun q => decide (r.server.address q = NetAddr.unmap ip))
        (l := r.server.peerList.reverse)).reverse
      rwa [List.reverse_reverse] at this
    exact inv.once.sublist (sub.map _)

theorem Inv.refresh (inv : r.Inv) : (r.step .refresh).Inv := by
  have effect : (∀ p, r.server.refresh.address p = r.server.address p) ∧
      r.server.refresh.next = r.server.next ∧ r.server.refresh.peerList = r.server.peerList ∧
      ∀ pass', r.server.refresh.pass = some pass' → ∃ pass, r.server.pass = some pass ∧
        pass'.rest = pass.rest ∧ pass'.peerList2 = pass.peerList2 := by
    unfold PeerServer.refresh
    split
    · next pass running =>
        split
        · refine ⟨fun p => ?_, ?_, ?_, fun pass' now => ?_⟩
          · dsimp only
            split_ifs
            · simp only [address, PeerServer.modify, Function.update_apply]
              split_ifs with same
              · rw [same]
              · rfl
            · rfl
          · dsimp only
            split_ifs <;> rfl
          · dsimp only
            split_ifs <;> rfl
          · cases now
            exact ⟨pass, running, rfl, rfl⟩
        · exact ⟨fun _ => rfl, rfl, rfl, fun pass' now => ⟨pass', now, rfl, rfl⟩⟩
    · exact ⟨fun _ => rfl, rfl, rfl, fun pass' now => ⟨pass', now, rfl, rfl⟩⟩
  obtain ⟨same, next, list, pass⟩ := effect
  exact inv.calm same next list rfl rfl pass

theorem Inv.snapshot (inv : r.Inv) (currentTime : UInt64) (connectedPeers : List A) :
    (r.step (.snapshot currentTime connectedPeers)).Inv := by
  cases running : r.server.pass with
  | some pass =>
    have server : r.server.snapshot currentTime connectedPeers = r.server := by
      rw [PeerServer.snapshot, running]
    have same : r.step (.snapshot currentTime connectedPeers) = r := by
      simp only [step, act, server, noted, running]
    rwa [same]
  | none =>
    have server : r.server.snapshot currentTime connectedPeers =
        { r.server with pass := some ⟨currentTime, connectedPeers, r.server.peerList, false, r.server.peerList, 0⟩ } := by
      rw [PeerServer.snapshot, running]
    have stepped : r.step (.snapshot currentTime connectedPeers) =
        ⟨{ r.server with pass := some ⟨currentTime, connectedPeers, r.server.peerList, false, r.server.peerList, 0⟩ },
          r.history, fun _ => none⟩ := by
      simp only [step, act, server, noted, running]
    rw [stepped]
    refine ⟨⟨inv.added, inv.removed, inv.once⟩, inv.old, fun pass now => ?_⟩
    cases now
    exact ⟨inv.old, inv.old, inv.once, inv.once, fun p mem _ => mem,
      fun _ _ last => (nomatch last), fun _ _ => .inr Iff.rfl⟩

/-- What looking at an entry does: nothing, or the entry is not expired, or it is, and the
history notes it if it is still the one of the list. -/
theorem judge_cases (r : PeerRun A) : r.step .judge = r ∨
    ∃ pass p rest, r.server.pass = some pass ∧ pass.rest = p :: rest ∧ ((r.step .judge =
          ⟨{ r.server with pass := some (pass.judged rest pass.peerList2 pass.deletedPeers) }, r.history, r.since⟩) ∨
        (p ∈ r.server.peerList ∧ r.step .judge =
          ⟨{ r.server with pass := some (pass.judged rest
              (r.server.delete pass.peerList2 (r.server.address p)) (pass.deletedPeers + 1)) },
            Function.update r.history (r.server.address p) none,
            Function.update r.since (r.server.address p) none⟩) ∨
        (p ∉ r.server.peerList ∧ r.step .judge =
          ⟨{ r.server with pass := some (pass.judged rest
              (r.server.delete pass.peerList2 (r.server.address p)) (pass.deletedPeers + 1)) },
            r.history, r.since⟩)) := by
  cases running : r.server.pass with
  | none =>
    refine .inl ?_
    simp only [step, act, PeerServer.judge, noted, expires, running]
  | some pass =>
    cases refreshed : pass.refreshed with
    | false =>
      refine .inl ?_
      simp only [step, act, PeerServer.judge, noted, expires, running, refreshed]
    | true =>
      cases front : pass.rest with
      | nil =>
        refine .inl ?_
        simp only [step, act, PeerServer.judge, noted, expires, running, refreshed, front]
      | cons p rest =>
        refine .inr ⟨pass, p, rest, rfl, front, ?_⟩
        by_cases expired : r.server.Expired pass p
        · by_cases there : p ∈ r.server.peerList
          · refine .inr (.inl ⟨there, ?_⟩)
            simp only [step, act, PeerServer.judge, noted, expires, running, refreshed, front, expired,
              there, if_true, and_self]
          · refine .inr (.inr ⟨there, ?_⟩)
            simp only [step, act, PeerServer.judge, noted, expires, running, refreshed, front, expired,
              there, if_true, and_false, if_false]
        · refine .inl ?_
          simp only [step, act, PeerServer.judge, noted, expires, running, refreshed, front, expired,
            false_and, if_false]

omit [NetAddr A] in
theorem mem_delete (r : PeerRun A) (l : List Ptr) (a addr : A) :
    addr ∈ r.addresses (r.server.delete l a) ↔ addr ∈ r.addresses l ∧ addr ≠ a := by
  simp only [addresses, PeerServer.delete, List.mem_map, List.mem_filter, decide_eq_true_eq]
  constructor
  · rintro ⟨p, ⟨mem, other⟩, rfl⟩
    exact ⟨⟨p, mem, rfl⟩, other⟩
  · rintro ⟨⟨p, mem, rfl⟩, other⟩
    exact ⟨p, ⟨mem, other⟩, rfl⟩

theorem Inv.judge (inv : r.Inv) : (r.step .judge).Inv := by
  rcases r.judge_cases with same | ⟨pass, p, rest, running, front, cases⟩
  · rwa [same]
  obtain ⟨restOld, copyOld, restOnce, copyOnce, current, sinceHistory, untouched⟩ := inv.pass pass running
  rw [front] at restOld restOnce current
  have restOld' : ∀ q ∈ rest, q < r.server.next := fun q mem => restOld q (.tail _ mem)
  have current' : ∀ q ∈ rest, r.since (r.server.address q) = none → q ∈ r.server.peerList :=
    fun q mem => current q (.tail _ mem)
  obtain ⟨first, restOnce'⟩ := List.nodup_cons.mp restOnce
  have shorter : (r.server.delete pass.peerList2 (r.server.address p)).Sublist pass.peerList2 :=
    List.filter_sublist
  have copyOld' : ∀ q ∈ r.server.delete pass.peerList2 (r.server.address p), q < r.server.next :=
    fun q mem => copyOld q (shorter.subset mem)
  have copyOnce' := copyOnce.sublist (shorter.map r.server.address)
  rcases cases with stepped | ⟨there, stepped⟩ | ⟨gone, stepped⟩
  · -- not expired: the copy stays
    rw [stepped]
    refine ⟨⟨inv.added, inv.removed, inv.once⟩, inv.old, fun pass' now => ?_⟩
    cases now
    exact ⟨restOld', copyOld, restOnce', copyOnce, current', sinceHistory, untouched⟩
  · -- expired, and noted as such: nothing is asked of the address
    rw [stepped]
    refine ⟨⟨fun addr last => ?_, fun addr last => ?_, inv.once⟩, inv.old, fun pass' now => ?_⟩
    · dsimp only at last
      rw [Function.update_apply] at last
      split_ifs at last
      exact inv.added addr last
    · dsimp only at last
      rw [Function.update_apply] at last
      split_ifs at last
      exact inv.removed addr last
    · cases now
      refine ⟨restOld', copyOld', restOnce', copyOnce', fun q mem none => ?_, fun addr b last => ?_,
        fun addr none => ?_⟩
      · have apart : r.server.address q ≠ r.server.address p := fun eq =>
          first (List.mem_map.mpr ⟨q, mem, eq⟩)
        exact current' q mem ((Function.update_of_ne apart _ _).symm.trans none)
      · dsimp only at last ⊢
        rw [Function.update_apply] at last ⊢
        split_ifs at last ⊢
        exact sinceHistory addr b last
      · dsimp only at none ⊢
        rw [Function.update_apply] at none ⊢
        split_ifs at none ⊢ with this
        · exact .inl rfl
        · refine (untouched addr none).imp_right fun same => same.trans ?_
          exact (and_iff_left this).symm.trans (mem_delete r _ _ _).symm
  · -- an entry that the list no longer holds: something happened to its address
    rw [stepped]
    refine ⟨⟨inv.added, inv.removed, inv.once⟩, inv.old, fun pass' now => ?_⟩
    cases now
    refine ⟨restOld', copyOld', restOnce', copyOnce', current', sinceHistory, fun addr none => ?_⟩
    have apart : addr ≠ r.server.address p := fun eq =>
      gone (current p List.mem_cons_self (eq ▸ none))
    refine (untouched addr none).imp_right fun same => same.trans ?_
    exact (and_iff_left apart).symm.trans (mem_delete r _ _ _).symm

theorem store_cases (r : PeerRun A) : r.step .store = r ∨ ∃ pass, r.server.pass = some pass ∧ pass.rest = [] ∧
      ((pass.deletedPeers > 0 ∧ r.step .store =
          ⟨{ r.server with peerList := pass.peerList2, pass := none }, r.history, r.since⟩) ∨
        (¬ pass.deletedPeers > 0 ∧ r.step .store = ⟨{ r.server with pass := none }, r.history, r.since⟩)) := by
  cases running : r.server.pass with
  | none =>
    refine .inl ?_
    simp only [step, act, PeerServer.store, noted, running]
  | some pass =>
    cases front : pass.rest with
    | cons p rest =>
      refine .inl ?_
      simp only [step, act, PeerServer.store, noted, running, front]
    | nil =>
      refine .inr ⟨pass, rfl, front, ?_⟩
      by_cases deleted : pass.deletedPeers > 0
      · refine .inl ⟨deleted, ?_⟩
        simp only [step, act, PeerServer.store, noted, running, front, deleted, if_true]
      · refine .inr ⟨deleted, ?_⟩
        simp only [step, act, PeerServer.store, noted, running, front, deleted, if_false]

/-- Storing what is left of the copy agrees with the history exactly if it agrees with the
history since the copy was taken. -/
theorem kept_store_iff (inv : r.Inv) : (r.step .store).Kept ↔ r.StoreOk .store := by
  rcases store_cases r with same | ⟨pass, running, front, ⟨deleted, stepped⟩ | ⟨none, stepped⟩⟩
  · rw [same]
    refine iff_of_true inv.toKept fun pass running front deleted => ?_
    -- a pass that is ready to store ends
    have : (r.step .store).server.pass = none := by
      simp only [step, act, PeerServer.store, running, front, deleted, if_true]
    rw [same, running] at this
    cases this
  · have passInv := inv.pass pass running
    rw [stepped]
    constructor
    · intro kept pass' running' _ _ addr
      rw [running] at running'
      cases running'
      exact ⟨fun added => kept.added addr (passInv.sinceHistory addr true added),
        fun removed => kept.removed addr (passInv.sinceHistory addr false removed)⟩
    · intro ok
      have agrees := ok pass running front deleted
      refine ⟨fun addr last => ?_, fun addr last => ?_, passInv.copyOnce⟩
      · cases recent : r.since addr with
        | none =>
          have same := (passInv.untouched addr recent).resolve_left (by rw [last]; exact Option.some_ne_none _)
          exact same.mp (inv.added addr last)
        | some b =>
          obtain rfl : b = true := Option.some.inj ((passInv.sinceHistory addr b recent).symm.trans last)
          exact (agrees addr).1 recent
      · cases recent : r.since addr with
        | none =>
          have same := (passInv.untouched addr recent).resolve_left (by rw [last]; exact Option.some_ne_none _)
          exact fun mem => inv.removed addr last (same.mpr mem)
        | some b =>
          obtain rfl : b = false := Option.some.inj ((passInv.sinceHistory addr b recent).symm.trans last)
          exact (agrees addr).2 recent
  · rw [stepped]
    refine iff_of_true ⟨inv.added, inv.removed, inv.once⟩ fun pass' running' _ deleted => ?_
    rw [running] at running'
    cases running'
    exact (none deleted).elim

theorem Inv.store (inv : r.Inv) (kept : (r.step .store).Kept) : (r.step .store).Inv := by
  rcases store_cases r with same | ⟨pass, running, front, ⟨deleted, stepped⟩ | ⟨none, stepped⟩⟩
  · rwa [same]
  · refine ⟨kept, ?_, ?_⟩
    · rw [stepped]
      exact (inv.pass pass running).copyOld
    · rw [stepped]
      exact fun _ now => nomatch now
  · refine ⟨kept, ?_, ?_⟩
    · rw [stepped]
      exact inv.old
    · rw [stepped]
      exact fun _ now => nomatch now

theorem Inv.step (inv : r.Inv) (a : Action A) (kept : a = .store → (r.step a).Kept) : (r.step a).Inv := by
  cases a with
  | add addr port banned now =>
    exact inv.insert (fun e => { e with lastSeenTimestamp := now }) (fun _ => rfl) addr port banned now
      rfl rfl rfl
  | updateIn addr port banned now =>
    exact inv.insert (fun e => { e with failedConnections := 0, lastSeenTimestamp := now }) (fun _ => rfl)
      addr port banned now rfl rfl rfl
  | remove ip => exact inv.remove ip
  | snapshot currentTime connectedPeers => exact inv.snapshot currentTime connectedPeers
  | refresh => exact inv.refresh
  | judge => exact inv.judge
  | store => exact inv.store (kept rfl)

end Invariant

omit [DecidableEq A] [NetAddr A] in
theorem inv_start (useIPv4 useIPv6 : Bool) (blank : PeerListEntry A) : (start useIPv4 useIPv6 blank).Inv where
  added _ last := nomatch last
  removed _ last := nomatch last
  once := List.nodup_nil
  old _ mem := nomatch mem
  pass _ running := nomatch running

/-- In every run the list agrees with its history after each step, exactly if each store of a
filtered copy agrees with what was added and removed since the copy was taken. -/
theorem peerList_kept_iff (useIPv4 useIPv6 : Bool) (blank : PeerListEntry A) (actions : List (Action A)) :
    EachStep step (fun r a => (r.step a).Kept) (start useIPv4 useIPv6 blank) actions ↔
      EachStep step StoreOk (start useIPv4 useIPv6 blank) actions := by
  refine eachStep_iff (I := Inv) (fun r a inv kept => inv.step a fun _ => kept) (fun r a inv => ?_) actions
    (inv_start useIPv4 useIPv6 blank)
  by_cases storing : a = .store
  · subst storing
    exact kept_store_iff inv
  · have ok : r.StoreOk a := by
      cases a with
      | store => exact absurd rfl storing
      | _ => trivial
    exact iff_of_true (inv.step a fun eq => absurd eq storing).toKept ok

namespace LostUpdate

@[reducible] def numbers : NetAddr Nat := ⟨id, fun _ => false, fun _ => true, fun _ => false⟩

def final (actions : List (Action Nat)) : PeerRun Nat :=
  actions.foldl (@step Nat _ numbers) (start true true ⟨0, 0, 0, 0⟩)

/-- While the copy with the old peer 1 is looked at, peer 2 is added. -/
def added : List (Action Nat) :=
  [.add 1 1 false 0, .snapshot 4000 [], .add 2 1 false 4000, .refresh, .judge, .store]

/-- While the copy with the old peer 1 and with peer 2 is looked at, peer 2 is removed. -/
def removed : List (Action Nat) :=
  [.add 1 1 false 0, .add 2 1 false 4000, .snapshot 4000 [], .remove 2, .refresh, .judge, .refresh, .judge, .store]

end LostUpdate

/-- Both updates are undone by the store. -/
theorem peerList_loses_updates :
    (LostUpdate.final LostUpdate.added).history 2 = some true ∧
    2 ∉ (LostUpdate.final LostUpdate.added).addresses (LostUpdate.final LostUpdate.added).server.peerList ∧
    (LostUpdate.final LostUpdate.removed).history 2 = some false ∧
    2 ∈ (LostUpdate.final LostUpdate.removed).addresses (LostUpdate.final LostUpdate.removed).server.peerList := by
  decide

end PeerRun

end P2PoolObserver
