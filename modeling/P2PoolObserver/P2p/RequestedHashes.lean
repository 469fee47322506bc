/-
# P2p.RequestedHashes -- which missing blocks a client has asked for (`client.go`)

A client keeps the last 16 hashes it requested in a ring, and does not request a hash in the
ring.  The hash is put in the ring first; then the fastest client may be asked for the block
too, and at last the request is sent, unless 80 requests are pending or the client is closed.
Neither takes the hash out of the ring again.

The clients of a server call each other, and a call may add blocks to the side chain and go on
with what these miss.  A call in progress is the stack of what it still has to do (`BlockTask`),
and calls may interleave.
-/
import P2PoolObserver.Lib.Trace
import P2PoolObserver.Utils
import Mathlib.Logic.Function.Basic

namespace P2PoolObserver

open Lib

/-- A client, with the ids of the BLOCK_REQUEST messages written to its connection. -/
structure RequestingClient where
  requestedHashes : CircularBuffer Hash
  blockPendingRequests : List Hash
  closed : Bool
  sent : List Hash
  deriving DecidableEq

def newRequestingClient : RequestingClient := ⟨.new 16 zeroHash, [], false, []⟩

/-- What the calls use of the rest of the node: whether a block is stored; `GetCachedBlock` with
`AddPoolBlockExternal`, which gives the missing blocks if there is a cached block and it was added
without an error; whether the initial sync is finished; the fastest client; and the outcome of a
write to a connection. -/
structure RequestWorld (σ ι : Type) where
  stored : σ → Hash → Bool
  addCached : σ → Hash → Option (List Hash) × σ
  preCalcFinished : σ → Bool
  getFastestClient : σ → Option ι
  write : σ → ι → Hash → Bool × σ

inductive BlockTask (ι : Type) where
  | missing (c : ι) (hash : Hash)
  | unique (c : ι) (hash : Hash)
  | request (c : ι) (id : Hash) (bound : Nat)
  deriving DecidableEq

inductive ResponseResult where
  | banned
  | handled (missingBlocks : List Hash)
  deriving DecidableEq

/-- The clients, the rest of the node, and the calls in progress, each with the task to do next
first. -/
structure RequestState (σ ι : Type) where
  clients : ι → RequestingClient
  world : σ
  calls : List (List (BlockTask ι))

namespace RequestState

variable {σ ι : Type} [DecidableEq ι] (env : RequestWorld σ ι)

def start (world : σ) : RequestState σ ι := ⟨fun _ => newRequestingClient, world, []⟩

def setClient (s : RequestState σ ι) (c : ι) (client : RequestingClient) : RequestState σ ι :=
  { s with clients := Function.update s.clients c client }

def close (s : RequestState σ ι) (c : ι) : RequestState σ ι := s.setClient c { s.clients c with closed := true }

def sendMessage (s : RequestState σ ι) (c : ι) (id : Hash) : RequestState σ ι :=
  if (s.clients c).closed then s
  else
    let (written, world) := env.write s.world c id
    let s := { s with world }
    if written then s.setClient c { s.clients c with sent := (s.clients c).sent ++ [id] } else s.close c

def sendBlockRequestWithBound (s : RequestState σ ι) (c : ι) (id : Hash) (bound : Nat) : RequestState σ ι :=
  if (s.clients c).blockPendingRequests.length < bound then
    (s.setClient c { s.clients c with
      blockPendingRequests := (s.clients c).blockPendingRequests ++ [id] }).sendMessage env c id
  else s

def sendUniqueBlockRequest (s : RequestState σ ι) (c : ι) (hash : Hash) : RequestState σ ι × List (BlockTask ι) :=
  if hash = zeroHash then (s, [])
  else
    match (s.clients c).requestedHashes.pushUnique hash with
    | none => (s, [])
    | some ring => (s.setClient c { s.clients c with requestedHashes := ring }, [.request c hash 80])

def askFastest (s : RequestState σ ι) (c : ι) (hash : Hash) : List (BlockTask ι) :=
  if env.preCalcFinished s.world then []
  else
    match env.getFastestClient s.world with
    | none => []
    | some fastest => if c ≠ fastest then [.missing fastest hash] else []

def sendMissingBlockRequest (s : RequestState σ ι) (c : ι) (hash : Hash) : RequestState σ ι × List (BlockTask ι) :=
  if hash = zeroHash ∨ env.stored s.world hash then (s, [])
  else
    let (missingBlocks, world) := env.addCached s.world hash
    let s := { s with world }
    match missingBlocks with
    | some missingBlocks => (s, missingBlocks.map (.missing c))
    | none =>
      match (s.clients c).requestedHashes.pushUnique hash with
      | none => (s, [])
      | some ring =>
        (s.setClient c { s.clients c with requestedHashes := ring }, s.askFastest env c hash ++ [.request c hash 80])

def perform (s : RequestState σ ι) : BlockTask ι → RequestState σ ι × List (BlockTask ι)
  | .missing c hash => s.sendMissingBlockRequest env c hash
  | .unique c hash => s.sendUniqueBlockRequest c hash
  | .request c id bound => (s.sendBlockRequestWithBound env c id bound, [])

def blockResponse (s : RequestState σ ι) (c : ι) (world : σ) (result : ResponseResult) : RequestState σ ι :=
  match (s.clients c).blockPendingRequests with
  | [] => s.close c
  | _ :: pending =>
    let s := { s.setClient c { s.clients c with blockPendingRequests := pending } with world }
    match result with
    | .banned => s.close c
    | .handled missingBlocks => { s with calls := s.calls ++ [missingBlocks.map (.missing c)] }

/-- A call begins, a response comes, a client closes, the rest of the node moves on, or the call
`g` does its next task. -/
inductive Action (σ ι : Type) where
  | call (task : BlockTask ι)
  | blockResponse (c : ι) (world : σ) (result : ResponseResult)
  | close (c : ι)
  | world (w : σ)
  | run (g : Nat)

def step (s : RequestState σ ι) : Action σ ι → RequestState σ ι
  | .call task => { s with calls := s.calls ++ [[task]] }
  | .blockResponse c world result => s.blockResponse c world result
  | .close c => s.close c
  | .world w => { s with world := w }
  | .run g =>
    match s.calls[g]? with
    | some (task :: rest) =>
      let (s', tasks) := s.perform env task
      { s' with calls := s.calls.set g (tasks ++ rest) }
    | _ => s

/-! ## Marked hashes -/

def Underway (calls : List (List (BlockTask ι))) (c : ι) (h : Hash) : Prop :=
  ∃ call ∈ calls, ∃ bound, BlockTask.request c h bound ∈ call

def Requested (s : RequestState σ ι) : Prop :=
  ∀ c, ∀ h ∈ (s.clients c).requestedHashes.buffer, h ≠ zeroHash →
    h ∈ (s.clients c).sent ∨ Underway s.calls c h

def Sends (s : RequestState σ ι) (c : ι) (id : Hash) (bound : Nat) : Prop :=
  (s.clients c).blockPendingRequests.length < bound ∧ (s.clients c).closed = false ∧
    (env.write s.world c id).1 = true

def SendsMarked (s : RequestState σ ι) : Action σ ι → Prop
  | .run g => ∀ c h bound rest, s.calls[g]? = some (.request c h bound :: rest) →
      h ∈ (s.clients c).requestedHashes.buffer → h ≠ zeroHash → h ∉ (s.clients c).sent →
      s.Sends env c h bound ∨ Underway (s.calls.set g rest) c h
  | _ => True

variable {env} {s : RequestState σ ι}
variable {task : BlockTask ι} {g : Nat} {rest : List (BlockTask ι)}

omit [DecidableEq ι] in
theorem Underway.set {calls : List (List (BlockTask ι))} {c : ι} {h : Hash} (under : Underway calls c h)
    {g : Nat} {task : BlockTask ι} {rest : List (BlockTask ι)} (here : calls[g]? = some (task :: rest))
    (tasks : List (BlockTask ι)) :
    (∃ bound, task = .request c h bound) ∨ Underway (calls.set g (tasks ++ rest)) c h := by
  obtain ⟨call, mem, bound, waits⟩ := under
  obtain ⟨i, found⟩ := List.mem_iff_getElem?.mp mem
  by_cases same : i = g
  · subst same
    obtain rfl := Option.some.inj (found.symm.trans here)
    rcases List.mem_cons.mp waits with rfl | later
    · exact .inl ⟨bound, rfl⟩
    · exact .inr ⟨tasks ++ rest, List.mem_set (List.getElem?_eq_some_iff.mp here).1 _,
        bound, List.mem_append_right _ later⟩
  · refine .inr ⟨call, List.mem_iff_getElem?.mpr ⟨i, ?_⟩, bound, waits⟩
    rw [List.getElem?_set_ne (Ne.symm same), found]

omit [DecidableEq ι] in
theorem Underway.append {calls : List (List (BlockTask ι))} {c : ι} {h : Hash} (under : Underway calls c h)
    (more : List (List (BlockTask ι))) : Underway (calls ++ more) c h := by
  obtain ⟨call, mem, waits⟩ := under
  exact ⟨call, List.mem_append_left _ mem, waits⟩

omit [DecidableEq ι] in
theorem Requested.mono (requested : s.Requested) {s' : RequestState σ ι}
    (rings : ∀ c, ∀ h ∈ (s'.clients c).requestedHashes.buffer,
      h ∈ (s.clients c).requestedHashes.buffer ∨ Underway s'.calls c h)
    (sent : ∀ c, (s.clients c).sent ⊆ (s'.clients c).sent)
    (under : ∀ c h, Underway s.calls c h → Underway s'.calls c h) : s'.Requested := by
  intro c h marked nonzero
  rcases rings c h marked with before | underway
  · rcases requested c h before nonzero with done | underway
    · exact .inl (sent c done)
    · exact .inr (under c h underway)
  · exact .inr underway

theorem clients_close (c c' : ι) : ((s.close c).clients c').requestedHashes = (s.clients c').requestedHashes ∧
      ((s.close c).clients c').sent = (s.clients c').sent := by
  by_cases same : c' = c
  · subst same
    simp [close, setClient]
  · simp [close, setClient, same]

theorem requested_close (requested : s.Requested) (c : ι) : (s.close c).Requested :=
  requested.mono (fun c' h marked => .inl (by rwa [(clients_close c c').1] at marked))
    (fun c' => by rw [(clients_close c c').2]; exact fun _ mem => mem) fun _ _ under => under

theorem requested_setPending (requested : s.Requested) (c : ι) (pending : List Hash) :
    (s.setClient c { s.clients c with blockPendingRequests := pending }).Requested := by
  have same : ∀ c', ((s.setClient c { s.clients c with blockPendingRequests := pending }).clients c').requestedHashes =
      (s.clients c').requestedHashes ∧
      ((s.setClient c { s.clients c with blockPendingRequests := pending }).clients c').sent =
        (s.clients c').sent := by
    intro c'
    by_cases here : c' = c
    · subst here
      simp [setClient]
    · simp [setClient, here]
  exact requested.mono (fun c' h marked => .inl (by rwa [(same c').1] at marked))
    (fun c' => by rw [(same c').2]; exact fun _ mem => mem) fun _ _ under => under

theorem requested_blockResponse (requested : s.Requested) (c : ι) (world : σ) (result : ResponseResult) :
    (s.blockResponse c world result).Requested := by
  unfold blockResponse
  split
  · exact requested_close requested c
  · next _ pending _ =>
      have popped := requested_setPending requested c pending
      have moved : ({ s.setClient c { s.clients c with blockPendingRequests := pending } with world } :
          RequestState σ ι).Requested := popped
      cases result with
      | banned => exact requested_close moved c
      | handled missingBlocks =>
        exact moved.mono (fun _ _ marked => .inl marked) (fun _ _ mem => mem) fun _ _ under => under.append _

theorem perform_cases (env : RequestWorld σ ι) (s : RequestState σ ι)
    (other : ∀ c id bound, task ≠ .request c id bound) : (s.perform env task).1.clients = s.clients ∨
    ∃ c hash ring, (s.clients c).requestedHashes.pushUnique hash = some ring ∧
      (s.perform env task).1.clients = Function.update s.clients c { s.clients c with requestedHashes := ring } ∧
      .request c hash 80 ∈ (s.perform env task).2 := by
  cases task with
  | request c id bound => exact absurd rfl (other c id bound)
  | unique c hash =>
    unfold perform sendUniqueBlockRequest
    dsimp only
    split_ifs
    · exact .inl rfl
    · split
      · exact .inl rfl
      · next ring pushed => exact .inr ⟨c, hash, ring, pushed, rfl, List.mem_singleton_self _⟩
  | missing c hash =>
    unfold perform sendMissingBlockRequest
    dsimp only
    split_ifs
    · exact .inl rfl
    · split
      · exact .inl rfl
      · split
        · exact .inl rfl
        · next ring pushed =>
            exact .inr ⟨c, hash, ring, pushed, rfl, List.mem_append_right _ (List.mem_singleton_self _)⟩

theorem clients_sendMessage (env : RequestWorld σ ι) (s : RequestState σ ι) (c : ι) (id : Hash) (c' : ι) :
    ((s.sendMessage env c id).clients c').requestedHashes = (s.clients c').requestedHashes ∧
      ∀ h, h ∈ ((s.sendMessage env c id).clients c').sent ↔ h ∈ (s.clients c').sent ∨
        (c' = c ∧ h = id ∧ (s.clients c).closed = false ∧ (env.write s.world c id).1 = true) := by
  unfold sendMessage
  split_ifs with closed
  · simp [closed]
  · dsimp only
    split_ifs with written
    · by_cases here : c' = c
      · subst here
        simp [setClient, closed, written]
      · simp [setClient, here]
    · obtain ⟨ring, sent⟩ := clients_close (s := { s with world := (env.write s.world c id).2 }) c c'
      rw [ring, sent]
      simp [written]

theorem clients_sendBlockRequest (env : RequestWorld σ ι) (s : RequestState σ ι) (c : ι) (id : Hash) (bound : Nat) (c' : ι) :
    ((s.sendBlockRequestWithBound env c id bound).clients c').requestedHashes = (s.clients c').requestedHashes ∧
      ∀ h, h ∈ ((s.sendBlockRequestWithBound env c id bound).clients c').sent ↔
        h ∈ (s.clients c').sent ∨ (c' = c ∧ h = id ∧ s.Sends env c id bound) := by
  unfold sendBlockRequestWithBound Sends
  split_ifs with room
  · obtain ⟨ring, sent⟩ := clients_sendMessage env (s.setClient c { s.clients c with
      blockPendingRequests := (s.clients c).blockPendingRequests ++ [id] }) c id c'
    rw [ring]
    simp only [sent]
    by_cases here : c' = c
    · subst here
      simp [setClient, room]
    · simp [setClient, here]
  · simp [room]

theorem step_run (here : s.calls[g]? = some (task :: rest)) : s.step env (.run g) =
      { (s.perform env task).1 with calls := s.calls.set g ((s.perform env task).2 ++ rest) } := by
  rw [step, here]

theorem requested_run_other (requested : s.Requested)
    (here : s.calls[g]? = some (task :: rest)) (other : ∀ c id bound, task ≠ .request c id bound) :
    (s.step env (.run g)).Requested := by
  rw [step_run here]
  have kept : ∀ c h, Underway s.calls c h → Underway (s.calls.set g ((s.perform env task).2 ++ rest)) c h := by
    intro c h under
    rcases under.set here (s.perform env task).2 with ⟨bound, request⟩ | still
    · exact absurd request (other c h bound)
    · exact still
  rcases perform_cases env s other with same | ⟨c, hash, ring, pushed, clients, next⟩
  · refine requested.mono (fun c h marked => Or.inl ?_) (fun c => ?_) kept
    · rwa [same] at marked
    · rw [same]
      exact fun _ mem => mem
  · have there : Underway (s.calls.set g ((s.perform env task).2 ++ rest)) c hash :=
      ⟨_, List.mem_set (List.getElem?_eq_some_iff.mp here).1 _, 80, List.mem_append_left rest next⟩
    refine requested.mono (fun c' h marked => ?_) (fun c' => ?_) kept
    · rw [clients] at marked
      by_cases same : c' = c
      · subst same
        rw [Function.update_self] at marked
        rcases CircularBuffer.mem_of_pushUnique pushed marked with rfl | before
        · exact .inr there
        · exact .inl before
      · rw [Function.update_of_ne same] at marked
        exact .inl marked
    · rw [clients]
      by_cases same : c' = c
      · subst same
        rw [Function.update_self]
        exact fun _ mem => mem
      · rw [Function.update_of_ne same]
        exact fun _ mem => mem

theorem requested_run_request (requested : s.Requested) {c : ι} {id : Hash} {bound : Nat}
    (here : s.calls[g]? = some (.request c id bound :: rest)) :
    (s.step env (.run g)).Requested ↔ s.SendsMarked env (.run g) := by
  rw [step_run here]
  have frame := clients_sendBlockRequest env s c id bound
  constructor
  · intro after c' h bound' rest' same marked nonzero unsent
    cases here.symm.trans same
    rcases after c id (by rw [← (frame c).1] at marked; exact marked) nonzero with done | under
    · rcases ((frame c).2 id).mp done with before | ⟨-, -, sends⟩
      · exact absurd before unsent
      · exact .inl sends
    · exact .inr under
  · intro sends c' h marked nonzero
    have before : h ∈ (s.clients c').requestedHashes.buffer := by
      rw [← (frame c').1]
      exact marked
    have done : h ∈ (s.clients c').sent → h ∈ ((s.sendBlockRequestWithBound env c id bound).clients c').sent :=
      fun mem => ((frame c').2 h).mpr (.inl mem)
    rcases requested c' h before nonzero with sent | under
    · exact .inl (done sent)
    · rcases under.set here [] with ⟨bound', request⟩ | still
      · cases request
        by_cases sent : id ∈ (s.clients c).sent
        · exact .inl (done sent)
        · rcases sends c id bound rest here before nonzero sent with now | other
          · exact .inl (((frame c).2 id).mpr (.inr ⟨rfl, rfl, now⟩))
          · exact .inr other
      · exact .inr still

theorem requested_run_iff (requested : s.Requested) (g : Nat) :
    (s.step env (.run g)).Requested ↔ s.SendsMarked env (.run g) := by
  have idle : (∀ task rest, s.calls[g]? ≠ some (task :: rest)) →
      ((s.step env (.run g)).Requested ↔ s.SendsMarked env (.run g)) := by
    intro none
    have same : s.step env (.run g) = s := by
      rw [step]
      split
      · next task rest here => exact absurd here (none task rest)
      · rfl
    rw [same]
    exact ⟨fun _ c h bound rest here => absurd here (none _ rest), fun _ => requested⟩
  cases here : s.calls[g]? with
  | none => exact idle fun _ _ => by rw [here]; nofun
  | some call =>
    cases call with
    | nil => exact idle fun _ _ => by rw [here]; nofun
    | cons task rest =>
      by_cases request : ∃ c id bound, task = .request c id bound
      · obtain ⟨c, id, bound, rfl⟩ := request
        exact requested_run_request requested here
      · have other : ∀ c id bound, task ≠ .request c id bound := fun c id bound same =>
          request ⟨c, id, bound, same⟩
        refine ⟨fun _ c h bound rest' same => ?_, fun _ => requested_run_other requested here other⟩
        rw [here] at same
        exact absurd (List.cons.inj (Option.some.inj same)).1 (other c h bound)

/-- In a run from new clients, every hash marked as requested was sent or is about to be after every
action, exactly if every request for a marked hash is sent, or another one for it follows. -/
theorem requested_iff (env : RequestWorld σ ι) (world : σ) (trace : List (Action σ ι)) :
    EachStep (step env) (fun s a => (s.step env a).Requested) (start world) trace ↔
      EachStep (step env) (SendsMarked env) (start world) trace := by
  have first : (start world : RequestState σ ι).Requested := by
    intro c h marked nonzero
    exact absurd (List.eq_of_mem_replicate marked) nonzero
  refine eachStep_iff (I := Requested) (fun s a _ after => after) (fun s a requested => ?_) trace first
  cases a with
  | run g => exact requested_run_iff requested g
  | call task =>
    exact iff_of_true (requested.mono (fun _ _ marked => .inl marked) (fun _ _ mem => mem)
      fun _ _ under => under.append _) trivial
  | blockResponse c world result => exact iff_of_true (requested_blockResponse requested c world result) trivial
  | close c => exact iff_of_true (requested_close requested c) trivial
  | world w => exact iff_of_true requested trivial

end RequestState

namespace RequestExample

open RequestState

def env : RequestWorld Unit Unit where
  stored _ _ := false
  addCached w _ := (none, w)
  preCalcFinished _ := true
  getFastestClient _ := none
  write w _ _ := (true, w)

def tipRequests (n : Nat) : List (RequestState.Action Unit Unit) :=
  (List.range n).flatMap fun g => [.call (.request () zeroHash 80), .run g]

/-- The client when they were sent and not answered. -/
def waiting (n : Nat) : RequestState Unit Unit :=
  ⟨fun _ => ⟨.new 16 zeroHash, List.replicate n zeroHash, false, List.replicate n zeroHash⟩, (),
    List.replicate n []⟩

theorem foldl_tipRequests : ∀ {n : Nat}, n ≤ 80 → (tipRequests n).foldl (step env) (start ()) = waiting n := by
  intro n
  induction n with
  | zero => exact fun _ => rfl
  | succ n ih =>
    intro few
    have last : (List.replicate n ([] : List (BlockTask Unit)) ++ [[.request () zeroHash 80]])[n]? =
        some [.request () zeroHash 80] := by simp
    rw [tipRequests, List.range_succ, List.flatMap_append, List.foldl_append]
    change List.foldl (step env) ((tipRequests n).foldl (step env) (start ()))
      [.call (.request () zeroHash 80), .run n] = _
    rw [ih (by omega)]
    simp only [List.foldl_cons, List.foldl_nil]
    rw [step_run last]
    unfold perform sendBlockRequestWithBound RequestState.sendMessage
    simp [waiting, step, setClient, env, List.replicate_succ', Nat.lt_of_succ_le few]
    exact funext fun _ => rfl

def late : List (RequestState.Action Unit Unit) := tipRequests 80 ++ [.call (.missing () 7), .run 80, .run 80]

def last : RequestState Unit Unit := late.foldl (step env) (start ())

/-- It is marked, and no request is sent. -/
theorem marked_without_request :
    (7 : Hash) ∈ (last.clients ()).requestedHashes.buffer ∧ (7 : Hash) ∉ (last.clients ()).sent ∧
      ¬ EachStep (step env) (fun s a => (s.step env a).Requested) (start ()) late := by
  have final : last = [RequestState.Action.call (.missing () 7), .run 80, .run 80].foldl (step env) (waiting 80) := by
    rw [last, late, List.foldl_append, foldl_tipRequests (by decide)]
  have marked : (7 : Hash) ∈ (last.clients ()).requestedHashes.buffer := by
    rw [final]
    decide +kernel
  have unsent : (7 : Hash) ∉ (last.clients ()).sent := by
    rw [final]
    decide +kernel
  have calls : last.calls = List.replicate 81 [] := by
    rw [final]
    decide +kernel
  refine ⟨marked, unsent, fun each => ?_⟩
  obtain ⟨-, later⟩ := (eachStep_append _ _).mp each
  rw [foldl_tipRequests (by decide)] at later
  have requested : last.Requested := by
    rw [final]
    exact later.2.2.1
  rcases requested () 7 marked (by decide) with sent | ⟨call, mem, bound, waits⟩
  · exact unsent sent
  · rw [calls] at mem
    rw [List.eq_of_mem_replicate mem] at waits
    cases waits

end RequestExample

end P2PoolObserver
