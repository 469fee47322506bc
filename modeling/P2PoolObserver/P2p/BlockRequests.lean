/-
# P2p.BlockRequests -- requests and responses of blocks (`Client.SendBlockRequestWithBound`)

A call of `SendBlockRequest` pushes the id to a channel of the client and then writes the request
to the connection; the handler of a response takes the next id from the channel.  These are two
separate steps, and calls come from several goroutines.

The peer answers in the order received.
-/
import P2PoolObserver.P2p.Messages
import P2PoolObserver.Lib.Trace
import Mathlib.Data.List.Infix

namespace P2PoolObserver

open Lib

inductive CallState where
  | entered
  | checked
  | pushed
  | returned
  deriving DecidableEq

structure RequestCall where
  id : Hash
  bound : Nat
  state : CallState
  deriving DecidableEq

/-- Why the handler of responses bans.  `refused` stands for the bans that do not look at the
expected id: a stale tip, and those `AddPoolBlockExternal` asks for. -/
inductive ResponseBan where
  | unexpectedBlockResponse
  | refused
  | expectedBlockId (expected got : Hash)
  deriving DecidableEq

/-- What becomes of the block of a response: seen before or an error without a ban, a ban, or
added to the side chain. -/
inductive BlockOutcome where
  | skipped
  | refused
  | added
  deriving DecidableEq

structure BlockResponse where
  requested : Hash
  templateId : Hash
  deriving DecidableEq

/-- One connection: the channel, the calls, what was written and not yet answered, what was
answered and not yet handled, and for each response handled the id taken from the channel and
the id it answers. -/
structure BlockRequests where
  blockPendingRequests : List Hash
  calls : List RequestCall
  requests : List Hash
  responses : List BlockResponse
  handled : List (Hash × Hash)
  banned : Option ResponseBan
  deriving DecidableEq

namespace BlockRequests

def start : BlockRequests := ⟨[], [], [], [], [], none⟩

def maxPendingRequests : Nat := 100

def call (s : BlockRequests) (id : Hash) (bound : Nat) : BlockRequests :=
  { s with calls := s.calls ++ [⟨id, bound, .entered⟩] }

def setState (s : BlockRequests) (g : Nat) (c : RequestCall) (state : CallState) : BlockRequests :=
  { s with calls := s.calls.set g { c with state } }

def advance (s : BlockRequests) (g : Nat) (state : CallState) (next : RequestCall → BlockRequests) :
    BlockRequests :=
  match s.calls[g]? with
  | some c => if c.state = state then next c else s
  | none => s

def check (s : BlockRequests) (g : Nat) : BlockRequests :=
  s.advance g .entered fun c =>
    s.setState g c (if s.blockPendingRequests.length < c.bound then .checked else .returned)

def enqueue (s : BlockRequests) (id : Hash) : BlockRequests :=
  { s with blockPendingRequests := s.blockPendingRequests ++ [id] }

def sendRequest (s : BlockRequests) (id : Hash) : BlockRequests :=
  { s with requests := s.requests ++ [id] }

def push (s : BlockRequests) (g : Nat) : BlockRequests :=
  s.advance g .checked fun c =>
    if s.blockPendingRequests.length < maxPendingRequests then (s.setState g c .pushed).enqueue c.id else s

def write (s : BlockRequests) (g : Nat) : BlockRequests :=
  s.advance g .pushed fun c => (s.setState g c .returned).sendRequest c.id

def answer (s : BlockRequests) (tip : Hash) : BlockRequests :=
  match s.requests with
  | [] => s
  | id :: rest =>
    { s with requests := rest
             responses := s.responses ++ [⟨id, if id = zeroHash then tip else id⟩] }

def banFor (expected : Hash) (response : BlockResponse) : BlockOutcome → Option ResponseBan
  | .skipped => none
  | .refused => some .refused
  | .added =>
    if expected ≠ zeroHash ∧ expected ≠ response.templateId then
      some (.expectedBlockId expected response.templateId)
    else none

def handle (s : BlockRequests) (outcome : BlockOutcome) : BlockRequests :=
  match s.responses with
  | [] => s
  | response :: rest =>
    match s.blockPendingRequests with
    | [] => { s with responses := rest, banned := some .unexpectedBlockResponse }
    | expected :: pending =>
      { s with blockPendingRequests := pending
               responses := rest
               handled := s.handled ++ [(expected, response.requested)]
               banned := banFor expected response outcome }

inductive Reply where
  | answer (tip : Hash)
  | handle (outcome : BlockOutcome)
  deriving DecidableEq

inductive Action where
  | call (id : Hash) (bound : Nat)
  | check (g : Nat)
  | push (g : Nat)
  | write (g : Nat)
  | reply (r : Reply)
  deriving DecidableEq

def reply (s : BlockRequests) (r : Reply) : BlockRequests :=
  if s.banned.isSome then s
  else
    match r with
    | .answer tip => s.answer tip
    | .handle outcome => s.handle outcome

def step (s : BlockRequests) : Action → BlockRequests
  | .call id bound => if s.banned.isSome then s else s.call id bound
  | .check g => if s.banned.isSome then s else s.check g
  | .push g => if s.banned.isSome then s else s.push g
  | .write g => if s.banned.isSome then s else s.write g
  | .reply r => s.reply r

/-! ## What is in flight -/

/-- The ids whose responses are still to be handled, in the order of those responses. -/
def inFlight (s : BlockRequests) : List Hash := s.responses.map BlockResponse.requested ++ s.requests

/-- The id taken from the channel was always the id the response answers, and no ban came
from the channel. -/
structure Matched (s : BlockRequests) : Prop where
  ids : ∀ pair ∈ s.handled, pair.1 = pair.2
  ban : s.banned = none ∨ s.banned = some .refused

/-- Whatever the peer and the read loop do from here, what is in flight is matched. -/
def Settles (s : BlockRequests) : Prop :=
  ∀ replies : List Reply, (replies.foldl reply s).Matched

def StepOk (s : BlockRequests) : Action → Prop
  | .write g => s.banned = none → ∀ c, s.calls[g]? = some c → c.state = .pushed →
      s.blockPendingRequests[s.inFlight.length]? = some c.id
  | _ => True

def Carries (s : BlockRequests) : Prop :=
  ∀ r ∈ s.responses, r.requested ≠ zeroHash → r.templateId = r.requested

/-- What is in flight will be matched: it is a prefix of the channel. -/
structure InOrder (s : BlockRequests) : Prop where
  matched : s.Matched
  carries : s.Carries
  order : s.banned = none → s.inFlight <+: s.blockPendingRequests

variable {s : BlockRequests}

theorem inFlight_answer (tip : Hash) : (s.answer tip).inFlight = s.inFlight := by
  unfold answer inFlight
  split
  · rfl
  · next id rest eq => simp [eq]

theorem carries_answer (carries : s.Carries) (tip : Hash) : (s.answer tip).Carries := by
  unfold answer
  split
  · exact carries
  · next id rest eq =>
      intro r mem notTip
      rcases List.mem_append.mp mem with old | new
      · exact carries r old notTip
      · obtain rfl := List.mem_singleton.mp new
        exact if_neg notTip

theorem answer_frame (tip : Hash) : (s.answer tip).blockPendingRequests = s.blockPendingRequests ∧
    (s.answer tip).handled = s.handled ∧ (s.answer tip).banned = s.banned ∧
    (s.answer tip).calls = s.calls := by
  unfold answer
  split <;> exact ⟨rfl, rfl, rfl, rfl⟩

theorem inOrder_answer (inOrder : s.InOrder) (tip : Hash) : (s.answer tip).InOrder := by
  obtain ⟨queue, handled, banned, -⟩ := answer_frame (s := s) tip
  refine ⟨⟨?_, ?_⟩, carries_answer inOrder.carries tip, ?_⟩
  · rw [handled]
    exact inOrder.matched.ids
  · rw [banned]
    exact inOrder.matched.ban
  · rw [banned, queue, inFlight_answer]
    exact inOrder.order

theorem handle_cons {response : BlockResponse} {rest : List BlockResponse} {expected : Hash} {pending : List Hash}
    (responses : s.responses = response :: rest) (queue : s.blockPendingRequests = expected :: pending)
    (outcome : BlockOutcome) :
    s.handle outcome =
      { s with blockPendingRequests := pending
               responses := rest
               handled := s.handled ++ [(expected, response.requested)]
               banned := banFor expected response outcome } := by
  unfold handle
  rw [responses, queue]

theorem banFor_requested {response : BlockResponse}
    (carries : response.requested ≠ zeroHash → response.templateId = response.requested) :
    banFor response.requested response .added = none := by
  refine if_neg ?_
  intro ⟨notTip, differs⟩
  exact differs (carries notTip).symm

theorem inOrder_handle (inOrder : s.InOrder) (unbanned : s.banned = none) (outcome : BlockOutcome) :
    (s.handle outcome).InOrder := by
  have order := inOrder.order unbanned
  cases responses : s.responses with
  | nil =>
    have same : s.handle outcome = s := by rw [handle, responses]
    rwa [same]
  | cons response rest =>
    -- the oldest response answers the oldest id in the channel
    rw [inFlight, responses, List.map_cons, List.cons_append] at order
    obtain ⟨unwritten, queue⟩ := order
    rw [List.cons_append] at queue
    rw [handle_cons responses queue.symm]
    have carries := inOrder.carries response (by rw [responses]; exact .head _)
    refine ⟨⟨?_, ?_⟩, ?_, ?_⟩
    · intro pair mem
      rcases List.mem_append.mp mem with old | new
      · exact inOrder.matched.ids pair old
      · obtain rfl := List.mem_singleton.mp new
        rfl
    · cases outcome with
      | skipped => exact .inl rfl
      | refused => exact .inr rfl
      | added => exact .inl (banFor_requested carries)
    · intro r mem
      exact inOrder.carries r (by rw [responses]; exact .tail _ mem)
    · intro _
      exact List.prefix_append _ _

theorem inOrder_reply (inOrder : s.InOrder) (r : Reply) : (s.reply r).InOrder := by
  unfold reply
  split_ifs with closed
  · exact inOrder
  · cases r with
    | answer tip => exact inOrder_answer inOrder tip
    | handle outcome => exact inOrder_handle inOrder (Option.not_isSome_iff_eq_none.mp closed) outcome

theorem settles_of_inOrder (inOrder : s.InOrder) : s.Settles := by
  intro replies
  induction replies generalizing s with
  | nil => exact inOrder.matched
  | cons r replies later => exact later (inOrder_reply inOrder r)

/-! ## The converse: let everything be answered and handled -/

theorem settles_reply (settles : s.Settles) (r : Reply) : (s.reply r).Settles :=
  fun replies => settles (r :: replies)

theorem reply_answer (unbanned : s.banned = none) (tip : Hash) : s.reply (.answer tip) = s.answer tip := by
  simp [reply, unbanned]

theorem reply_handle (unbanned : s.banned = none) (outcome : BlockOutcome) :
    s.reply (.handle outcome) = s.handle outcome := by
  simp [reply, unbanned]

theorem requested_of_settles {response : BlockResponse} {rest : List BlockResponse} (settles : s.Settles)
    (unbanned : s.banned = none) (responses : s.responses = response :: rest) :
    ∃ pending, s.blockPendingRequests = response.requested :: pending := by
  have matched : (s.reply (.handle .added)).Matched := settles [.handle .added]
  rw [reply_handle unbanned] at matched
  cases queue : s.blockPendingRequests with
  | nil =>
    have ban := matched.ban
    simp [handle, responses, queue] at ban
  | cons expected pending =>
    have ids := matched.ids
    rw [handle_cons responses queue] at ids
    have same : expected = response.requested :=
      ids (expected, response.requested) (List.mem_append_right _ (List.mem_singleton_self _))
    exact ⟨pending, by rw [same]⟩

theorem order_of_settles (carries : s.Carries) (unbanned : s.banned = none) (settles : s.Settles) :
    s.inFlight <+: s.blockPendingRequests := by
  generalize flight : s.inFlight = ids
  induction ids generalizing s with
  | nil => exact List.nil_prefix
  | cons id ids later =>
    have answered : ∀ {t : BlockRequests}, t.Carries → t.banned = none → t.Settles → t.inFlight = id :: ids →
        t.responses ≠ [] → id :: ids <+: t.blockPendingRequests := by
      intro t carries unbanned settles flight some_response
      obtain ⟨response, rest, responses⟩ := List.exists_cons_of_ne_nil some_response
      obtain ⟨pending, queue⟩ := requested_of_settles settles unbanned responses
      rw [inFlight, responses, List.map_cons, List.cons_append] at flight
      obtain ⟨rfl, tail⟩ := List.cons.inj flight
      have head := carries response (by rw [responses]; exact .head _)
      have rest_settles := settles_reply settles (.handle .added)
      rw [reply_handle unbanned, handle_cons responses queue] at rest_settles
      rw [queue, List.cons_prefix_cons]
      refine ⟨rfl, later ?_ (banFor_requested head) rest_settles tail⟩
      intro r mem
      exact carries r (by rw [responses]; exact .tail _ mem)
    by_cases none_answered : s.responses = []
    · have requests : s.requests = id :: ids := by simpa [inFlight, none_answered] using flight
      obtain ⟨queue, -, banned, -⟩ := answer_frame (s := s) zeroHash
      have after := settles_reply settles (.answer zeroHash)
      rw [reply_answer unbanned] at after
      rw [← queue]
      refine answered (carries_answer carries zeroHash) (banned.trans unbanned) after
        ((inFlight_answer zeroHash).trans flight) ?_
      simp [answer, requests]
    · exact answered carries unbanned settles flight none_answered

/-! ## Runs -/

theorem advance_cases (g : Nat) (state : CallState) (next : RequestCall → BlockRequests) :
    (∃ c, s.calls[g]? = some c ∧ c.state = state ∧ s.advance g state next = next c) ∨
      (s.advance g state next = s ∧ ∀ c, s.calls[g]? = some c → c.state ≠ state) := by
  unfold advance
  cases found : s.calls[g]? with
  | none => exact .inr ⟨rfl, nofun⟩
  | some c =>
    by_cases here : c.state = state
    · exact .inl ⟨c, rfl, here, if_pos here⟩
    · refine .inr ⟨if_neg here, ?_⟩
      intro d same
      obtain rfl := Option.some.inj same
      exact here

theorem inOrder_call (inOrder : s.InOrder) (id : Hash) (bound : Nat) : (s.call id bound).InOrder :=
  ⟨⟨inOrder.matched.ids, inOrder.matched.ban⟩, inOrder.carries, inOrder.order⟩

theorem inOrder_setState (inOrder : s.InOrder) (g : Nat) (c : RequestCall) (state : CallState) :
    (s.setState g c state).InOrder :=
  ⟨⟨inOrder.matched.ids, inOrder.matched.ban⟩, inOrder.carries, inOrder.order⟩

theorem inOrder_check (inOrder : s.InOrder) (g : Nat) : (s.check g).InOrder := by
  unfold check
  rcases advance_cases (s := s) g .entered _ with ⟨c, -, -, eq⟩ | ⟨eq, -⟩
  · rw [eq]
    exact inOrder_setState inOrder g c _
  · rwa [eq]

theorem inOrder_push (inOrder : s.InOrder) (g : Nat) : (s.push g).InOrder := by
  unfold push
  rcases advance_cases (s := s) g .checked _ with ⟨c, -, -, eq⟩ | ⟨eq, -⟩
  · rw [eq]
    split_ifs with room
    · obtain ⟨matched, carries, order⟩ := inOrder_setState inOrder g c .pushed
      exact ⟨⟨matched.ids, matched.ban⟩, carries, fun unbanned => (order unbanned).trans (List.prefix_append _ _)⟩
    · exact inOrder
  · rwa [eq]

theorem append_singleton_prefix_iff {α : Type} {xs queue : List α} {x : α} (order : xs <+: queue) :
    xs ++ [x] <+: queue ↔ queue[xs.length]? = some x := by
  obtain ⟨rest, rfl⟩ := order
  rw [List.prefix_append_right_inj, List.getElem?_append_right le_rfl, Nat.sub_self]
  cases rest with
  | nil => simp
  | cons y rest => simp [eq_comm]

theorem inFlight_sendRequest (g : Nat) (c : RequestCall) :
    ((s.setState g c .returned).sendRequest c.id).inFlight = s.inFlight ++ [c.id] :=
  (List.append_assoc _ _ _).symm

theorem inOrder_write (inOrder : s.InOrder) (g : Nat) (ok : s.StepOk (.write g)) : (s.write g).InOrder := by
  unfold write
  rcases advance_cases (s := s) g .pushed _ with ⟨c, found, pushed, eq⟩ | ⟨eq, -⟩
  · rw [eq]
    refine ⟨⟨inOrder.matched.ids, inOrder.matched.ban⟩, inOrder.carries, ?_⟩
    intro unbanned
    rw [inFlight_sendRequest]
    exact (append_singleton_prefix_iff (inOrder.order unbanned)).mpr (ok unbanned c found pushed)
  · rwa [eq]

theorem next_of_settles_write (inOrder : s.InOrder) (g : Nat) (settles : (s.write g).Settles) :
    s.StepOk (.write g) := by
  intro unbanned c found pushed
  unfold write at settles
  rcases advance_cases (s := s) g .pushed _ with ⟨d, same, -, eq⟩ | ⟨-, elsewhere⟩
  · obtain rfl := Option.some.inj (found.symm.trans same)
    rw [eq] at settles
    have order := order_of_settles (s := (s.setState g c .returned).sendRequest c.id) inOrder.carries unbanned settles
    rw [inFlight_sendRequest] at order
    exact (append_singleton_prefix_iff (inOrder.order unbanned)).mp order
  · exact absurd pushed (elsewhere c found)

theorem step_banned (closed : s.banned.isSome) (a : Action) : s.step a = s := by
  cases a <;> simp [step, reply, closed]

theorem inOrder_step (inOrder : s.InOrder) (a : Action) (ok : s.StepOk a) : (s.step a).InOrder := by
  by_cases closed : s.banned.isSome
  · rwa [step_banned closed]
  · cases a with
    | call id bound =>
      rw [step, if_neg closed]
      exact inOrder_call inOrder id bound
    | check g =>
      rw [step, if_neg closed]
      exact inOrder_check inOrder g
    | push g =>
      rw [step, if_neg closed]
      exact inOrder_push inOrder g
    | write g =>
      rw [step, if_neg closed]
      exact inOrder_write inOrder g ok
    | reply r => exact inOrder_reply inOrder r

theorem settles_step_iff (inOrder : s.InOrder) (a : Action) : (s.step a).Settles ↔ s.StepOk a := by
  constructor
  · intro settles
    cases a with
    | write g =>
      intro unbanned
      rw [step, if_neg (by simp [unbanned])] at settles
      exact next_of_settles_write inOrder g settles unbanned
    | call | check | push | reply => trivial
  · intro ok
    exact settles_of_inOrder (inOrder_step inOrder a ok)

/-! ## Matching in runs -/

theorem inOrder_start : start.InOrder where
  matched := ⟨nofun, .inl rfl⟩
  carries := nofun
  order _ := List.nil_prefix

/-- In every run what is in flight is matched, whatever the peer and the read loop do next,
exactly if each write writes the oldest id that was pushed and not yet written. -/
theorem responses_match_iff (actions : List Action) :
    EachStep step (fun s a => (s.step a).Settles) start actions ↔ EachStep step StepOk start actions := by
  refine eachStep_iff (I := InOrder) ?_ ?_ actions inOrder_start
  · intro s a inOrder settles
    exact inOrder_step inOrder a ((settles_step_iff inOrder a).mp settles)
  · intro s a inOrder
    exact settles_step_iff inOrder a

/-- Two calls push `1` and `2` and write `2` and `1`.  The answer to `2` is taken for the one
to `1`, and the peer is banned. -/
theorem responses_mismatch :
    let s := ([.call 1 80, .call 2 80, .check 0, .check 1, .push 0, .push 1, .write 1, .write 0,
      .reply (.answer 0), .reply (.handle .added)] : List Action).foldl step start
    s.handled = [(1, 2)] ∧ s.banned = some (.expectedBlockId 1 2) := by
  decide +kernel

end BlockRequests

end P2PoolObserver
