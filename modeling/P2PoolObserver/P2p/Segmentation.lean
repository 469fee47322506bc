/-
# P2p.Segmentation -- does the read loop see where the stream is cut?

A step that reads fixed fields keeps two loops the same however the bytes are cut.  Two kinds of
reads do not: the call for an address returns less than what is there if the chunk ends, and the
buffered reader under a block stops at the end of a chunk when the decoder has what it needs.
`StepOk` says of the chunks before a step that neither happens.
-/
import P2PoolObserver.P2p.ReadLoop
import P2PoolObserver.Sidechain.RoundTrip

namespace P2PoolObserver

open Lib

/-! ## Fields are read to their full length -/

namespace Item

open Chunks

theorem exact_readUvarintFrom : ∀ fuel i x : Nat, Exact (readUvarintFrom fuel i x) := by
  intro fuel
  induction fuel with
  | zero => exact fun _ _ => ⟨fun _ _ _ => rfl, nofun⟩
  | succ fuel ih =>
    intro i x
    constructor
    · intro S T eq
      have bytes := exact_readByte.same S T eq
      unfold readUvarintFrom
      cases one : readByte S with
      | error e =>
        rw [one, flat_error] at bytes
        rw [flat_eq_error bytes.symm]
      | ok p =>
        obtain ⟨b, S'⟩ := p
        rw [one, flat_ok] at bytes
        obtain ⟨T', two, eq'⟩ := flat_eq_ok bytes.symm
        rw [two]
        dsimp only
        split_ifs
        · rfl
        · simp [eq']
        · exact (ih _ _).same S' T' eq'.symm
    · intro S T a whole ok
      unfold readUvarintFrom at ok
      cases one : readByte S with
      | error e => simp [one] at ok
      | ok p =>
        obtain ⟨b, S'⟩ := p
        have whole' := exact_readByte.whole S S' b whole one
        rw [one] at ok
        dsimp only at ok
        split_ifs at ok
        · obtain ⟨-, rfl⟩ := Prod.mk.inj (Except.ok.inj ok)
          exact whole'
        · exact (ih _ _).whole S' T a whole' ok

def ExactItem : Item → Prop
  | .fields reader => Exact reader
  | .block _ _ | .peers => True

theorem exact_challengeFields : Exact challengeFields :=
  exact_bind (exact_readFull _) fun _ => exact_bind (exact_readFull _) fun _ => exact_pure _

theorem exact_solutionFields : Exact solutionFields :=
  exact_bind (exact_readFull _) fun _ => exact_bind (exact_readFull _) fun _ => exact_pure _

theorem exact_listenPortFields : Exact listenPortFields := exact_bind (exact_readFull _) fun _ => exact_pure _

theorem exact_idFields (received : Hash → Received) : Exact (idFields received) :=
  exact_bind (exact_readFull _) fun _ => exact_pure _

theorem exact_internalFields : Exact internalFields :=
  exact_bind (exact_readUvarintFrom _ _ _) fun _ => exact_bind (exact_readUvarintFrom _ _ _) fun _ => exact_pure _

end Item

namespace ReaderClient

variable {σ : Type} {c c' : ReaderClient σ} {item : Item}

theorem exactItem_itemOf {m : MessageId} (ok : c.itemOf m = .ok (c', item)) : item.ExactItem := by
  cases m with
  | handshakeChallenge =>
    simp only [itemOf] at ok
    split_ifs at ok
    cases ok
    exact Item.exact_challengeFields
  | handshakeSolution =>
    simp only [itemOf] at ok
    split_ifs at ok
    cases ok
    exact Item.exact_solutionFields
  | listenPort =>
    simp only [itemOf] at ok
    split_ifs at ok
    cases ok
    exact Item.exact_listenPortFields
  | blockRequest | blockNotify =>
    cases ok
    exact Item.exact_idFields _
  | blockResponse =>
    simp only [itemOf] at ok
    split at ok
    · nomatch ok
    · cases ok
      trivial
  | blockBroadcast | blockBroadcastCompact | peerListResponse =>
    cases ok
    trivial
  | peerListRequest =>
    cases ok
    exact Chunks.exact_pure _
  | internal =>
    cases ok
    exact Item.exact_internalFields

theorem exactItem_dispatch {id : UInt8} (ok : c.dispatch id = .ok (c', item)) : item.ExactItem := by
  simp only [dispatch] at ok
  split_ifs at ok
  split at ok
  · nomatch ok
  · exact exactItem_itemOf ok

end ReaderClient

namespace ReadLoop

open Chunks

variable {σ : Type}

/-! ## The two reads that see the chunks -/

/-- The call for an address returns all that it was asked for, or all that is left. -/
def AddressOk (S : Chunks) : Prop :=
  ∀ isV6 T, readByte S = .ok (isV6, T) → ∀ ip U, Chunks.read 16 T = some (ip, U) → ip.length = min 16 T.flatten.length

section Conditions

variable [Crypto] (consensus : Consensus)

/-- The chunk with the last byte that the decoder needs goes on to the end of what the size
announces. -/
def BlockOk (compact : Bool) (S : Chunks) : Prop :=
  ∀ size T, readFull 4 S = .ok (size, T) → ofLeBytes size ≠ 0 →
    ∀ block rest, decodeBlock consensus compact (T.flatten.take (ofLeBytes size)) = .ok (block, rest) →
      (T.flatten.take (ofLeBytes size)).length ≤
        chunkEnd (max 1 ((T.flatten.take (ofLeBytes size)).length - rest.length)) T

theorem flatten_pos_of_decodeBlock {S : Chunks} {n : Nat} {compact : Bool} {block : PoolBlock} {rest : Bytes}
    (decoded : decodeBlock consensus compact (S.flatten.take n) = .ok (block, rest)) : 0 < S.flatten.length := by
  refine List.length_pos_of_ne_nil fun ended => ?_
  rw [ended, List.take_nil] at decoded
  cases compact <;> nomatch decoded

theorem leftByDecoder_iff {S : Chunks} {n : Nat} (announced : n ≠ 0) {compact : Bool} {block : PoolBlock}
    {rest : Bytes} (decoded : decodeBlock consensus compact (S.flatten.take n) = .ok (block, rest)) :
    (leftByDecoder n S rest).flatten = S.flatten.drop n ↔
      (S.flatten.take n).length ≤ chunkEnd (max 1 ((S.flatten.take n).length - rest.length)) S := by
  have positive := flatten_pos_of_decodeBlock consensus decoded
  have taken := List.length_take (i := n) (l := S.flatten)
  exact pull_fills_iff (Nat.le_refl _) (by omega) (by omega) (by omega)

def StepOk (L : ReadLoop σ) : Prop :=
  L.progress.stopped = none →
    match L.progress.mode with
    | .peers _ _ => AddressOk L.connection
    | .message => ∀ id S, readFull 1 L.connection = .ok (id, S) →
        ∀ client compact received, L.progress.client.dispatch (id.headD 0) = .ok (client, .block compact received) →
          BlockOk consensus compact S

end Conditions

/-- The same bytes to come, the same received, the same state. -/
structure Same (L M : ReadLoop σ) : Prop where
  bytes : L.connection.flatten = M.connection.flatten
  progress : L.progress = M.progress

variable {L M : ReadLoop σ}

theorem Same.stop (same : Same L M) (reason : ReadStop) : Same (L.stop reason) (M.stop reason) :=
  ⟨same.bytes, by simp [ReadLoop.stop, same.progress]⟩

/-! ## One step of loops that are the same -/

section Steps

variable (react : ReaderClient σ → Received → Except ReadStop (ReaderClient σ))

theorem connection_emit (p : ReadProgress σ) (event : Received) (mode : ReadMode) (S : Chunks) :
    (emit react p event mode S).connection = S := by
  unfold emit
  dsimp only
  split <;> rfl

theorem received_emit (p : ReadProgress σ) (event : Received) (mode : ReadMode) (S : Chunks) :
    (emit react p event mode S).progress.received = p.received ++ [event] := by
  unfold emit
  dsimp only
  split <;> rfl

theorem same_emit {S T : Chunks} (eq : S.flatten = T.flatten) (p : ReadProgress σ) (event : Received)
    (mode : ReadMode) : Same (emit react p event mode S) (emit react p event mode T) := by
  constructor
  · rw [connection_emit, connection_emit, eq]
  · unfold emit
    dsimp only
    split <;> rfl

theorem exact_ok {α : Type} {c : ChunkReader α} (exact_ : Exact c) {S T S' : Chunks} (eq : S.flatten = T.flatten)
    {a : α} (ok : c S = .ok (a, S')) : ∃ T', c T = .ok (a, T') ∧ S'.flatten = T'.flatten := by
  have results := exact_.same S T eq
  rw [ok, flat_ok] at results
  obtain ⟨T', ok', eq'⟩ := flat_eq_ok results.symm
  exact ⟨T', ok', eq'.symm⟩

theorem exact_error {α : Type} {c : ChunkReader α} (exact_ : Exact c) {S T : Chunks} (eq : S.flatten = T.flatten)
    {e : ReadError} (error : c S = .error e) : c T = .error e := by
  have results := exact_.same S T eq
  rw [error, flat_error] at results
  exact flat_eq_error results.symm

theorem same_readFields (same : Same L M) {reader : ChunkReader (Except ReadStop Received)} (exact_ : Exact reader) :
    Same (readFields react L reader) (readFields react M reader) := by
  unfold readFields
  cases read : reader L.connection with
  | error e =>
    rw [exact_error exact_ same.bytes read]
    exact same.stop (.read e)
  | ok p =>
    obtain ⟨result, S⟩ := p
    obtain ⟨T, read', eq⟩ := exact_ok exact_ same.bytes read
    rw [read']
    cases result with
    | error reason => exact same.stop reason
    | ok event =>
      rw [same.progress]
      exact same_emit react eq _ _ _

theorem same_readPeers (same : Same L M) : Same (readPeers react L) (readPeers react M) := by
  unfold readPeers
  cases read : readByte L.connection with
  | error e =>
    rw [exact_error exact_readByte same.bytes read]
    exact same.stop (.read e)
  | ok p =>
    obtain ⟨numPeers, S⟩ := p
    obtain ⟨T, read', eq⟩ := exact_ok exact_readByte same.bytes read
    rw [read']
    dsimp only
    by_cases many : numPeers > peerListResponseMaxPeers
    · rw [if_pos many, if_pos many]
      exact same.stop _
    · rw [if_neg many, if_neg many, same.progress]
      exact same_emit react eq _ _ _

theorem read_same {S T S' : Chunks} (eq : S.flatten = T.flatten) {ip : Bytes} (read : Chunks.read 16 S = some (ip, S'))
    (full : ip.length = min 16 S.flatten.length)
    (full' : ∀ ip' T', Chunks.read 16 T = some (ip', T') → ip'.length = min 16 T.flatten.length) :
    ∃ T', Chunks.read 16 T = some (ip, T') ∧ S'.flatten = T'.flatten := by
  have stream := (read_eq_some read).1
  cases read' : Chunks.read 16 T with
  | none =>
    have ended := (read_eq_none_iff 16 T).mp read'
    rw [← eq, ← read_eq_none_iff 16 S, read] at ended
    nomatch ended
  | some p =>
    obtain ⟨ip', T'⟩ := p
    have stream' := (read_eq_some read').1
    have lengths : ip.length = ip'.length := by rw [full, full' ip' T' read', eq]
    obtain ⟨rfl, rest⟩ := List.append_inj (stream.symm.trans (eq.trans stream')) lengths
    exact ⟨T', rfl, rest⟩

theorem same_readPeer (same : Same L M) (ok : AddressOk L.connection) (ok' : AddressOk M.connection) (left : Nat)
    (rawIp : Bytes) : Same (readPeer react L left rawIp) (readPeer react M left rawIp) := by
  unfold readPeer
  cases first : readByte L.connection with
  | error e =>
    rw [exact_error exact_readByte same.bytes first]
    exact same.stop (.read e)
  | ok p =>
    obtain ⟨isV6, S⟩ := p
    obtain ⟨T, first', eq⟩ := exact_ok exact_readByte same.bytes first
    rw [first']
    dsimp only
    cases call : Chunks.read 16 S with
    | none =>
      have ended := (read_eq_none_iff 16 S).mp call
      rw [(read_eq_none_iff 16 T).mpr (eq ▸ ended)]
      exact same.stop (.read .eof)
    | some q =>
      obtain ⟨ip, S'⟩ := q
      obtain ⟨T', call', eq'⟩ := read_same eq call (ok isV6 S first ip S' call) (ok' isV6 T first')
      rw [call']
      dsimp only
      cases last : readFull 2 S' with
      | error e =>
        rw [exact_error (exact_readFull 2) eq' last]
        exact same.stop (.read e)
      | ok r =>
        obtain ⟨port, S''⟩ := r
        obtain ⟨T'', last', eq''⟩ := exact_ok (exact_readFull 2) eq' last
        rw [last', same.progress]
        exact same_emit react eq'' _ _ _

variable [Crypto] (consensus : Consensus)

theorem same_readBlock (same : Same L M) {compact : Bool} (ok : BlockOk consensus compact L.connection)
    (ok' : BlockOk consensus compact M.connection) (received : Option PoolBlock → Received) :
    Same (readBlock react consensus L compact received) (readBlock react consensus M compact received) := by
  unfold readBlock
  cases read : readFull 4 L.connection with
  | error e =>
    rw [exact_error (exact_readFull 4) same.bytes read]
    exact same.stop (.read e)
  | ok p =>
    obtain ⟨size, S⟩ := p
    obtain ⟨T, read', eq⟩ := exact_ok (exact_readFull 4) same.bytes read
    rw [read']
    dsimp only
    by_cases zero : ofLeBytes size = 0
    · rw [if_pos zero, if_pos zero, same.progress]
      exact same_emit react eq _ _ _
    · rw [if_neg zero, if_neg zero, ← eq]
      cases decoded : decodeBlock consensus compact (S.flatten.take (ofLeBytes size)) with
      | error e => exact same.stop (.read e)
      | ok q =>
        obtain ⟨block, rest⟩ := q
        have one := (leftByDecoder_iff consensus zero decoded).mpr (ok size S read zero block rest decoded)
        have decoded' := eq ▸ decoded
        have two := (leftByDecoder_iff consensus zero decoded').mpr (ok' size T read' zero block rest decoded')
        dsimp only
        rw [same.progress]
        exact same_emit react (one.trans ((congrArg _ eq).trans two.symm)) _ _ _

theorem same_readMessage (same : Same L M) {id : Bytes} {S T : Chunks} (eq : S.flatten = T.flatten)
    (read : readFull 1 L.connection = .ok (id, S)) (read' : readFull 1 M.connection = .ok (id, T))
    (ok : ∀ client compact received, L.progress.client.dispatch (id.headD 0) = .ok (client, .block compact received) →
      BlockOk consensus compact S ∧ BlockOk consensus compact T) :
    Same (readMessage react consensus L) (readMessage react consensus M) := by
  unfold readMessage
  rw [read, read', ← same.progress]
  dsimp only
  cases admitted : L.progress.client.dispatch (id.headD 0) with
  | error reason => exact same.stop reason
  | ok p =>
    obtain ⟨client, item⟩ := p
    have goes : Same (⟨S, { L.progress with client }⟩ : ReadLoop σ) ⟨T, { L.progress with client }⟩ := ⟨eq, rfl⟩
    cases item with
    | fields reader => exact same_readFields react goes (ReaderClient.exactItem_dispatch admitted)
    | block compact received =>
      obtain ⟨one, two⟩ := ok client compact received admitted
      exact same_readBlock react consensus goes one two received
    | peers => exact same_readPeers react goes

theorem same_step (same : Same L M) (ok : StepOk consensus L) (ok' : StepOk consensus M) :
    Same (step react consensus L) (step react consensus M) := by
  unfold step
  rw [← same.progress]
  by_cases ended : L.progress.stopped.isSome = true
  · rw [if_pos ended, if_pos ended]
    exact same
  · have runs := Option.not_isSome_iff_eq_none.mp ended
    have here := ok runs
    have there := ok' (same.progress ▸ runs)
    rw [if_neg ended, if_neg ended]
    rw [← same.progress] at there
    cases mode : L.progress.mode with
    | peers left rawIp =>
      rw [mode] at here there
      exact same_readPeer react same here there left rawIp
    | message =>
      rw [mode] at here there
      dsimp only
      cases read : readFull 1 L.connection with
      | error e =>
        have read' := exact_error (exact_readFull 1) same.bytes read
        simp only [readMessage, read, read']
        exact same.stop .closed
      | ok p =>
        obtain ⟨id, S⟩ := p
        obtain ⟨T, read', eq⟩ := exact_ok (exact_readFull 1) same.bytes read
        refine same_readMessage react consensus same eq read read' ?_
        intro client compact received admitted
        exact ⟨here id S read client compact received admitted, there id T read' client compact received admitted⟩

/-! ## A stream that is not cut -/

theorem leftByDecoder_whole {S : Chunks} (whole : Whole S) {n : Nat} (announced : n ≠ 0) {compact : Bool}
    {block : PoolBlock} {rest : Bytes}
    (decoded : decodeBlock consensus compact (S.flatten.take n) = .ok (block, rest)) :
    (leftByDecoder n S rest).flatten = S.flatten.drop n ∧ Whole (leftByDecoder n S rest) := by
  have positive := flatten_pos_of_decodeBlock consensus decoded
  have taken := List.length_take (i := n) (l := S.flatten)
  have counted : max 1 ((S.flatten.take n).length - rest.length) =
      max 1 ((S.flatten.take n).length - rest.length) - 1 + 1 := by omega
  unfold leftByDecoder
  dsimp only
  rw [counted]
  exact pull_whole whole (by omega) (by omega) (by omega) _

omit [Crypto] in
theorem addressOk_whole {S : Chunks} (whole : Whole S) : AddressOk S := by
  intro isV6 T first ip U call
  have whole' := exact_readByte.whole S T isV6 whole first
  have more : T.flatten ≠ [] := by
    intro ended
    rw [(read_eq_none_iff 16 T).mpr ended] at call
    nomatch call
  obtain ⟨U', call', -, -⟩ := read_whole whole' more 16
  rw [call] at call'
  obtain ⟨rfl, -⟩ := Prod.mk.inj (Option.some.inj call')
  exact List.length_take

theorem blockOk_whole {S : Chunks} (whole : Whole S) (compact : Bool) : BlockOk consensus compact S := by
  intro size T read announced block rest decoded
  have left := leftByDecoder_whole consensus ((exact_readFull 4).whole S T size whole read) announced decoded
  exact (leftByDecoder_iff consensus announced decoded).mp left.1

theorem stepOk_whole (whole : Whole L.connection) : StepOk consensus L := by
  intro _
  cases L.progress.mode with
  | peers left rawIp => exact addressOk_whole whole
  | message =>
    intro id S read client compact received _
    exact blockOk_whole consensus ((exact_readFull 1).whole _ S id whole read) compact

omit [Crypto] in
theorem whole_readPeer (whole : Whole L.connection) (left : Nat) (rawIp : Bytes) :
    Whole (readPeer react L left rawIp).connection := by
  unfold readPeer
  cases first : readByte L.connection with
  | error e => exact whole
  | ok p =>
    obtain ⟨isV6, S⟩ := p
    have whole' := exact_readByte.whole _ S isV6 whole first
    dsimp only
    by_cases ended : S.flatten = []
    · rw [(read_eq_none_iff 16 S).mpr ended]
      exact whole
    · obtain ⟨T, call, -, whole''⟩ := read_whole whole' ended 16
      rw [call]
      dsimp only
      cases last : readFull 2 T with
      | error e => exact whole
      | ok r =>
        dsimp only
        rw [connection_emit]
        exact (exact_readFull 2).whole T r.2 r.1 whole'' last

theorem whole_readBlock (whole : Whole L.connection) (compact : Bool) (received : Option PoolBlock → Received) :
    Whole (readBlock react consensus L compact received).connection := by
  unfold readBlock
  cases read : readFull 4 L.connection with
  | error e => exact whole
  | ok p =>
    obtain ⟨size, S⟩ := p
    have whole' := (exact_readFull 4).whole _ S size whole read
    dsimp only
    split_ifs with zero
    · rw [connection_emit]
      exact whole'
    · split
      · exact whole
      · next block rest decoded =>
          rw [connection_emit]
          exact (leftByDecoder_whole consensus whole' zero decoded).2

omit [Crypto] in
theorem whole_readFields (whole : Whole L.connection) {reader : ChunkReader (Except ReadStop Received)}
    (exact_ : Exact reader) : Whole (readFields react L reader).connection := by
  unfold readFields
  split
  · exact whole
  · exact whole
  · next event S read =>
      rw [connection_emit]
      exact exact_.whole _ S _ whole read

omit [Crypto] in
theorem whole_readPeers (whole : Whole L.connection) : Whole (readPeers react L).connection := by
  unfold readPeers
  split
  · exact whole
  · next numPeers S read =>
      by_cases many : numPeers > peerListResponseMaxPeers
      · rw [if_pos many]
        exact whole
      · rw [if_neg many, connection_emit]
        exact exact_readByte.whole _ S numPeers whole read

theorem whole_readMessage (whole : Whole L.connection) : Whole (readMessage react consensus L).connection := by
  unfold readMessage
  split
  · exact whole
  · next id S read =>
      have whole' := (exact_readFull 1).whole _ S id whole read
      split
      · exact whole
      · next client item admitted =>
          cases item with
          | fields reader => exact whole_readFields react whole' (ReaderClient.exactItem_dispatch admitted)
          | block compact received => exact whole_readBlock react consensus whole' compact received
          | peers => exact whole_readPeers react whole'

theorem whole_step (whole : Whole L.connection) : Whole (step react consensus L).connection := by
  unfold step
  split_ifs
  · exact whole
  · split
    · exact whole_readMessage react consensus whole
    · exact whole_readPeer react whole _ _

/-! ## A step that sees the chunks -/

omit [Crypto] in
/-- With fewer bytes of an address than were there, the port is read from the rest of it: the
entry ends too early, or where the stream ends it is one entry more or another error. -/
theorem addressOk_of_same (same : Same L M) (whole : Whole M.connection) {left : Nat} {rawIp : Bytes}
    (after : Same (readPeer react L left rawIp) (readPeer react M left rawIp)) : AddressOk L.connection := by
  intro isV6 S first ip S' call
  by_contra short
  obtain ⟨T, first', eq⟩ := exact_ok exact_readByte same.bytes first
  obtain ⟨stream, atMost, -⟩ := read_eq_some call
  have length := congrArg List.length stream
  rw [List.length_append] at length
  have more : T.flatten ≠ [] := by
    intro ended
    rw [← eq, ← read_eq_none_iff 16 S, call] at ended
    nomatch ended
  obtain ⟨T', call', left', -⟩ := read_whole (exact_readByte.whole _ T isV6 whole first') more 16
  have remains := congrArg List.length left'
  rw [List.length_drop, ← eq] at remains
  unfold readPeer at after
  rw [first, first'] at after
  dsimp only at after
  rw [call, call'] at after
  dsimp only at after
  by_cases two : 2 ≤ S'.flatten.length
  · obtain ⟨S'', port, rest⟩ := readFull_of_le two
    rw [port] at after
    by_cases two' : 2 ≤ T'.flatten.length
    · obtain ⟨T'', port', rest'⟩ := readFull_of_le two'
      rw [port'] at after
      have bytes := congrArg List.length after.bytes
      simp only [connection_emit, rest, rest', List.length_drop] at bytes
      omega
    · rw [readFull_of_lt (Nat.lt_of_not_le two')] at after
      have received := congrArg ReadProgress.received after.progress
      simp only [received_emit, ReadLoop.stop, same.progress] at received
      exact absurd received (by simp)
  · -- one byte is left of the address, and the stream in one piece has none
    have none_left : T'.flatten = [] := List.eq_nil_of_length_eq_zero (by omega)
    have one_left : S'.flatten ≠ [] := List.ne_nil_of_length_pos (by omega)
    rw [readFull_of_lt (Nat.lt_of_not_le two), readFull_of_lt (by rw [none_left]; decide)] at after
    have stopped := congrArg ReadProgress.stopped after.progress
    simp [ReadLoop.stop, none_left, one_left] at stopped

theorem blockOk_of_same (same : Same L M) (whole : Whole M.connection) {compact : Bool}
    {received : Option PoolBlock → Received}
    (after : Same (readBlock react consensus L compact received) (readBlock react consensus M compact received)) :
    BlockOk consensus compact L.connection := by
  intro size S read announced block rest decoded
  obtain ⟨T, read', eq⟩ := exact_ok (exact_readFull 4) same.bytes read
  have whole' := (exact_readFull 4).whole _ T size whole read'
  have decoded' := decoded
  rw [eq] at decoded'
  have bytes := after.bytes
  simp only [readBlock, read, read', announced, if_false, decoded, decoded', connection_emit] at bytes
  refine (leftByDecoder_iff consensus announced decoded).mp ?_
  rw [bytes, (leftByDecoder_whole consensus whole' announced decoded').1, eq]

theorem stepOk_of_same (same : Same L M) (whole : Whole M.connection)
    (after : Same (step react consensus L) (step react consensus M)) : StepOk consensus L := by
  intro runs
  have goes : ¬ L.progress.stopped.isSome = true := by simp [runs]
  unfold step at after
  rw [← same.progress, if_neg goes, if_neg goes] at after
  cases mode : L.progress.mode with
  | peers left rawIp =>
    rw [mode] at after
    exact addressOk_of_same react same whole after
  | message =>
    rw [mode] at after
    intro id S read client compact received admitted
    obtain ⟨T, read', eq⟩ := exact_ok (exact_readFull 1) same.bytes read
    simp only [readMessage, read, read', ← same.progress, admitted] at after
    exact blockOk_of_same react consensus (L := ⟨S, { L.progress with client }⟩)
      (M := ⟨T, { L.progress with client }⟩) ⟨eq, rfl⟩ ((exact_readFull 1).whole _ T id whole read') after

/-! ## Runs -/

theorem run_succ (k : Nat) (L : ReadLoop σ) :
    run react consensus (k + 1) L = step react consensus (run react consensus k L) :=
  Function.iterate_succ_apply' _ _ _

theorem whole_run (whole : Whole L.connection) (k : Nat) : Whole (run react consensus k L).connection := by
  induction k with
  | zero => exact whole
  | succ k ih =>
    rw [run_succ]
    exact whole_step react consensus ih

theorem same_run (same : Same L M) (ok : ∀ k, StepOk consensus (run react consensus k L))
    (ok' : ∀ k, StepOk consensus (run react consensus k M)) (k : Nat) :
    Same (run react consensus k L) (run react consensus k M) := by
  induction k with
  | zero => exact same
  | succ k ih =>
    rw [run_succ, run_succ]
    exact same_step react consensus ih (ok k) (ok' k)

end Steps

section Streams

variable [Crypto] (consensus : Consensus) (react : ReaderClient σ → Received → Except ReadStop (ReaderClient σ))

/-- At every step the loop has received the same from both connections and has the same bytes
before it: the messages have the same contents and begin at the same places. -/
def Agree (client : ReaderClient σ) (S T : Chunks) : Prop :=
  ∀ k, Same (run react consensus k (start client S)) (run react consensus k (start client T))

def Unbroken (client : ReaderClient σ) (S : Chunks) : Prop :=
  ∀ k, StepOk consensus (run react consensus k (start client S))

/-- Whatever the client does with what it receives: two ways to cut a stream agree if neither
cuts an address or lets a block end elsewhere than announced, and a way that does so does not
agree with the stream in one piece. -/
theorem segmentation_iff (client : ReaderClient σ) :
    (∀ S T : Chunks, S.flatten = T.flatten → Unbroken consensus react client S → Unbroken consensus react client T →
      Agree consensus react client S T) ∧
    ∀ S : Chunks, Agree consensus react client S [S.flatten] ↔ Unbroken consensus react client S := by
  constructor
  · intro S T eq unbroken unbroken' k
    have one : Same (start client S) (start client T) := ⟨eq, rfl⟩
    exact same_run react consensus one unbroken unbroken' k
  · intro S
    have whole : Whole (start client [S.flatten]).connection := whole_singleton S.flatten
    have one : Same (start client S) (start client [S.flatten]) := ⟨by simp [start], rfl⟩
    constructor
    · intro agree k
      have after := agree (k + 1)
      rw [run_succ, run_succ] at after
      exact stepOk_of_same react consensus (agree k) (whole_run react consensus whole k) after
    · intro unbroken k
      exact same_run react consensus one unbroken
        (fun k => stepOk_whole consensus (whole_run react consensus whole k)) k

end Streams

namespace CutStream

open RoundTripExample (crypto block)

def react (c : ReaderClient Unit) : Received → Except ReadStop (ReaderClient Unit)
  | .handshakeChallenge _ _ => .ok { c with expectedMessage := .handshakeSolution }
  | .handshakeSolution _ _ => .ok { c with handshakeComplete := true }
  | _ => .ok c

def client : ReaderClient Unit := ⟨false, .handshakeChallenge, 0, [], ()⟩

def handshake : Bytes := 0 :: List.replicate 16 0 ++ 1 :: List.replicate 40 0

/-- The loop after `k` steps on a stream that is cut so. -/
def after (k : Nat) (S : Chunks) : ReadLoop Unit := @run Unit react crypto consensusMini k (start client S)

def entries (L : ReadLoop Unit) : List PeerEntry :=
  L.progress.received.filterMap fun
    | .peerEntry entry => some entry
    | _ => none

/-- A list with one peer, up to the middle of its address, and the rest. -/
def listFront : Bytes := handshake ++ [7, 1, 1, 0x20, 1, 2, 3, 4, 5, 6, 7]
def listBack : Bytes := [8, 9, 10, 11, 12, 13, 14, 15, 0x01, 0x94]

/-- A broadcast that announces one byte more than its block has, up to that byte. -/
def blockFront : Bytes := handshake ++ 5 :: leBytes 4 (block.encoding.length + 1) ++ block.encoding

end CutStream

open CutStream in
/-- Cut in the middle of an address, a list of peers yields another peer.  Cut before a byte
that a block does not use, a broadcast ends there, and the byte is taken for a message. -/
theorem segmentation_differs :
    entries (after 4 [listFront ++ listBack]) =
        [.peer [0x20, 1, 2, 3, 4, 5, 6, 7, 8, 9, 10, 11, 12, 13, 14, 15] 37889] ∧
      entries (after 4 [listFront, listBack]) = [.peer [0x20, 1, 2, 3, 4, 5, 6, 7, 0, 0, 0, 0, 0, 0, 0, 0] 0x0908] ∧
      (after 4 [blockFront ++ [6]]).progress.received.length = 3 ∧
      (after 4 [blockFront, [6]]).progress.received.length = 4 := by
  decide +kernel

end ReadLoop

end P2PoolObserver
