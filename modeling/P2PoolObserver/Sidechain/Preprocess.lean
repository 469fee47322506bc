/-
# Sidechain.Preprocess -- filling what a pruned or compact block leaves out (`poolblock.go`)

A compact block names the transactions it shares with its parent by index, and a
pruned block carries no outputs.  `PreprocessBlock` restores both from the store
before the block can be judged.

Stored parents that are themselves compact are filled in place on the way, also
when the call fails in the end, so preprocessing is an `Attempt` on the side chain.
-/
import P2PoolObserver.Lib.Attempt
import P2PoolObserver.Sidechain.SideChain

namespace P2PoolObserver

open Lib

/-- Why preprocessing stopped: a returned error with the blocks it misses, or a fault. -/
inductive Refusal where
  | error (missingBlocks : List Hash) (message : String)
  | fault (f : Fault)
  deriving DecidableEq

abbrev Preprocessing (α : Type) := Attempt SideChain Refusal α

/-! ## Transactions of a compact block -/

inductive FillOutcome where
  | filled
  | failed (message : String)
  | panicked (message : String)
  deriving DecidableEq

/-- The loop over `TransactionParentIndices`.  Its bounds check lets the index one
past the end through to the slice access. -/
def fillTransactions (parentTransactions : List Hash) :
    List UInt64 → List Hash → List Hash × FillOutcome
  | parentIndex :: indices, txId :: txs =>
    if parentIndex ≠ 0 then
      let actualIndex := (parentIndex - 1).toNat
      if actualIndex > parentTransactions.length then
        (txId :: txs, .failed "index of parent transaction out of bounds")
      else match parentTransactions[actualIndex]? with
        | none => (txId :: txs, .panicked "index out of range")
        | some parentTx =>
          let (filled, outcome) := fillTransactions parentTransactions indices txs
          (parentTx :: filled, outcome)
    else
      let (filled, outcome) := fillTransactions parentTransactions indices txs
      (txId :: filled, outcome)
  | _, txs => (txs, .filled)

namespace PoolBlock

def needsCompactTransactionFilling (b : PoolBlock) : Bool :=
  b.main.transactionParentIndices.length > 0 &&
    b.main.transactionParentIndices.length == b.main.transactions.length &&
    b.main.transactions.contains zeroHash

/-- `FillTransactionsFromTransactionParentIndices`.  The parent is read as it is
before the loop; only for a block that is its own parent could that differ. -/
def fillTransactionsFromTransactionParentIndices (b : PoolBlock) (parent : Option PoolBlock) :
    PoolBlock × FillOutcome :=
  if b.needsCompactTransactionFilling then
    match parent with
    | some p =>
      if hashFromBytes (p.coinbaseExtra .sideTemplateId) = b.side.parent then
        let (transactions, outcome) := fillTransactions p.main.transactions
          b.main.transactionParentIndices b.main.transactions
        ({ b with main := { b.main with transactions } }, outcome)
      else (b, .filled)
    | none => (b, .failed "parent is nil")
  else (b, .filled)

end PoolBlock

namespace SideChain

/-! ## Parents with their transactions -/

def fillStored (p parent : Ptr) : Preprocessing (Option String) := do
  let s ← get
  let (b, outcome) :=
    (s.mem p).fillTransactionsFromTransactionParentIndices (some (s.mem parent))
  set (s.modify p fun _ => b)
  match outcome with
  | .filled => return none
  | .failed message => return some message
  | .panicked message => throw (.fault (.panic message))

def collectChain : Nat → List Ptr → Option Ptr → Preprocessing (List Ptr)
  | 0, _, _ => throw (.fault .outOfFuel)
  | _ + 1, chain, none => return chain
  | fuel + 1, chain, some cur => do
    let s ← get
    let parent := s.blocksByTemplateId (s.mem cur).side.parent
    if !(s.mem cur).needsCompactTransactionFilling then return cur :: chain
    else match chain with
      | [] => collectChain fuel [cur] parent
      | previous :: _ => do
        let err ← fillStored previous cur
        let s ← get
        -- early abort if it can all be filled
        if err.isNone && !(s.mem previous).needsCompactTransactionFilling then return chain
        else collectChain fuel (cur :: chain) parent

/-- The second loop: each block of the chain is filled from the one before it here,
which is its parent.  `none` is a nil block. -/
def fillChain : Ptr → List Ptr → Preprocessing (Option Ptr)
  | last, [] => return some last
  | parent, p :: rest => do
    let err ← fillStored p parent
    if err.isSome then return none else fillChain p rest

def getTemplateByIdFillingTx (fuel : Nat) (h : Hash) : Preprocessing (Option Ptr) := do
  let s ← get
  let chain ← collectChain fuel [] (s.blocksByTemplateId h)
  match chain with
  | [] => return none
  | last :: rest => fillChain last rest

section Preprocess

variable [Uint128Package] [Crypto] (consensus : Consensus) (server : Server)

def fillBlockTransactions (fuel : Nat) (b : PoolBlock) : Preprocessing PoolBlock := do
  if b.needsCompactTransactionFilling then
    match ← getTemplateByIdFillingTx fuel b.side.parent with
    | none => throw (.error [b.side.parent] "parent does not exist in compact block")
    | some parent => do
      let s ← get
      let (b, outcome) := b.fillTransactionsFromTransactionParentIndices (some (s.mem parent))
      match outcome with
      | .filled => return b.fillTransactionParentIndices (some (s.mem parent))
      | .failed message => throw (.error [] ("error filling transactions for block: " ++ message))
      | .panicked message => throw (.fault (.panic message))
  else if b.main.transactions.length ≠ b.main.transactionParentIndices.length then
    let parent ← getTemplateByIdFillingTx fuel b.side.parent
    let s ← get
    return b.fillTransactionParentIndices (parent.map s.mem)
  else return b

def viewWith (s : SideChain) (b : PoolBlock) : View :=
  ⟨Function.update s.mem s.next b, s.blocksByTemplateId⟩

/-- The part about outputs: computed, and of the size the encoding announced. -/
def fillBlockOutputs (s : SideChain) (b : PoolBlock) : Except Refusal PoolBlock :=
  if b.main.coinbase.outputs = [] then
    match calculateOutputs (s.viewWith b) consensus server.getDifficultyByHeight s.next with
    | none => .error (.error [] "error filling outputs for block: nil outputs")
    | some (outputs, _) =>
      match outputs.appendBinary [] with
      | .error err => .error (.error [] ("error filling outputs for block: " ++ err))
      | .ok outputBlob =>
        if UInt64.ofNat outputBlob.length ≠ b.main.coinbase.outputsBlobSize then
          .error (.error [] ("error filling outputs for block: invalid output blob size, got " ++
            toString b.main.coinbase.outputsBlobSize ++ ", expected " ++
            toString outputBlob.length))
        else .ok { b with main := { b.main with coinbase := { b.main.coinbase with outputs } } }
  else .ok b

def preProcessBlock (fuel : Nat) (b : PoolBlock) : Preprocessing PoolBlock := do
  let b ← fillBlockTransactions fuel b
  let s ← get
  liftExcept (fillBlockOutputs consensus server s b)

def borrowOutputs (s : SideChain) (b : PoolBlock) : PoolBlock :=
  if b.main.coinbase.outputs = [] then
    match s.blocksByTemplateId (hashFromBytes (b.coinbaseExtra .sideTemplateId)) with
    | some p => { b with main := { b.main with coinbase := { b.main.coinbase with
        outputs := (s.mem p).main.coinbase.outputs } } }
    | none => b
  else b

def preprocessBlock (fuel : Nat) (b : PoolBlock) : Preprocessing PoolBlock := do
  let s ← get
  preProcessBlock consensus server fuel (s.borrowOutputs b)

theorem preprocessBlock_on (fuel : Nat) (b : PoolBlock) (s : SideChain) :
    (preprocessBlock consensus server fuel b).on s =
      match (fillBlockTransactions fuel (s.borrowOutputs b)).on s with
      | (.ok b', s') => (fillBlockOutputs consensus server s' b', s')
      | (.error e, s') => (.error e, s') := by
  rw [preprocessBlock, Attempt.on_bind_ok (Attempt.on_get s), preProcessBlock, Attempt.on_bind]
  rcases (fillBlockTransactions fuel (s.borrowOutputs b)).on s with ⟨e | b', s'⟩
  · rfl
  · dsimp only
    rw [Attempt.on_bind_ok (Attempt.on_get s')]
    cases fillBlockOutputs consensus server s' b' with
    | error e => exact Attempt.on_liftExcept_error e s'
    | ok b'' => exact Attempt.on_liftExcept_ok b'' s'

end Preprocess

/-! ## What preprocessing leaves alone -/

section Frame

variable {P : SideChain → Prop} (blind : ∀ (s : SideChain) (p : Ptr) (f : PoolBlock → PoolBlock),
  P s → P (s.modify p f))
include blind

theorem preserves_fillStored (p parent : Ptr) : Attempt.Preserves P (fillStored p parent) := by
  refine Attempt.preserves_get_bind fun s holds => ?_
  rcases (s.mem p).fillTransactionsFromTransactionParentIndices (some (s.mem parent)) with ⟨b, outcome⟩
  refine Attempt.preserves_set_bind (P := P) (blind s p (fun _ => b) holds) ?_ s holds
  split
  · exact Attempt.preserves_pure _
  · exact Attempt.preserves_pure _
  · exact Attempt.preserves_throw _

theorem preserves_collectChain : ∀ (fuel : Nat) (chain : List Ptr) (cur : Option Ptr),
    Attempt.Preserves P (collectChain fuel chain cur)
  | 0, _, _ => Attempt.preserves_throw _
  | _ + 1, _, none => Attempt.preserves_pure _
  | fuel + 1, chain, some cur => by
    unfold collectChain
    refine Attempt.preserves_get_bind fun s holds => ?_
    dsimp only
    split
    · exact holds
    · split
      · exact preserves_collectChain fuel _ _ s holds
      · refine Attempt.Preserves.bind (preserves_fillStored blind _ _) (fun err => ?_) s holds
        refine Attempt.preserves_get_bind fun t holds => ?_
        split
        · exact holds
        · exact preserves_collectChain fuel _ _ t holds

theorem preserves_fillChain : ∀ (rest : List Ptr) (parent : Ptr), Attempt.Preserves P (fillChain parent rest)
  | [], _ => Attempt.preserves_pure _
  | p :: rest, parent => by
    refine Attempt.Preserves.bind (preserves_fillStored blind p parent) fun err => ?_
    split
    · exact Attempt.preserves_pure _
    · exact preserves_fillChain rest p

theorem preserves_getTemplateByIdFillingTx (fuel : Nat) (h : Hash) :
    Attempt.Preserves P (getTemplateByIdFillingTx fuel h) := by
  refine Attempt.preserves_get_bind fun s holds => ?_
  refine Attempt.Preserves.bind (preserves_collectChain blind fuel [] _) (fun chain => ?_) s holds
  split
  · exact Attempt.preserves_pure _
  · exact preserves_fillChain blind _ _

theorem preserves_fillBlockTransactions (fuel : Nat) (b : PoolBlock) :
    Attempt.Preserves P (fillBlockTransactions fuel b) := by
  have parent := preserves_getTemplateByIdFillingTx blind fuel b.side.parent
  unfold fillBlockTransactions
  split
  · refine parent.bind fun p => ?_
    split
    · exact Attempt.preserves_throw _
    · refine Attempt.preserves_get_bind fun s holds => ?_
      dsimp only
      split <;> exact holds
  · split
    · refine parent.bind fun p => Attempt.preserves_get_bind fun s holds => ?_
      exact holds
    · exact Attempt.preserves_pure _

theorem preserves_preprocessBlock [Uint128Package] [Crypto] (consensus : Consensus) (server : Server)
    (fuel : Nat) (b : PoolBlock) : Attempt.Preserves P (preprocessBlock consensus server fuel b) := by
  refine Attempt.preserves_get_bind fun s holds => ?_
  refine Attempt.Preserves.bind (preserves_fillBlockTransactions blind fuel _) (fun b => ?_) s holds
  refine Attempt.preserves_get_bind fun t holds => ?_
  exact Attempt.preserves_liftExcept (P := P) _ t holds

end Frame

end SideChain

end P2PoolObserver
