/-
# Monero.RandomX -- cached hashers (`randomx_cgo.go`)

A `hasherCollection` keeps a few states, each with a key, a dataset and a VM over it, and
hashes with the first state that has the requested key; where none has, the next state in
turn is initialised to it.  What the library does in a call is part of the call
(`Initialisation`).

`Init` sets the key first.  If the dataset or the VM then fails, the state is left with the
new key over a dataset and a VM that are not its own, and the next call for that key trusts it.
-/
import P2PoolObserver.Lib.Trace
import P2PoolObserver.Types

namespace P2PoolObserver.RandomX

open Lib

/-- `hasherState`.  The source has no `initFailed`: it records that the last `Init` of the
state returned an error. -/
structure HasherState (Dataset Vm : Type) where
  key : Bytes
  dataset : Dataset
  vm : Option Vm
  initFailed : Bool

/-- What the library does when a state is initialised: `GoInit` returns false and leaves
the dataset with some content; or `NewRxVM` returns an error and some pointer; or both
succeed. -/
inductive Initialisation (Dataset Vm : Type) where
  | datasetFails (left : Dataset)
  | vmFails (dataset : Dataset) (returned : Option Vm) (message : String)
  | succeeds (dataset : Dataset) (vm : Vm)

structure HasherCollection (Dataset Vm : Type) where
  index : Nat
  cache : List (HasherState Dataset Vm)

inductive Outcome where
  | returns (hash : Hash)
  | fails (message : String)
  | panics (message : String)
  deriving DecidableEq

def newRandomX {Dataset Vm : Type} (datasets : List Dataset) : HasherCollection Dataset Vm :=
  ⟨0, datasets.map fun dataset => ⟨[], dataset, none, false⟩⟩

section Hasher

variable {Dataset Vm : Type} (calcHash : Vm → Dataset → Bytes → Hash) (randomX : Bytes → Bytes → Hash)

structure Call where
  key : Bytes
  input : Bytes
  library : Initialisation Dataset Vm
  lawful : ∀ dataset vm, library = .succeeds dataset vm → ∀ text, calcHash vm dataset text = randomX key text

namespace HasherState

def init (h : HasherState Dataset Vm) (key : Bytes) :
    Initialisation Dataset Vm → HasherState Dataset Vm × Option String
  | .datasetFails left => ({ h with key, dataset := left, initFailed := true }, some "could not initialize dataset")
  | .vmFails dataset returned message => (⟨key, dataset, returned, true⟩, some message)
  | .succeeds dataset vm => (⟨key, dataset, some vm, false⟩, none)

def hash (h : HasherState Dataset Vm) (input : Bytes) : Option Hash :=
  h.vm.map fun vm => calcHash vm h.dataset input

end HasherState

namespace HasherCollection

variable {calcHash randomX}

def found (h : HasherCollection Dataset Vm) (key : Bytes) : Option (HasherState Dataset Vm) :=
  h.cache.find? fun c => 0 < c.key.length && c.key == key

def reinitialise (h : HasherCollection Dataset Vm) (call : Call calcHash randomX) :
    HasherCollection Dataset Vm × Outcome :=
  if h.cache.length = 0 then (h, .panics "integer divide by zero")
  else
    let next := (h.index + 1) % h.cache.length
    match h.cache[h.index]? with
    | none => ({ h with index := next }, .panics "index out of range")
    | some state =>
      let (state, failure) := state.init call.key call.library
      let left : HasherCollection Dataset Vm := ⟨next, h.cache.set h.index state⟩
      match failure with
      | some message => (left, .fails message)
      | none =>
        match state.hash calcHash call.input with
        | some hash => (left, .returns hash)
        | none => (left, .panics "nil pointer dereference")

/-- `hasherCollection.Hash`: a hash of zero counts as no hash. -/
def hash (h : HasherCollection Dataset Vm) (call : Call calcHash randomX) :
    HasherCollection Dataset Vm × Outcome :=
  match h.found call.key with
  | none => h.reinitialise call
  | some state =>
    match state.hash calcHash call.input with
    | none => (h, .panics "nil pointer dereference")
    | some hash => if hash ≠ zeroHash then (h, .returns hash) else h.reinitialise call

def after (h : HasherCollection Dataset Vm) (call : Call calcHash randomX) : HasherCollection Dataset Vm :=
  (h.hash call).1

/-! ## Runs -/

def HashesWithKey (h : HasherCollection Dataset Vm) (call : Call calcHash randomX) : Prop :=
  ∀ hash, (h.hash call).2 = .returns hash → hash = randomX call.key call.input

def FindsInitialised (h : HasherCollection Dataset Vm) (call : Call calcHash randomX) : Prop :=
  ∀ state, h.found call.key = some state → state.initFailed = false

variable (calcHash randomX)

def Sound (h : HasherCollection Dataset Vm) : Prop :=
  ∀ state ∈ h.cache, state.key ≠ [] → state.initFailed = false →
    ∀ input, state.hash calcHash input = some (randomX state.key input)

variable {calcHash randomX}
variable {state : HasherState Dataset Vm} {key : Bytes} {h : HasherCollection Dataset Vm}

theorem sound_newRandomX (datasets : List Dataset) : Sound calcHash randomX (newRandomX datasets) := by
  intro state mem keyed
  obtain ⟨dataset, _, rfl⟩ := List.mem_map.mp mem
  exact absurd rfl keyed

theorem hash_init (state : HasherState Dataset Vm) (call : Call calcHash randomX)
    (initialised : (state.init call.key call.library).1.initFailed = false) (input : Bytes) :
    (state.init call.key call.library).1.hash calcHash input = some (randomX call.key input) := by
  cases outcome : call.library with
  | datasetFails left | vmFails dataset returned message =>
    rw [outcome] at initialised
    cases initialised
  | succeeds dataset vm => exact congrArg some (call.lawful dataset vm outcome input)

theorem key_init (state : HasherState Dataset Vm) (key : Bytes) (library : Initialisation Dataset Vm) :
    (state.init key library).1.key = key := by
  cases library <;> rfl

theorem initFailed_init {library : Initialisation Dataset Vm}
    (ok : (state.init key library).2 = none) : (state.init key library).1.initFailed = false := by
  cases library with
  | datasetFails left => cases ok
  | vmFails dataset returned message => cases ok
  | succeeds dataset vm => rfl

/-- The ways in which `reinitialise` ends: a panic before any state is touched, or with one
state initialised, in error or with the hash of that state. -/
theorem reinitialise_cases (h : HasherCollection Dataset Vm) (call : Call calcHash randomX) :
    ((h.reinitialise call).1.cache = h.cache ∧ ∀ hash, (h.reinitialise call).2 ≠ .returns hash) ∨
      ∃ (i : Nat) (state : HasherState Dataset Vm),
        (h.reinitialise call).1.cache = h.cache.set i (state.init call.key call.library).1 ∧
        ∀ hash, (h.reinitialise call).2 = .returns hash → (state.init call.key call.library).2 = none ∧
          (state.init call.key call.library).1.hash calcHash call.input = some hash := by
  unfold reinitialise
  split_ifs with empty
  · exact .inl ⟨rfl, fun _ same => by cases same⟩
  · dsimp only
    split
    · exact .inl ⟨rfl, fun _ same => by cases same⟩
    · next state at_index =>
        refine .inr ⟨h.index, state, ?_⟩
        split
        · next message failed => exact ⟨rfl, fun _ same => by cases same⟩
        · next ok =>
            split
            · next hash computed =>
                refine ⟨rfl, fun _ same => ?_⟩
                cases same
                exact ⟨ok, computed⟩
            · exact ⟨rfl, fun _ same => by cases same⟩

theorem sound_set (sound : Sound calcHash randomX h) (i : Nat)
    (state : HasherState Dataset Vm) (call : Call calcHash randomX) {left : HasherCollection Dataset Vm}
    (cache : left.cache = h.cache.set i (state.init call.key call.library).1) : Sound calcHash randomX left := by
  intro other mem keyed initialised input
  rw [cache] at mem
  rcases List.mem_or_eq_of_mem_set mem with old | rfl
  · exact sound other old keyed initialised input
  · rw [key_init]
    exact hash_init state call initialised input

theorem sound_reinitialise (sound : Sound calcHash randomX h)
    (call : Call calcHash randomX) : Sound calcHash randomX (h.reinitialise call).1 := by
  rcases reinitialise_cases h call with ⟨same, _⟩ | ⟨i, state, cache, _⟩
  · intro state mem
    exact sound state (same ▸ mem)
  · exact sound_set sound i state call cache

/-- The step lemma: also a call that fails leaves the other states as they are, and its own
marked. -/
theorem sound_hash (sound : Sound calcHash randomX h)
    (call : Call calcHash randomX) : Sound calcHash randomX (h.after call) := by
  unfold after hash
  split
  · exact sound_reinitialise sound call
  · split
    · exact sound
    · split_ifs
      · exact sound
      · exact sound_reinitialise sound call

theorem reinitialise_hashesWithKey (h : HasherCollection Dataset Vm) (call : Call calcHash randomX) (value : Hash)
    (returned : (h.reinitialise call).2 = .returns value) : value = randomX call.key call.input := by
  rcases reinitialise_cases h call with ⟨_, never⟩ | ⟨i, state, _, computed⟩
  · exact absurd returned (never value)
  · obtain ⟨ok, computed⟩ := computed value returned
    have own := hash_init state call (initFailed_init ok) call.input
    exact Option.some.inj (computed.symm.trans own)

theorem found_spec
    (stored : h.found key = some state) : state ∈ h.cache ∧ state.key ≠ [] ∧ state.key = key := by
  have test := List.find?_some stored
  rw [Bool.and_eq_true, decide_eq_true_eq, beq_iff_eq] at test
  exact ⟨List.mem_of_find?_eq_some stored, List.ne_nil_of_length_pos test.1, test.2⟩

theorem hashesWithKey_of_sound (sound : Sound calcHash randomX h)
    {call : Call calcHash randomX} (initialised : FindsInitialised h call) : HashesWithKey h call := by
  intro value returned
  unfold hash at returned
  split at returned
  · exact reinitialise_hashesWithKey h call value returned
  · next state stored =>
      obtain ⟨mem, keyed, own⟩ := found_spec stored
      have computed := sound state mem keyed (initialised state stored) call.input
      rw [own] at computed
      rw [computed] at returned
      dsimp only at returned
      split_ifs at returned with nonzero
      · cases returned
        rfl
      · exact reinitialise_hashesWithKey h call value returned

theorem findsInitialised_of_all (call : Call calcHash randomX)
    (all : (h.cache.all fun state => !state.initFailed) = true) : FindsInitialised h call := by
  intro state stored
  have own := List.all_eq_true.mp all state (found_spec stored).1
  exact (Bool.not_eq_true' _).mp own

/-- In every run from a new collection in which each call finds, under its key, only a state
whose last initialisation did not fail, every call that returns a hash returns RandomX of
its own key. -/
theorem hashesWithKey_run (datasets : List Dataset) (calls : List (Call calcHash randomX))
    (initialised : EachStep after FindsInitialised (newRandomX datasets) calls) :
    EachStep after HashesWithKey (newRandomX datasets) calls := by
  have keep : ∀ (h : HasherCollection Dataset Vm) (call : Call calcHash randomX),
      Sound calcHash randomX h → FindsInitialised h call → Sound calcHash randomX (h.after call) :=
    fun _ call sound _ => sound_hash sound call
  exact eachStep_imp keep (fun _ _ sound => hashesWithKey_of_sound sound) calls (sound_newRandomX datasets) initialised

end HasherCollection

end Hasher

/-! ## One state

A dataset that is the key it was initialised with, and a hash of the key and the input. -/

def keyedHash (key input : Bytes) : Hash := Bytes32.ofBytes (1 :: key ++ input)

def builds (key input : Bytes) : Call (fun (_ : Unit) => keyedHash) keyedHash where
  key := key
  input := input
  library := .succeeds key ()
  lawful := by
    intro dataset vm same text
    cases same
    rfl

def datasetStays (key input old : Bytes) : Call (fun (_ : Unit) => keyedHash) keyedHash where
  key := key
  input := input
  library := .datasetFails old
  lawful := by
    intro dataset vm same
    cases same

namespace HasherCollection

/-- Two keys in turn, and the second once more. -/
theorem hashesWithKey_run_two :
    EachStep after HashesWithKey (newRandomX [[]]) [builds [7] [1], builds [8] [1], builds [8] [2]] :=
  hashesWithKey_run [[]] _
    ⟨findsInitialised_of_all _ (by decide), findsInitialised_of_all _ (by decide),
      findsInitialised_of_all _ (by decide), trivial⟩

/-- The key 7 is initialised, the key 8 fails, and the next call of the key 8 is answered
with the hash of the key 7. -/
theorem hashesWithKey_run_fails :
    ¬ EachStep after HashesWithKey (newRandomX [[]])
      [builds [7] [1], datasetStays [8] [1] [7], builds [8] [1]] := by
  intro ⟨_, _, third, _⟩
  have wrong : keyedHash [7] [1] = keyedHash [8] [1] := third (keyedHash [7] [1]) (by decide)
  exact absurd wrong (by decide)

end HasherCollection

end P2PoolObserver.RandomX
