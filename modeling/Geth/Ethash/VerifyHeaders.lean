import Geth.Ethash.Consensus

/-!
# Verification of a batch of headers (`consensus/ethash/consensus.go`)

`VerifyHeaders` starts workers and a coordinator, which hands the indices of the headers to the
workers and passes their results on in the order of the headers. `Batch` has the channels and the
variables they share; `Step` has what one of them, or the caller, may do next.
-/

namespace Geth.Ethash

open Geth.Core

/-- The errors of `verifyHeaderWorker`. -/
inductive WorkerErr where
  | unknownAncestor
  | header (err : HeaderErr)
  deriving DecidableEq

/-- What the call for a header sees: the chain, and the time up to which a block is not a future
one. -/
structure Seen where
  getHeader : Hash → UInt64 → Option Header
  deadline : Int64

/-- `verifyHeaderWorker`, with a flag for the seal beside each header; `none` is the panic of an
index out of range. -/
def Engine.verifyHeaderWorker (env : Env) (ethash : Engine) (config : ChainConfig) (seen : Seen)
    (headers : List (Header × Bool)) (index : Nat) : Option (Except WorkerErr Unit) := do
  let (header, sealed) ← headers[index]?
  let number := UInt64.ofNat header.number
  let parent ←
    if index = 0 then pure (seen.getHeader header.parentHash (number - 1))
    else do
      let (previous, _) ← headers[index - 1]?
      pure (if env.hash previous = header.parentHash then some previous else none)
  match parent with
  | none => pure (.error .unknownAncestor)
  | some parent =>
    if (seen.getHeader (env.hash header) number).isSome then pure (.ok ())
    else pure ((ethash.verifyHeader env config seen.deadline header parent false sealed).mapError
      .header)

/-- A worker: waiting for an index, verifying a header, sending its index to `done`, returned. -/
inductive Worker where
  | idle
  | verifying (index : Nat)
  | sending (index : Nat)
  | finished
  deriving DecidableEq

/-- The state of a call: the variables of the coordinator (`next` is `in`), whether it has not
returned, the workers, the channel `done`, the slice `errors`, what has been sent to `errorsOut` and
whether `abort` has been closed. -/
structure Batch (ε : Type) where
  next : Nat
  out : Nat
  checked : Nat → Bool
  running : Bool
  workers : List Worker
  done : List Nat
  errors : Nat → ε
  errorsOut : List ε
  aborted : Bool

namespace Batch

variable {ε : Type}

/-- The loop of the coordinator over the results that are next in order, among `n`. `errorsOut` has
room for all of them. -/
def deliver (n : Nat) : Nat → Batch ε → Batch ε
  | 0, s => s
  | rounds + 1, s =>
    if s.checked s.out then
      let s := { s with errorsOut := s.errorsOut ++ [s.errors s.out] }
      if s.out = n - 1 then { s with running := false }
      else deliver n rounds { s with out := s.out + 1 }
    else s

/-- What may happen next. The channel `inputs` has no buffer and is closed when the coordinator
returns; `done` has one place for each worker. -/
inductive Step (n : Nat) (result : Nat → ε) : Batch ε → Batch ε → Prop
  | give {s : Batch ε} {l r : List Worker} (hrun : s.running = true) (hnext : s.next < n)
      (hw : s.workers = l ++ .idle :: r) :
      Step n result s { s with next := s.next + 1, workers := l ++ .verifying s.next :: r }
  | verify {s : Batch ε} {l r : List Worker} {i : Nat} (hw : s.workers = l ++ .verifying i :: r) :
      Step n result s { s with
        errors := Function.update s.errors i (result i), workers := l ++ .sending i :: r }
  | send {s : Batch ε} {l r : List Worker} {i : Nat} (hw : s.workers = l ++ .sending i :: r)
      (hroom : s.done.length < s.workers.length) :
      Step n result s { s with done := s.done ++ [i], workers := l ++ .idle :: r }
  | receive {s : Batch ε} {i : Nat} {done : List Nat} (hrun : s.running = true)
      (hdone : s.done = i :: done) :
      Step n result s
        (deliver n n { s with done := done, checked := Function.update s.checked i true })
  | abort {s : Batch ε} (hopen : s.aborted = false) : Step n result s { s with aborted := true }
  | quit {s : Batch ε} (hrun : s.running = true) (habort : s.aborted = true) :
      Step n result s { s with running := false }
  | finish {s : Batch ε} {l r : List Worker} (hrun : s.running = false)
      (hw : s.workers = l ++ .idle :: r) :
      Step n result s { s with workers := l ++ .finished :: r }

/-- Any number of steps. -/
abbrev Steps (n : Nat) (result : Nat → ε) : Batch ε → Batch ε → Prop :=
  Relation.ReflTransGen (Step n result)

/-- A call with this many workers. -/
def start (workers : Nat) (nil : ε) : Batch ε :=
  ⟨0, 0, fun _ => false, true, List.replicate workers .idle, [], fun _ => nil, [], false⟩

/-- A call whose results are there from the start. -/
def answered (results : List ε) (nil : ε) : Batch ε :=
  ⟨0, 0, fun _ => false, false, [], [], fun _ => nil, results, false⟩

end Batch

/-- `VerifyHeaders`, where `procs` is `runtime.GOMAXPROCS(0)`. -/
def Engine.verifyHeaders (ethash : Engine) (procs : ℕ+) (headers : List (Header × Bool)) :
    Batch (Option (Except WorkerErr Unit)) :=
  if ethash.mode = .fullFake ∨ headers.length = 0 then
    .answered (headers.map fun _ => some (.ok ())) (some (.ok ()))
  else
    .start (if headers.length < procs then headers.length else procs) (some (.ok ()))

/-- A call: the engine and what it is called with, and what each worker sees when it verifies a
header. -/
structure Call where
  env : Env
  ethash : Engine
  config : ChainConfig
  seen : Nat → Seen
  procs : ℕ+
  headers : List (Header × Bool)

namespace Call

def start (call : Call) : Batch (Option (Except WorkerErr Unit)) :=
  call.ethash.verifyHeaders call.procs call.headers

/-- What `verifyHeaderWorker` returns for an index. -/
def result (call : Call) (index : Nat) : Option (Except WorkerErr Unit) :=
  call.ethash.verifyHeaderWorker call.env call.config (call.seen index) call.headers index

abbrev Step (call : Call) := Batch.Step call.headers.length call.result

abbrev Steps (call : Call) := Batch.Steps call.headers.length call.result

end Call

end Geth.Ethash
