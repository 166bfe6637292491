import Geth.Core.Bloom
import Geth.Vm.Common

/-!
# Log filters (`eth/filters/filter.go`)

The logs of a range of blocks that match some addresses and topics.  The part of the range for which
there is a bit index is searched by a matcher, whose sessions are a parameter, and the rest by the
filters of the headers.  Block numbers are `int64` in a filter and `uint64` in the index; the search
is not cancelled.
-/

namespace Geth.Eth

open Geth.Core State Vm

/-- The conversion of a `uint64`, or of a sum, to `int64`. -/
def toInt64 (n : Int) : Int := n.bmod (2 ^ 64)

/-- The conversion of an `int64` to `uint64`. -/
def toUint64 (n : Int) : Nat := (n % 2 ^ 64).toNat

/-- `Backend`: `HeaderByNumber`, where -1 is the latest block, `GetReceipts`, `GetLogs`, the section
size and the number of sections of `BloomStatus`, and the sessions of the matcher over a range, with
the blocks that they report and the error that they end with. -/
structure Backend (ε : Type) where
  headerByNumber : Int → Except ε (Option Header)
  getReceipts : Hash → Except ε (List Receipt)
  getLogs : Hash → Except ε (List (List Log))
  size : Nat
  sections : Nat
  session : List Address → List (List Hash) → Nat → Nat → Except ε (List Nat × Option ε)

structure Filter where
  begin_ : Int
  end_ : Int
  addresses : List Address
  topics : List (List Hash)

/-- The topics of a log against those of a filter, position by position. -/
def topicsMatch : List (List Hash) → List Hash → Bool
  | [], _ => true
  | _ :: _, [] => false
  | sub :: topics, topic :: rest => (sub.isEmpty || sub.contains topic) && topicsMatch topics rest

def filterLogs (logs : List Log) (fromBlock toBlock : Option Int) (addresses : List Address)
    (topics : List (List Hash)) : List Log :=
  logs.filter fun log =>
    !(fromBlock.any fun n => decide (0 ≤ int64 n ∧ log.blockNumber < uint64 n)) &&
    !(toBlock.any fun n => decide (0 ≤ int64 n ∧ uint64 n < log.blockNumber)) &&
    (addresses.isEmpty || addresses.contains log.address) &&
    !decide (log.topics.length < topics.length) && topicsMatch topics log.topics

def bloomFilter (keccak : Keccak) (bloom : Bloom) (addresses : List Address)
    (topics : List (List Hash)) : Bool :=
  (addresses.isEmpty || addresses.any fun addr => bloomLookup keccak bloom addr.val) &&
    topics.all fun sub => sub.isEmpty || sub.any fun topic => bloomLookup keccak bloom topic.val

namespace Filter

variable {ε : Type} (b : Backend ε) (hash : Header → Hash) (keccak : Keccak)

def checkMatches (f : Filter) (header : Header) : Except ε (List Log) := do
  let logsList ← b.getLogs (hash header)
  let logs := filterLogs logsList.flatten none none f.addresses f.topics
  match logs with
  | [] => .ok []
  | log :: _ =>
    -- the logs of a light client have to be resolved
    if log.txHash = Hash.zero then do
      let receipts ← b.getReceipts (hash header)
      .ok (filterLogs (receipts.flatMap Receipt.logs) none none f.addresses f.topics)
    else .ok logs

/-- The loop of `indexedLogs` over the blocks that the session reports: the logs, an error, and the
filter with the new start. -/
def drain (end_ : Nat) (err : Option ε) : List Nat → Filter → List Log × Option ε × Filter
  | [], f =>
    match err with
    | none => ([], none, { f with begin_ := toInt64 (toInt64 end_ + 1) })
    | some err => ([], some err, f)
  | number :: rest, f =>
    let f := { f with begin_ := toInt64 (toInt64 number + 1) }
    match b.headerByNumber (toInt64 number) with
    | .error err => ([], some err, f)
    | .ok none => ([], none, f)
    | .ok (some header) =>
      match f.checkMatches b hash header with
      | .error err => ([], some err, f)
      | .ok found =>
        let (logs, res) := drain end_ err rest f
        (found ++ logs, res)

def indexedLogs (f : Filter) (end_ : Nat) : List Log × Option ε × Filter :=
  match b.session f.addresses f.topics (toUint64 f.begin_) end_ with
  | .error err => ([], some err, f)
  | .ok (blocks, err) => drain b hash end_ err blocks f

/-- `unindexedLogs`; `none` is a loop that has not ended. -/
def unindexedLogs (end_ : Nat) : Nat → Filter → Option (List Log × Option ε)
  | 0, _ => none
  | fuel + 1, f =>
    if f.begin_ ≤ toInt64 end_ then
      match b.headerByNumber f.begin_ with
      | .error err => some ([], some err)
      | .ok none => some ([], none)
      | .ok (some header) =>
        let found :=
          if bloomFilter keccak header.bloom f.addresses f.topics then f.checkMatches b hash header
          else .ok []
        match found with
        | .error err => some ([], some err)
        | .ok found =>
          (unindexedLogs end_ fuel { f with begin_ := toInt64 (f.begin_ + 1) }).map
            fun (logs, err) => (found ++ logs, err)
    else some ([], none)

def logs (f : Filter) (fuel : Nat) : Option (List Log × Option ε) :=
  match b.headerByNumber (-1) with
  | .error _ => some ([], none)
  | .ok none => some ([], none)
  | .ok (some header) =>
    let head := (uint64 header.number).toNat
    let f := if f.begin_ = -1 then { f with begin_ := toInt64 head } else f
    let end_ := if f.end_ = -1 then head else toUint64 f.end_
    let indexed := b.sections * b.size % 2 ^ 64
    let (logs, err, f) :=
      if toUint64 f.begin_ < indexed then
        f.indexedLogs b hash (if end_ < indexed then end_ else indexed - 1)
      else ([], none, f)
    match err with
    | some err => some (logs, some err)
    | none =>
      (unindexedLogs b hash keccak end_ fuel f).map fun (rest, err) => (logs ++ rest, err)

end Filter

end Geth.Eth
