import Geth.Core.Signing
import Geth.Lib.BinaryHeap

/-!
# Lists of transactions (`core/tx_list.go`)

A `txList` holds the transactions of one account by nonce; the `txPricedList` is a heap of all of
them by price, in which a transaction that has left the pool stays as a stale entry.
-/

namespace Geth.Core

open Lib List

/-- `txSortedMap`: the transactions in the order of their nonces. The source keeps them in a map by
nonce with a heap of the nonces, of which it takes the least one, and sorts them for `Cap` and
`Flatten`. -/
structure TxSortedMap where
  items : List TxData
  sorted : items.Pairwise fun tx tx' => tx.accountNonce < tx'.accountNonce

namespace TxSortedMap

/-- `newTxSortedMap`. -/
def new : TxSortedMap := ⟨[], List.Pairwise.nil⟩

def get (m : TxSortedMap) (nonce : UInt64) : Option TxData :=
  m.items.find? fun tx => tx.accountNonce = nonce

/-- The map with the transactions that satisfy `p`. -/
def keep (m : TxSortedMap) (p : TxData → Bool) : TxSortedMap :=
  ⟨m.items.filter p, m.sorted.filter p⟩

theorem put_sorted (m : TxSortedMap) (tx : TxData) :
    (m.items.filter (fun x => decide (x.accountNonce < tx.accountNonce)) ++
      tx :: m.items.filter (fun x => decide (tx.accountNonce < x.accountNonce))).Pairwise
        fun tx tx' => tx.accountNonce < tx'.accountNonce := by
  refine pairwise_append.2 ⟨m.sorted.filter _, ?_, ?_⟩
  · refine pairwise_cons.2 ⟨fun y hy => ?_, m.sorted.filter _⟩
    exact of_decide_eq_true (mem_filter.1 hy).2
  · intro x hx y hy
    have hx' : x.accountNonce < tx.accountNonce := of_decide_eq_true (mem_filter.1 hx).2
    rcases mem_cons.1 hy with rfl | hy
    · exact hx'
    · exact UInt64.lt_trans hx' (of_decide_eq_true (mem_filter.1 hy).2)

def put (m : TxSortedMap) (tx : TxData) : TxSortedMap := ⟨_, m.put_sorted tx⟩

/-- `Forward`: what is removed, and what is left. -/
def forward (m : TxSortedMap) (threshold : UInt64) : List TxData × TxSortedMap :=
  (m.items.filter fun tx => tx.accountNonce < threshold,
    m.keep fun tx => !decide (tx.accountNonce < threshold))

/-- `Filter`; the source removes in the order of its map. -/
def filter (m : TxSortedMap) (p : TxData → Bool) : List TxData × TxSortedMap :=
  (m.items.filter p, m.keep fun tx => !p tx)

/-- `Cap`; with a negative threshold the loop runs out of the index. -/
def cap (m : TxSortedMap) (threshold : Int) : Option (List TxData × TxSortedMap) :=
  if m.items.length ≤ threshold then some ([], m)
  else if threshold < 0 then none
  else some ((m.items.drop threshold.toNat).reverse,
    ⟨m.items.take threshold.toNat, m.sorted.sublist (List.take_sublist _ _)⟩)

def remove (m : TxSortedMap) (nonce : UInt64) : Bool × TxSortedMap :=
  if (m.get nonce).isSome then (true, m.keep fun tx => tx.accountNonce ≠ nonce) else (false, m)

/-- How many transactions at the front have the nonces from `next` on. -/
def consecutive : UInt64 → List TxData → Nat
  | _, [] => 0
  | next, tx :: rest => if tx.accountNonce = next then consecutive (next + 1) rest + 1 else 0

def ready (m : TxSortedMap) (start : UInt64) : List TxData × TxSortedMap :=
  match m.items.head? with
  | none => ([], m)
  | some tx =>
    if start < tx.accountNonce then ([], m)
    else
      let k := consecutive tx.accountNonce m.items
      (m.items.take k, ⟨m.items.drop k, m.sorted.sublist (List.drop_sublist _ _)⟩)

def len (m : TxSortedMap) : Nat := m.items.length

end TxSortedMap

structure TxList where
  strict : Bool
  txs : TxSortedMap
  costcap : Int
  gascap : UInt64

namespace TxList

/-- `newTxList`. -/
def new (strict : Bool) : TxList := ⟨strict, .new, 0, 0⟩

def overlaps (l : TxList) (tx : TxData) : Bool := (l.txs.get tx.accountNonce).isSome

/-- Whether `Add` keeps `old` instead of `tx`. -/
def outbids (old tx : TxData) (priceBump : UInt64) : Bool :=
  let threshold := old.price * (100 + priceBump.toInt64).toInt / 100
  decide (tx.price ≤ old.price ∨ tx.price < threshold)

/-- `Add`: whether the transaction was inserted, and the one it replaced. -/
def add (l : TxList) (tx : TxData) (priceBump : UInt64) : Bool × Option TxData × TxList :=
  let old := l.txs.get tx.accountNonce
  if old.any (outbids · tx priceBump) then (false, none, l)
  else
    (true, old, { l with
      txs := l.txs.put tx
      costcap := max l.costcap tx.cost
      gascap := max l.gascap tx.gasLimit })

def forward (l : TxList) (threshold : UInt64) : List TxData × TxList :=
  let (removed, txs) := l.txs.forward threshold
  (removed, { l with txs := txs })

/-- What `Filter` removes first: what costs more or needs more gas than the thresholds. -/
def exceeds (costLimit : Int) (gasLimit : UInt64) (tx : TxData) : Bool :=
  decide (costLimit < tx.cost ∨ gasLimit < tx.gasLimit)

/-- `Filter` without its shortcut. -/
def scan (l : TxList) (costLimit : Int) (gasLimit : UInt64) :
    List TxData × List TxData × TxList :=
  let (removed, txs) := l.txs.filter (exceeds costLimit gasLimit)
  if l.strict && !removed.isEmpty then
    let lowest := removed.foldl (fun lowest tx => min lowest tx.accountNonce) 0xffffffffffffffff
    let (invalids, txs) := txs.filter fun tx => lowest < tx.accountNonce
    (removed, invalids, { l with txs := txs, costcap := costLimit, gascap := gasLimit })
  else (removed, [], { l with txs := txs, costcap := costLimit, gascap := gasLimit })

/-- `Filter`: what exceeds the thresholds and, in a strict list, what comes after it. -/
def filter (l : TxList) (costLimit : Int) (gasLimit : UInt64) :
    List TxData × List TxData × TxList :=
  if l.costcap ≤ costLimit ∧ l.gascap ≤ gasLimit then ([], [], l) else l.scan costLimit gasLimit

def cap (l : TxList) (threshold : Int) : Option (List TxData × TxList) :=
  (l.txs.cap threshold).map fun (drops, txs) => (drops, { l with txs := txs })

/-- `Remove`: whether the transaction was found, and in a strict list what comes after it. -/
def remove (l : TxList) (tx : TxData) : Bool × List TxData × TxList :=
  let (removed, txs) := l.txs.remove tx.accountNonce
  if !removed then (false, [], l)
  else if l.strict then
    let (invalids, txs) := txs.filter fun x => tx.accountNonce < x.accountNonce
    (true, invalids, { l with txs := txs })
  else (true, [], { l with txs := txs })

def ready (l : TxList) (start : UInt64) : List TxData × TxList :=
  let (ready, txs) := l.txs.ready start
  (ready, { l with txs := txs })

def len (l : TxList) : Nat := l.txs.len

def empty (l : TxList) : Bool := l.len = 0

def flatten (l : TxList) : List TxData := l.txs.items

end TxList

/-- `Less` of `priceHeap`: the cheaper one, then the one with the higher nonce. -/
def priceLess (tx tx' : TxData) : Bool :=
  if tx.price < tx'.price then true
  else if tx'.price < tx.price then false
  else tx'.accountNonce < tx.accountNonce

/-- `txPricedList`. The transactions that are in the pool are an argument of its methods. -/
structure TxPricedList where
  items : Array TxData
  stales : Int

namespace TxPricedList

/-- `newTxPricedList`. -/
def new : TxPricedList := ⟨#[], 0⟩

def put (l : TxPricedList) (tx : TxData) : TxPricedList :=
  { l with items := Heap.push priceLess l.items tx }

/-- `Removed`; `all` are the transactions of the pool in the order in which they are visited. -/
def removed (l : TxPricedList) (all : List TxData) : TxPricedList :=
  if l.stales + 1 ≤ (l.items.size / 4 : Nat) then { l with stales := l.stales + 1 }
  else ⟨Heap.init priceLess all.toArray, 0⟩

section Sweeps

variable (pooled isLocal : TxData → Bool)

/-- The transactions that a sweep put aside return to the heap. -/
def putBack (l : TxPricedList) (save : List TxData) : TxPricedList := save.foldl put l

/-- The loop of `Underpriced`: stale entries leave the front of the heap. -/
def prune : Nat → TxPricedList → TxPricedList
  | 0, l => l
  | fuel + 1, l =>
    match l.items[0]? with
    | none => l
    | some head =>
      if pooled head then l
      else
        match Heap.pop priceLess l.items with
        | none => l
        | some (_, items) => prune fuel ⟨items, l.stales - 1⟩

def underpriced (l : TxPricedList) (tx : TxData) : Bool × TxPricedList :=
  if isLocal tx then (false, l)
  else
    let l := prune pooled l.items.size l
    match l.items[0]? with
    | none => (false, l)
    | some cheapest => (decide (tx.price ≤ cheapest.price), l)

/-- The loop of `Discard`: the heap, the transactions to drop and those to put back. -/
def discardLoop : Nat → Nat → TxPricedList → TxPricedList × List TxData × List TxData
  | 0, _, l => (l, [], [])
  | _ + 1, 0, l => (l, [], [])
  | fuel + 1, count + 1, l =>
    match Heap.pop priceLess l.items with
    | none => (l, [], [])
    | some (tx, items) =>
      if !pooled tx then discardLoop fuel (count + 1) ⟨items, l.stales - 1⟩
      else if isLocal tx then
        let (l', drop, save) := discardLoop fuel (count + 1) { l with items := items }
        (l', drop, tx :: save)
      else
        let (l', drop, save) := discardLoop fuel count { l with items := items }
        (l', tx :: drop, save)

/-- `Discard`: the transactions that are dropped. -/
def discard (l : TxPricedList) (count : Nat) : List TxData × TxPricedList :=
  let (l', drop, save) := discardLoop pooled isLocal l.items.size count l
  (drop, l'.putBack save)

end Sweeps

end TxPricedList

end Geth.Core
