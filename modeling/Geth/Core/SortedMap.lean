import Geth.Core.TxList
import Geth.Lib.Arena
import Geth.Lib.Choice
import Mathlib.Data.List.AList

/-!
# The nonce-sorted map as it is stored (`core/tx_list.go`)

`txSortedMap` is a map by nonce, a heap of its nonces and a slice with the sorted transactions,
which is made when it is asked for.  Slices are references into arrays of transactions; a walk over
the map takes its order from a list of choices.
-/

namespace Geth.Core.TxSortedMap

open Lib

/-- The arrays of transactions. -/
abbrev Arrays := Arena (List TxData)

/-- A slice of transactions. -/
structure Slice where
  array : Ptr
  off : Nat
  len : Nat

/-- The transactions of a slice. -/
def Slice.read (h : Arrays) (s : Slice) : List TxData := ((h.cell s.array).drop s.off).take s.len

/-- A slice of a new array. -/
def newSlice (h : Arrays) (txs : List TxData) : Slice × Arrays :=
  let (array, h) := h.alloc txs
  (⟨array, 0, txs.length⟩, h)

/-- `s[k:]`, which panics when the slice is shorter. -/
def Slice.from_ (s : Slice) (k : Nat) : Option Slice :=
  if k ≤ s.len then some ⟨s.array, s.off + k, s.len - k⟩ else none

/-- `s[:len(s)-k]`. -/
def Slice.dropLast (s : Slice) (k : Nat) : Option Slice :=
  if k ≤ s.len then some ⟨s.array, s.off, s.len - k⟩ else none

/-- `Less` of `nonceHeap`. -/
def nonceLess (a b : UInt64) : Bool := decide (a < b)

/-- `txSortedMap`. A nonce of the index that is not in the map has the nil transaction, which is
left out of the results here. -/
structure Store where
  items : AList fun _ : UInt64 => TxData
  index : Array UInt64
  cache : Option Slice

namespace Store

/-- `newTxSortedMap`. -/
def new : Store := ⟨∅, #[], none⟩

def get (m : Store) (nonce : UInt64) : Option TxData := m.items.lookup nonce

def put (m : Store) (tx : TxData) : Store where
  items := m.items.insert tx.accountNonce tx
  index :=
    if (m.items.lookup tx.accountNonce).isNone then Heap.push nonceLess m.index tx.accountNonce
    else m.index
  cache := none

/-- The loop of `Forward`. -/
def forwardLoop (threshold : UInt64) : Nat → Store → List TxData × Store
  | 0, m => ([], m)
  | fuel + 1, m =>
    match m.index[0]? with
    | none => ([], m)
    | some first =>
      if first < threshold then
        match Heap.pop nonceLess m.index with
        | none => ([], m)
        | some (nonce, index) =>
          let (removed, m') :=
            forwardLoop threshold fuel { m with items := m.items.erase nonce, index := index }
          ((m.items.lookup nonce).toList ++ removed, m')
      else ([], m)

/-- The cache after a call that cuts it, or nil as before. -/
def recache (m : Store) (cut : Slice → Option Slice) : Option Store :=
  match m.cache with
  | none => some m
  | some c => (cut c).map fun c => { m with cache := some c }

def forward (m : Store) (threshold : UInt64) : Option (List TxData × Store) := do
  let (removed, m) := forwardLoop threshold m.index.size m
  let m ← m.recache (Slice.from_ · removed.length)
  some (removed, m)

def filter (m : Store) (p : TxData → Bool) (choices : List Nat) : List TxData × Store :=
  let (walk, choices) := shuffle choices m.items.entries
  let removed := (walk.map Sigma.snd).filter p
  let items := walk.foldl (fun items e => if p e.2 then items.erase e.1 else items) m.items
  if removed.isEmpty then (removed, { m with items := items })
  else
    let (nonces, _) := shuffle choices items.keys
    (removed, ⟨items, Heap.init nonceLess nonces.toArray, none⟩)

/-- The loop of `Cap`: the last `size` of the sorted nonces down to the threshold; it panics at an
index that is not there. -/
def capLoop (index : List UInt64) (threshold : Int) : Nat → (AList fun _ : UInt64 => TxData) →
    Option (List TxData × AList fun _ : UInt64 => TxData)
  | 0, items => if 0 ≤ threshold then some ([], items) else none
  | size + 1, items =>
    if (size + 1 : Nat) ≤ threshold then some ([], items)
    else do
      let nonce ← index[size]?
      let (drops, items') ← capLoop index threshold size (items.erase nonce)
      some ((items.lookup nonce).toList ++ drops, items')

def cap (m : Store) (threshold : Int) : Option (List TxData × Store) :=
  if m.items.entries.length ≤ threshold then some ([], m)
  else do
    let index := m.index.toList.mergeSort fun a b => decide (a ≤ b)
    let (drops, items) ← capLoop index threshold m.items.entries.length m.items
    let m : Store := ⟨items, Heap.init nonceLess (index.take threshold.toNat).toArray, m.cache⟩
    let m ← m.recache (Slice.dropLast · drops.length)
    some (drops, m)

def remove (m : Store) (nonce : UInt64) : Bool × Store :=
  if (m.items.lookup nonce).isNone then (false, m)
  else
    let index :=
      match m.index.findIdx? (· == nonce) with
      | none => m.index
      | some i => ((Heap.remove nonceLess m.index i).map Prod.snd).getD m.index
    (true, ⟨m.items.erase nonce, index, none⟩)

/-- The loop of `Ready`. -/
def readyLoop : Nat → UInt64 → Store → List TxData × Store
  | 0, _, m => ([], m)
  | fuel + 1, next, m =>
    if m.index[0]? = some next then
      match Heap.pop nonceLess m.index with
      | none => ([], m)
      | some (_, index) =>
        let (ready, m') :=
          readyLoop fuel (next + 1) { m with items := m.items.erase next, index := index }
        ((m.items.lookup next).toList ++ ready, m')
    else ([], m)

def ready (m : Store) (start : UInt64) : List TxData × Store :=
  match m.index[0]? with
  | none => ([], m)
  | some first =>
    if start < first then ([], m)
    else
      let (ready, m) := readyLoop m.index.size first m
      (ready, { m with cache := none })

def len (m : Store) : Nat := m.items.entries.length

/-- The part of `Flatten` that makes the cache: an array of the transactions, sorted in place. -/
def fill (m : Store) (h : Arrays) (choices : List Nat) : Slice × Arrays :=
  match m.cache with
  | some c => (c, h)
  | none =>
    let (c, h) := newSlice h ((shuffle choices m.items.entries).1.map Sigma.snd)
    (c, h.set c.array ((h.cell c.array).mergeSort fun tx tx' =>
      decide (tx.accountNonce ≤ tx'.accountNonce)))

/-- `Flatten`: a copy of the cache. -/
def flatten (m : Store) (h : Arrays) (choices : List Nat) : Slice × Store × Arrays :=
  let (c, h) := m.fill h choices
  let (txs, h) := newSlice h (c.read h)
  (txs, { m with cache := some c }, h)

/-- The calls. -/
inductive Call where
  | get (nonce : UInt64)
  | put (tx : TxData)
  | forward (threshold : UInt64)
  | filter (p : TxData → Bool) (choices : List Nat)
  | cap (threshold : Int)
  | remove (nonce : UInt64)
  | ready (start : UInt64)
  | len
  | flatten (choices : List Nat)

/-- What a call returns; slices by reference. -/
inductive Result where
  | none
  | tx (tx : Option TxData)
  | slice (txs : Slice)
  | flag (b : Bool)
  | number (n : Nat)

/-- A result with the slice of a new array. -/
def sliced (h : Arrays) (r : List TxData × Store) : Result × Store × Arrays :=
  let (txs, h) := newSlice h r.1
  (.slice txs, r.2, h)

/-- A call; `none` is a panic. -/
def call (m : Store) (h : Arrays) : Call → Option (Result × Store × Arrays)
  | .get nonce => some (.tx (m.get nonce), m, h)
  | .put tx => some (.none, m.put tx, h)
  | .forward threshold => (m.forward threshold).map (sliced h)
  | .filter p choices => some (sliced h (m.filter p choices))
  | .cap threshold => (m.cap threshold).map (sliced h)
  | .remove nonce => some (.flag (m.remove nonce).1, (m.remove nonce).2, h)
  | .ready start => some (sliced h (m.ready start))
  | .len => some (.number m.len, m, h)
  | .flatten choices =>
    let (txs, m, h) := m.flatten h choices
    some (.slice txs, m, h)

/-- A sequence of calls: each with its result, and the arrays at the end. -/
def run (m : Store) (h : Arrays) : List Call → Option (List (Call × Result) × Arrays)
  | [] => some ([], h)
  | c :: calls => do
    let (r, m', h') ← m.call h c
    let (log, last) ← m'.run h' calls
    some ((c, r) :: log, last)

end Store

end Geth.Core.TxSortedMap
