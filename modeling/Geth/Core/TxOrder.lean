import Geth.Core.Signing
import Geth.Lib.BinaryHeap
import Mathlib.Data.List.AList

/-!
# The order of transactions in a block (`core/types/transaction.go`)

`TransactionsByPriceAndNonce` keeps a heap with the next transaction of every account and a map with
the ones that come after it.  The account of a transaction is the sender that the signer derives.
-/

namespace Geth.Core

open Lib

variable (E : Ecdsa)

/-- The sender, where the source leaves the error out: the zero address then. -/
def Signer.account (signer : Signer) (tx : TxData) : Address :=
  match signer.sender E tx with
  | .ok addr => addr
  | .error _ => zeroBytes 20

/-- `Less` of `TxByPrice`. -/
def txByPrice (tx tx' : TxData) : Bool := decide (tx'.price < tx.price)

structure TransactionsByPriceAndNonce where
  txs : AList fun _ : Address => List TxData
  heads : Array TxData
  signer : Signer

namespace TransactionsByPriceAndNonce

/-- The loop of `NewTransactionsByPriceAndNonce`, over the accounts in the order in which they are
visited; `none` is the panic on an account without transactions. -/
def takeHeads (signer : Signer) : List Address → (AList fun _ : Address => List TxData) →
    Array TxData → Option ((AList fun _ : Address => List TxData) × Array TxData)
  | [], txs, heads => some (txs, heads)
  | from_ :: order, txs, heads =>
    match txs.lookup from_ with
    | none => takeHeads signer order txs heads -- deleted before it was visited
    | some [] => none
    | some (tx :: rest) =>
      let acc := signer.account E tx
      let txs := txs.insert acc rest
      takeHeads signer order (if from_ ≠ acc then txs.erase from_ else txs) (heads.push tx)

/-- `NewTransactionsByPriceAndNonce`. -/
def new (signer : Signer) (txs : AList fun _ : Address => List TxData) (order : List Address) :
    Option TransactionsByPriceAndNonce :=
  (takeHeads E signer order txs #[]).map fun (txs, heads) =>
    ⟨txs, Heap.init txByPrice heads, signer⟩

def peek (t : TransactionsByPriceAndNonce) : Option TxData := t.heads[0]?

/-- `Pop`; `none` is the panic when nothing is left. -/
def pop (t : TransactionsByPriceAndNonce) : Option TransactionsByPriceAndNonce :=
  (Heap.pop txByPrice t.heads).map fun (_, heads) => { t with heads := heads }

/-- `Shift`; `none` is the panic when nothing is left. -/
def shift (t : TransactionsByPriceAndNonce) : Option TransactionsByPriceAndNonce :=
  match t.heads[0]? with
  | none => none
  | some head =>
    let acc := t.signer.account E head
    match t.txs.lookup acc with
    | some (tx :: rest) =>
      some { t with
        txs := t.txs.insert acc rest
        heads := Heap.fix txByPrice (t.heads.setIfInBounds 0 tx) 0 }
    | _ => t.pop

/-- The methods. -/
inductive Call where
  | peek
  | shift
  | pop
  deriving DecidableEq

def call (t : TransactionsByPriceAndNonce) : Call → Option TransactionsByPriceAndNonce
  | .peek => some t
  | .shift => t.shift E
  | .pop => t.pop

/-- A sequence of calls: each with the transaction that `Peek` returns when it is made, and the set
after the last one. -/
def run (t : TransactionsByPriceAndNonce) :
    List Call → Option (List (Call × Option TxData) × TransactionsByPriceAndNonce)
  | [] => some ([], t)
  | c :: calls => do
    let t' ← t.call E c
    let (log, last) ← t'.run calls
    some ((c, t.peek) :: log, last)

end TransactionsByPriceAndNonce

end Geth.Core
