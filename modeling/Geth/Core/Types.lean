import Geth.State.Account

/-!
# Block headers (`core/types/block.go`)

Block numbers, gas and times are natural numbers; `uint64Pred` keeps the wrap of the one subtraction
that the chain code makes on a block number.
-/

namespace Geth

abbrev BlockNonce := { b : Bytes // b.length = 8 }

abbrev Bloom := { b : Bytes // b.length = 256 }

structure Header where
  parentHash : Hash
  uncleHash : Hash
  coinbase : Address
  root : Hash
  txHash : Hash
  receiptHash : Hash
  bloom : Bloom
  difficulty : Int
  number : Nat
  gasLimit : Nat
  gasUsed : Nat
  time : Nat
  extra : Bytes
  mixDigest : Hash
  nonce : BlockNonce
  deriving DecidableEq

/-- `n - 1` in the type `uint64`. -/
def uint64Pred (n : Nat) : Nat := if n = 0 then 2 ^ 64 - 1 else n - 1

theorem uint64Pred_succ (n : Nat) : uint64Pred (n + 1) = n := rfl

end Geth
