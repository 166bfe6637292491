import Geth.Mpt.Node

/-!
# Accounts and storage values (`core/state/state_object.go`)

The consensus representation of an account and of a storage slot, as they stand in the tries.
-/

namespace Geth

open Lib Rlp

abbrev Address := { b : Bytes // b.length = 20 }

/-- The zero value of an array of bytes. -/
def zeroBytes (n : Nat) : { b : Bytes // b.length = n } :=
  ⟨List.replicate n 0, List.length_replicate⟩

/-- `common.BytesToHash`: longer slices are cropped from the left, shorter ones padded. -/
def bytesToHash (b : Bytes) : Hash :=
  ⟨List.replicate (32 - b.length) 0 ++ b.drop (b.length - 32), by
    rw [List.length_append, List.length_replicate, List.length_drop]
    omega⟩

namespace State

structure Account where
  nonce : UInt64
  balance : Int
  root : Hash
  codeHash : Bytes
  deriving DecidableEq

namespace Account

/-- The RLP item of an account. -/
def item (a : Account) : Item :=
  .list [.str (beBytes a.nonce.toNat), .str (beBytes a.balance.toNat), .str a.root.val,
    .str a.codeHash]

/-- `rlp.EncodeToBytes` of an account; `none` is the panic of the caller on an error. A negative
balance cannot be encoded, and no slice has `2 ^ 63` bytes. -/
def encode (a : Account) : Option Bytes :=
  if 0 ≤ a.balance ∧ a.item.encode.length < 2 ^ 63 then some a.item.encode else none

/-- The check of the decoders of integers: no leading zero. -/
def canonInt (b : Bytes) : Bool :=
  b.head? != some 0

/-- `rlp.DecodeBytes` into an account; `none` is an error. -/
def decode (b : Bytes) : Option Account := do
  let (elems, rest) ← (splitList b).toOption
  let (nonce, elems) ← (splitString elems).toOption
  let (balance, elems) ← (splitString elems).toOption
  let (root, elems) ← (splitString elems).toOption
  let (codeHash, elems) ← (splitString elems).toOption
  if h : root.length = 32 then
    if rest = [] ∧ elems = [] ∧ canonInt nonce ∧ nonce.length ≤ 8 ∧ canonInt balance then
      some ⟨UInt64.ofNat (beNat nonce), beNat balance, ⟨root, h⟩, codeHash⟩
    else none
  else none

end Account

/-- The value of a slot as it is stored: `rlp.EncodeToBytes(bytes.TrimLeft(value[:], "\x00"))`. -/
def encodeValue (value : Hash) : Bytes :=
  (Item.str (value.val.dropWhile (· = 0))).encode

/-- The content of a slot as `GetState` reads it: the value and the error of `rlp.Split`. -/
def decodeValue (enc : Bytes) : Hash × Option Rlp.Err :=
  if enc.length > 0 then
    match split enc with
    | .ok (_, content, _) => (bytesToHash content, none)
    | .error err => (bytesToHash [], some err)
  else (Hash.zero, none)

end State

end Geth
