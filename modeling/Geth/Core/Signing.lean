import Geth.Vm.Common

/-!
# Transactions and their signers (`core/types/transaction.go`, `core/types/transaction_signing.go`)

The curve is a primitive (`Ecdsa`); everything around it, from the hash that is signed to the
arithmetic on `V`, is that of the source.
-/

namespace Geth.Core

open Lib Rlp Vm

/-- `txdata`; the cached hash of the JSON form is left out. -/
structure TxData where
  accountNonce : UInt64
  price : Int
  gasLimit : UInt64
  recipient : Option Address
  amount : Int
  payload : Bytes
  v : Int
  r : Int
  s : Int
  deriving DecidableEq

/-- The signers; `chainIdMul` of the source is twice the chain id. -/
inductive Signer where
  | frontier
  | homestead
  | eip155 (chainId : Int)
  deriving DecidableEq

/-- `Transaction`, with the sender that was derived last and its signer (`sigCache`). -/
structure Transaction where
  data : TxData
  sigCache : Option (Signer × Address)

inductive TxErr where
  | invalidSig
  | invalidChainId
  | invalidPublicKey
  /-- The errors of `crypto.Sign` and `crypto.Ecrecover`. -/
  | sign
  | ecrecover
  /-- The panic of `SignatureValues`. -/
  | signatureSize
  deriving DecidableEq

/-- The curve and the hash: `crypto.Sign`, `crypto.Ecrecover`, the encoding of the public key of a
private one, and `crypto.Keccak256`. -/
structure Ecdsa where
  PrivateKey : Type
  sign : Hash → PrivateKey → Option Bytes
  ecrecover : Hash → Bytes → Option Bytes
  fromECDSAPub : PrivateKey → Bytes
  keccak : Bytes → Hash

def secp256k1N : Int := 0xfffffffffffffffffffffffffffffffebaaedce6af48a03bbfd25e8cd0364141

def secp256k1halfN : Int := secp256k1N / 2

def validateSignatureValues (v : UInt8) (r s : Int) (homestead : Bool) : Bool :=
  if r < 1 ∨ s < 1 then false
  else if homestead ∧ s > secp256k1halfN then false
  else decide (r < secp256k1N ∧ s < secp256k1N ∧ (v = 0 ∨ v = 1))

def isProtectedV (v : Int) : Bool :=
  if bitLen v ≤ 8 then decide (uint64 v ≠ 27 ∧ uint64 v ≠ 28) else true

def deriveChainId (v : Int) : Int :=
  if bitLen v ≤ 64 then
    if uint64 v = 27 ∨ uint64 v = 28 then 0 else (((uint64 v - 35) / 2).toNat : Int)
  else (v - 35) / 2

/-- A `big.Int` in a list that is encoded: an error for a negative one. -/
def bigItem (x : Int) : Option Item := if x < 0 then none else some (.str (beBytes x.toNat))

/-- The fields that every signer hashes. -/
def TxData.items (tx : TxData) : Option (List Item) := do
  let price ← bigItem tx.price
  let amount ← bigItem tx.amount
  let recipient : Bytes := match tx.recipient with
    | none => []
    | some addr => addr.val
  some [.str (beBytes tx.accountNonce.toNat), price, .str (beBytes tx.gasLimit.toNat),
    .str recipient,
    amount, .str tx.payload]

variable (E : Ecdsa)

/-- `rlpHash` of a list: a failed encoding writes nothing to the hash. -/
def rlpHash (items : Option (List Item)) : Hash :=
  E.keccak (match items with
    | some items => (Item.list items).encode
    | none => [])

/-- The encoding of `txdata`. -/
def TxData.encoding (tx : TxData) : Option (List Item) := do
  let items ← tx.items
  let v ← bigItem tx.v
  let r ← bigItem tx.r
  let s ← bigItem tx.s
  some (items ++ [v, r, s])

/-- `Hash` of a transaction. -/
def TxData.hash (tx : TxData) : Hash := rlpHash E tx.encoding

/-- `Size`: the length of the encoding. -/
def TxData.size (tx : TxData) : Nat :=
  match tx.encoding with
  | some items => (Item.list items).encode.length
  | none => 0

def TxData.cost (tx : TxData) : Int := tx.price * tx.gasLimit.toNat + tx.amount

/-- `PubkeyToAddress` of the public key of a private one. -/
def keyAddress (prv : E.PrivateKey) : Address :=
  bytesToAddress ((E.keccak ((E.fromECDSAPub prv).drop 1)).val.drop 12)

/-- `recoverPlain`. The values of a valid signature fit into the 32 bytes they are copied to. -/
def recoverPlain (sighash : Hash) (r s vb : Int) (homestead : Bool) : Except TxErr Address :=
  if bitLen vb > 8 then .error .invalidSig
  else
    let v := (uint64 vb - 27).toUInt8
    if !validateSignatureValues v r s homestead then .error .invalidSig
    else
      let pad (x : Int) : Bytes :=
        List.replicate (32 - (beBytes x.toNat).length) 0 ++ beBytes x.toNat
      match E.ecrecover sighash (pad r ++ pad s ++ [v]) with
      | none => .error .ecrecover
      | some pub =>
        if pub.head? ≠ some 4 then .error .invalidPublicKey
        else .ok (bytesToAddress ((E.keccak (pub.drop 1)).val.drop 12))

namespace Signer

/-- `Equal` of the signers. -/
def equal : Signer → Signer → Bool
  | frontier, frontier => true
  | homestead, homestead => true
  | eip155 chainId, eip155 chainId' => decide (chainId' = chainId)
  | _, _ => false

/-- `Hash` of the signers. -/
def hash : Signer → TxData → Hash
  | eip155 chainId, tx => rlpHash E (do
      let items ← tx.items
      let chainId ← bigItem chainId
      some (items ++ [chainId, .str [], .str []]))
  | _, tx => rlpHash E tx.items

/-- `HomesteadSigner.Sender`. -/
def homesteadSender (tx : TxData) : Except TxErr Address :=
  recoverPlain E (homestead.hash E tx) tx.r tx.s tx.v true

/-- `Sender` of the signers. -/
def sender : Signer → TxData → Except TxErr Address
  | frontier, tx => recoverPlain E (frontier.hash E tx) tx.r tx.s tx.v false
  | homestead, tx => homesteadSender E tx
  | eip155 chainId, tx =>
    if !isProtectedV tx.v then homesteadSender E tx
    else if deriveChainId tx.v ≠ chainId then .error .invalidChainId
    else recoverPlain E ((eip155 chainId).hash E tx) tx.r tx.s (tx.v - chainId * 2 - 8) true

/-- `SignatureValues` of the signers: `r`, `s` and `v`. -/
def signatureValues (signer : Signer) (sig : Bytes) : Except TxErr (Int × Int × Int) :=
  if sig.length ≠ 65 then .error .signatureSize
  else
    let r := setBytes (sig.take 32)
    let s := setBytes ((sig.drop 32).take 32)
    let recid := sig.getD 64 0
    match signer with
    | eip155 chainId =>
      if chainId ≠ 0 then .ok (r, s, (recid + 35).toNat + chainId * 2)
      else .ok (r, s, setBytes [recid + 27])
    | _ => .ok (r, s, setBytes [recid + 27])

end Signer

namespace Transaction

/-- `WithSignature`: a copy with the signature and without the caches. -/
def withSignature (tx : Transaction) (signer : Signer) (sig : Bytes) : Except TxErr Transaction :=
  match signer.signatureValues sig with
  | .error err => .error err
  | .ok (r, s, v) => .ok ⟨{ tx.data with r := r, s := s, v := v }, none⟩

end Transaction

def signTx (tx : Transaction) (signer : Signer) (prv : E.PrivateKey) : Except TxErr Transaction :=
  match E.sign (signer.hash E tx.data) prv with
  | none => .error .sign
  | some sig => tx.withSignature signer sig

/-- `Sender`: the sender, and the transaction with its cache. -/
def sender (signer : Signer) (tx : Transaction) : Except TxErr Address × Transaction :=
  let derive :=
    match signer.sender E tx.data with
    | .error err => (.error err, tx)
    | .ok addr => (.ok addr, { tx with sigCache := some (signer, addr) })
  match tx.sigCache with
  | some (cached, addr) => if cached.equal signer then (.ok addr, tx) else derive
  | none => derive

end Geth.Core
