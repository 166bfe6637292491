import Geth.Rlp.Decode

/-!
# Node records (`p2p/enr/enr.go`)

A record holds pairs of keys and encoded values, a sequence number and, once it is signed, its
signature and its encoding. `Set` takes the signature away; a record that had none is renumbered.
The registry of identity schemes is a parameter: a scheme is what its `Verify` accepts.
-/

namespace Geth.Enr

open Lib

/-- `pair`; the value is an encoding. -/
structure Pair where
  k : Bytes
  v : Bytes
  deriving DecidableEq

structure Record where
  seq : UInt64
  signature : Option Bytes
  raw : Option Bytes
  pairs : List Pair
  deriving DecidableEq

/-- An `Entry`: its `ENRKey`, and what `rlp.EncodeToBytes` makes of it. -/
structure Entry where
  key : Bytes
  blob : Option Bytes

/-- What `Verify` of a scheme accepts. -/
abbrev IdentityScheme := Record → Option Bytes → Bool

/-- How a call ends without a result. -/
inductive Fault where
  /-- The value cannot be encoded, there is no scheme, or it is another one. -/
  | panic
  | invalidSig
  | tooBig
  deriving DecidableEq

def sizeLimit : Nat := 300

/-- The key `"id"`. -/
def idKey : Bytes := [0x69, 0x64]

namespace Record

/-- Where `sort.Search` finds a key: the first pair whose key is not smaller. -/
def search (pairs : List Pair) (key : Bytes) : Nat := pairs.findIdx fun p => decide (key ≤ p.k)

def invalidate (r : Record) : Record :=
  { r with
    seq := if r.signature = none then r.seq + 1 else r.seq
    signature := none
    raw := none }

/-- The pairs after `Set`. -/
def setPair (pairs : List Pair) (key blob : Bytes) : List Pair :=
  let i := search pairs key
  match pairs[i]? with
  | some p => if p.k = key then pairs.set i ⟨p.k, blob⟩ else pairs.insertIdx i ⟨key, blob⟩
  | none => pairs ++ [⟨key, blob⟩]

def set (r : Record) (e : Entry) : Except Fault Record :=
  match e.blob with
  | none => .error .panic
  | some blob => .ok { r.invalidate with pairs := setPair r.pairs e.key blob }

/-- `idScheme`: `Load` of the key `"id"`, as a string, and the scheme of that name. -/
def idScheme (schemes : Bytes → Option IdentityScheme) (r : Record) :
    Option (Bytes × IdentityScheme) :=
  match r.pairs[search r.pairs idKey]? with
  | none => none
  | some p =>
    if p.k = idKey then
      match Rlp.decodeBytes 1 .string p.v with
      | some (.ok (.str id)) => (schemes id).map fun scheme => (id, scheme)
      | _ => none
    else none

/-- `encode`: the list of the signature, the number, and the keys and values. -/
def encode (r : Record) (sig : Option Bytes) : Except Fault Bytes :=
  let elements := r.pairs.flatMap fun p => Rlp.encodeStr p.k ++ p.v
  let payload := Rlp.encodeStr (sig.getD []) ++ Rlp.encodeStr (beBytes r.seq.toNat) ++ elements
  let raw := Rlp.header 0xC0 0xF7 payload.length ++ payload
  if raw.length > sizeLimit then .error .tooBig else .ok raw

def setSig (schemes : Bytes → Option IdentityScheme) (r : Record) (idscheme : Bytes)
    (sig : Option Bytes) : Except Fault Record :=
  match r.idScheme schemes with
  | none => .error .panic
  | some (id, verify) =>
    if id ≠ idscheme then .error .panic
    else if verify r sig then
      match r.encode sig with
      | .error err => .error err
      | .ok raw => .ok { r with signature := sig, raw := some raw }
    else .error .invalidSig

end Record

/-- A call on a record. -/
inductive Op where
  | set (e : Entry)
  | setSig (idscheme : Bytes) (sig : Option Bytes)

namespace Record

variable (schemes : Bytes → Option IdentityScheme)

/-- The record after a call; one that fails leaves it as it was. -/
def step (r : Record) : Op → Record
  | .set e => (r.set e).toOption.getD r
  | .setSig idscheme sig => (r.setSig schemes idscheme sig).toOption.getD r

/-- The record at first and after each call. -/
def states : Record → List Op → List Record
  | r, [] => [r]
  | r, op :: ops => r :: states (r.step schemes op) ops

/-- The signed versions of the record in a history. -/
def versions (r : Record) (ops : List Op) : List Record :=
  (states schemes r ops).filter fun r => r.signature.isSome

end Record

end Geth.Enr
