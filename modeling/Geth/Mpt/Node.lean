import Geth.Rlp.Raw
import Geth.Mpt.Encoding

/-!
# Trie nodes (`trie/node.go`)

One inductive type covers the node types of the source. The nodes of a live trie have hex keys and
cache flags; the collapsed nodes the hasher makes have compact keys; the database drops the flags
(`rawShortNode`, `rawFullNode`).
-/

namespace Geth

abbrev Hash := { b : Bytes // b.length = 32 }

instance : LawfulBEq Hash := inferInstance

namespace Hash

/-- `common.Hash{}`. -/
def zero : Hash := ⟨List.replicate 32 0, List.length_replicate⟩

end Hash

namespace Mpt

open Rlp

structure NodeFlag where
  hash : Option Hash
  gen : UInt16
  dirty : Bool
  deriving DecidableEq

/-- A node; `nil` is the nil interface. Keys are of type `K` and flags of type `F`. -/
inductive Node (K F : Type) where
  | nil
  | value (v : Bytes)
  | hash (h : Hash)
  | short (key : K) (val : Node K F) (flags : F)
  | full (children : Fin 17 → Node K F) (flags : F)

/-- The nodes of a live trie. -/
abbrev LiveNode := Node Hex NodeFlag

/-- The nodes `hashChildren` makes: their keys are compact. -/
abbrev CollapsedNode := Node Bytes NodeFlag

/-- The nodes the database keeps: `rawShortNode` and `rawFullNode`. -/
abbrev RawNode := Node Bytes Unit

namespace Node

variable {K F : Type}

/-- `n == nil`. -/
def isNil : Node K F → Bool
  | .nil => true
  | _ => false

/-- The cached hash and the dirty flag, `cache`. -/
def cache : Node K NodeFlag → Option Hash × Bool
  | .short _ _ flags => (flags.hash, flags.dirty)
  | .full _ flags => (flags.hash, flags.dirty)
  | _ => (none, true)

/-- `canUnload`; the generation counters wrap around. -/
def canUnload (cachegen cachelimit : UInt16) : Node K NodeFlag → Bool
  | .short _ _ flags => !flags.dirty && cachegen - flags.gen ≥ cachelimit
  | .full _ flags => !flags.dirty && cachegen - flags.gen ≥ cachelimit
  | _ => false

/-- What `rlp.Encode` writes for a node: a nil interface is an empty list, but the unset children
of a full node are written as `nilValueNode`. -/
def item : Node Bytes F → Item
  | .nil => .list []
  | .value v => .str v
  | .hash h => .str h.val
  | .short key val _ => .list [.str key, val.item]
  | .full children _ =>
    .list (List.ofFn fun i => if (children i).isNil then .str [] else (children i).item)

/-- The RLP encoding of a node. -/
def blob (n : Node Bytes F) : Bytes :=
  n.item.encode

end Node

/-- The errors of `decodeNode`; `panic` and `outOfFuel` stand for runs that do not return. -/
inductive NodeErr where
  | unexpectedEOF
  | rlp (err : Rlp.Err)
  | decode (err : Rlp.Err)
  | elements (c : Nat)
  | invalidValue (err : Rlp.Err)
  | oversized (size : Nat)
  | stringSize (len : Nat)
  | wrapped (what : NodeErr) (stack : List String)
  | panic
  | outOfFuel

def wrapError (err : NodeErr) (ctx : String) : NodeErr :=
  match err with
  | .wrapped what stack => .wrapped what (stack ++ [ctx])
  | .panic => .panic
  | .outOfFuel => .outOfFuel
  | err => .wrapped err [ctx]

/-- Applies `wrapError` to the error of a result. -/
def wrapping {α : Type} (ctx : String) : Except NodeErr α → Except NodeErr α
  | .ok a => .ok a
  | .error err => .error (wrapError err ctx)

/-- `decodeRef`, with the decoder for embedded nodes: the node and the rest of the input. -/
def decodeRef (decode : Bytes → Except NodeErr LiveNode) (buf : Bytes) :
    Except NodeErr (LiveNode × Bytes) :=
  match split buf with
  | .error err => .error (.rlp err)
  | .ok (.list, _, rest) =>
    -- An embedded node must be smaller than a hash.
    if buf.length - rest.length > 32 then .error (.oversized (buf.length - rest.length))
    else
      match decode buf with
      | .error err => .error err
      | .ok n => .ok (n, rest)
  | .ok (.string, val, rest) =>
    if val.length = 0 then .ok (.nil, rest)
    else if h : val.length = 32 then .ok (.hash ⟨val, h⟩, rest)
    else .error (.stringSize val.length)
  | .ok (.byte, val, _) => .error (.stringSize val.length)

def decodeShort (decode : Bytes → Except NodeErr LiveNode) (hash : Option Hash) (elems : Bytes)
    (cachegen : UInt16) : Except NodeErr LiveNode :=
  match splitString elems with
  | .error err => .error (.rlp err)
  | .ok (kbuf, rest) =>
    let flag : NodeFlag := ⟨hash, cachegen, false⟩
    match compactToHex kbuf with
    | none => .error .panic
    | some key =>
      if hasTerm key then
        match splitString rest with
        | .error err => .error (.invalidValue err)
        | .ok (val, _) => .ok (.short key (.value val) flag)
      else
        match decodeRef decode rest with
        | .error err => .error (wrapError err "val")
        | .ok (r, _) => .ok (.short key r flag)

/-- The loop of `decodeFull` over the children `is`. -/
def decodeChildren (decode : Bytes → Except NodeErr LiveNode) :
    List (Fin 17) → (Fin 17 → LiveNode) → Bytes → Except NodeErr ((Fin 17 → LiveNode) × Bytes)
  | [], children, elems => .ok (children, elems)
  | i :: is, children, elems =>
    match decodeRef decode elems with
    | .error err => .error (wrapError err ("[" ++ toString i.val ++ "]"))
    | .ok (cld, rest) => decodeChildren decode is (Function.update children i cld) rest

/-- The indices 0 to 15 of the children proper. -/
def childIndices : List (Fin 17) :=
  (List.finRange 16).map Fin.castSucc

def decodeFull (decode : Bytes → Except NodeErr LiveNode) (hash : Option Hash) (elems : Bytes)
    (cachegen : UInt16) : Except NodeErr LiveNode :=
  match decodeChildren decode childIndices (fun _ => .nil) elems with
  | .error err => .error err
  | .ok (children, elems) =>
    match splitString elems with
    | .error err => .error (.rlp err)
    | .ok (val, _) =>
      let children := if val.length > 0 then Function.update children 16 (.value val) else children
      .ok (.full children ⟨hash, cachegen, false⟩)

/-- `decodeNode`; an embedded node is shorter than the node around it, so the length of the input
bounds the recursion. -/
def decodeNodeLoop (cachegen : UInt16) : Nat → Option Hash → Bytes → Except NodeErr LiveNode
  | 0, _, _ => .error .outOfFuel
  | fuel + 1, hash, buf =>
    if buf.length = 0 then .error .unexpectedEOF
    else
      match splitList buf with
      | .error err => .error (.decode err)
      | .ok (elems, _) =>
        -- The error of CountValues is dropped; the count is then zero.
        let c := match countValues elems with
          | .ok c => c
          | .error _ => 0
        if c = 2 then
          wrapping "short" (decodeShort (decodeNodeLoop cachegen fuel none) hash elems cachegen)
        else if c = 17 then
          wrapping "full" (decodeFull (decodeNodeLoop cachegen fuel none) hash elems cachegen)
        else .error (.elements c)

@[inherit_doc decodeNodeLoop]
def decodeNode (hash : Option Hash) (buf : Bytes) (cachegen : UInt16) : Except NodeErr LiveNode :=
  decodeNodeLoop cachegen (buf.length + 1) hash buf

/-- `mustDecodeNode`; `none` is its panic. -/
def mustDecodeNode (hash : Option Hash) (buf : Bytes) (cachegen : UInt16) : Option LiveNode :=
  match decodeNode hash buf cachegen with
  | .ok n => some n
  | .error _ => none

end Mpt

end Geth
