import Geth.Mpt.Node

/-!
# The node database (`trie/database.go`)

The part of the trie database that tries read and write: the nodes in memory, kept in collapsed
form, in front of the blobs on disk. Reference counts, the flush list and preimages are left to
the garbage collector.
-/

namespace Geth.Mpt

open Rlp

def simplifyNode {F : Type} : Node Bytes F → RawNode
  | .nil => .nil
  | .value v => .value v
  | .hash h => .hash h
  | .short key val _ => .short key (simplifyNode val) ()
  | .full children _ => .full (fun i => simplifyNode (children i)) ()

/-- `expandNode`; `none` is a panic. -/
def expandNode (cachegen : UInt16) : Option Hash → RawNode → Option LiveNode
  | _, .nil => none
  | _, .value v => some (.value v)
  | _, .hash h => some (.hash h)
  | hash, .short key val _ =>
    match compactToHex key, expandNode cachegen none val with
    | some key, some val => some (.short key val ⟨hash, cachegen, false⟩)
    | _, _ => none
  | hash, .full children _ =>
    -- Unset children stay unset.
    if ∀ i, (children i).isNil ∨ (expandNode cachegen none (children i)).isSome then
      some (.full (fun i => (expandNode cachegen none (children i)).getD .nil)
        ⟨hash, cachegen, false⟩)
    else none

/-- `cachedNode.node`: a collapsed node, or a raw blob. -/
inductive CachedNode where
  | raw (blob : Bytes)
  | node (n : RawNode)

namespace CachedNode

def rlp : CachedNode → Bytes
  | .raw blob => blob
  | .node n => n.blob

def obj (hash : Hash) (cachegen : UInt16) : CachedNode → Option LiveNode
  | .raw blob => mustDecodeNode (some hash) blob cachegen
  | .node n => expandNode cachegen (some hash) n

end CachedNode

/-- `Database`: the nodes in memory, without the metadata root under the zero hash, and the blobs
on disk. -/
structure Database where
  nodes : List (Hash × CachedNode)
  diskdb : Hash → Option Bytes

namespace Database

/-- `insert`; the entry of the metadata root is always there. -/
def insert (db : Database) (hash : Hash) (n : CachedNode) : Database :=
  if hash = Hash.zero ∨ (db.nodes.lookup hash).isSome then db
  else { db with nodes := (hash, n) :: db.nodes }

/-- `node`: `none` when the hash is unknown; the inner `none` is a panic. -/
def node (db : Database) (hash : Hash) (cachegen : UInt16) : Option (Option LiveNode) :=
  if hash = Hash.zero then some none
  else
    match db.nodes.lookup hash with
    | some n => some (n.obj hash cachegen)
    | none => (db.diskdb hash).map fun enc => mustDecodeNode (some hash) enc cachegen

end Database

end Geth.Mpt
