import Geth.Mpt.Database

/-!
# The hasher (`trie/hasher.go`)

`hash` collapses a node into the hash of its encoding, or leaves it as it is if it is small, and
returns the node to keep in the live trie along with it. In commit mode it also writes the nodes to
the database; it never reads from there, so it returns the list of the inserts in their order. The
callbacks on leaves only count references and are left out.
-/

namespace Geth.Mpt

/-- A call of `db.insert`: the hash and the collapsed node. -/
structure Insert where
  hash : Hash
  node : CollapsedNode

/-- Makes the calls one after another. -/
def Database.insertAll (db : Database) (ins : List Insert) : Database :=
  ins.foldl (fun db i => db.insert i.hash (.node (simplifyNode i.node))) db

/-- The generation counters of a `hasher`, and whether it has a database to store to. -/
structure Hasher where
  cachegen : UInt16
  cachelimit : UInt16
  db : Bool

/-- What `hash` returns: the node for the parent, the node for the live trie, and the inserts. -/
structure Hashed where
  hashed : CollapsedNode
  cached : LiveNode
  inserts : List Insert

/-- A value or hash node as a collapsed node; it has neither key nor flags. -/
def bareNode {K F K' F' : Type} : Node K F → Node K' F'
  | .value v => .value v
  | .hash h => .hash h
  | _ => .nil

section

variable (keccak : Bytes → Hash)

def store (db force : Bool) (n : CollapsedNode) : CollapsedNode × List Insert :=
  match n with
  | .nil => (n, [])
  | .hash _ => (n, [])
  | n =>
    -- Nodes smaller than 32 bytes are stored inside their parent.
    if n.blob.length < 32 ∧ force = false then (n, [])
    else
      let hash := n.cache.1.getD (keccak n.blob)
      (.hash hash, if db then [⟨hash, n⟩] else [])

/-- The hash of a hash node, `hashed.(hashNode)`. -/
def hashOf {K F : Type} : Node K F → Option Hash
  | .hash h => some h
  | _ => none

/-- The flags of a node whose hash has been computed. -/
def NodeFlag.hashedAs (flags : NodeFlag) (hash : Option Hash) (db : Bool) : NodeFlag :=
  { flags with hash := hash, dirty := if db then false else flags.dirty }

/-- The end of `hash`: stores the collapsed node and caches the hash in the live one. -/
def Hasher.finish (h : Hasher) (force : Bool) (collapsed : CollapsedNode) (cached : LiveNode)
    (inserts : List Insert) : Hashed :=
  let (hashed, ins) := store keccak h.db force collapsed
  let cached := match cached with
    | .short key val flags => .short key val (flags.hashedAs (hashOf hashed) h.db)
    | .full children flags => .full children (flags.hashedAs (hashOf hashed) h.db)
    | n => n
  ⟨hashed, cached, inserts ++ ins⟩

/-- The beginning of `hash`, which uses the cached hash where it can. -/
def Hasher.fromCache (h : Hasher) (n : LiveNode) : Option Hashed :=
  match n.cache with
  | (none, _) => none
  | (some hash, dirty) =>
    if !h.db then some ⟨.hash hash, n, []⟩
    else if n.canUnload h.cachegen h.cachelimit then some ⟨.hash hash, .hash hash, []⟩
    else if !dirty then some ⟨.hash hash, n, []⟩
    else none

/-- `hash`, with the cases of `hashChildren` in it. A nil node has no method to call and is never
hashed. -/
def Hasher.hash (h : Hasher) (force : Bool) (n : LiveNode) : Hashed :=
  match h.fromCache n with
  | some r => r
  | none =>
    match n with
    | .short key (.value v) flags =>
      h.finish keccak force (.short (hexToCompact key) (.value v) flags)
        (.short key (.value v) flags) []
    | .short key val flags =>
      let r := h.hash false val
      h.finish keccak force (.short (hexToCompact key) r.hashed flags)
        (.short key r.cached flags) r.inserts
    | .full children flags =>
      let r := fun i => h.hash false (children i)
      -- The value in slot 16 is not hashed, and unset children stay unset.
      let hashes := fun i => i ≠ 16 && !(children i).isNil
      h.finish keccak force
        (.full (fun i => if hashes i then (r i).hashed else bareNode (children i)) flags)
        (.full (fun i => if hashes i then (r i).cached else children i) flags)
        (childIndices.flatMap fun i => if hashes i then (r i).inserts else [])
    | n => h.finish keccak force (bareNode n) n []

end

end Geth.Mpt
