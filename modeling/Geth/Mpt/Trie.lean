import Geth.Mpt.Hasher

/-!
# Merkle Patricia tries (`trie/trie.go`)

Nodes are loaded from the database where an operation meets a hash node, so the recursions are on
fuel; the wrappers supply two steps for each nibble of the key. The arguments `key` and `pos` of
`tryGet` are the nibbles before and after the position.
-/

namespace Geth.Mpt

/-- A `MissingNodeError`, or a run that does not return. -/
inductive TrieErr where
  | missingNode (nodeHash : Hash) (path : Hex)
  | panic
  | outOfFuel

structure Trie where
  db : Database
  root : LiveNode
  originalRoot : Hash
  cachegen : UInt16
  cachelimit : UInt16

def emptyRoot : Hash :=
  ⟨[0x56, 0xe8, 0x1f, 0x17, 0x1b, 0xcc, 0x55, 0xa6, 0xff, 0x83, 0x45, 0xe6, 0x92, 0xc0, 0xf8, 0x6e,
    0x5b, 0x48, 0xe0, 0x1b, 0x99, 0x6c, 0xad, 0xc0, 0x01, 0x62, 0x2f, 0xb5, 0xe3, 0x63, 0xb4, 0x21],
    rfl⟩

namespace Trie

def newFlag (t : Trie) : NodeFlag := ⟨none, t.cachegen, true⟩

def setCacheLimit (t : Trie) (l : UInt16) : Trie := { t with cachelimit := l }

def resolveHash (t : Trie) (n : Hash) (path : Hex) : Except TrieErr LiveNode :=
  match t.db.node n t.cachegen with
  | some (some node) => .ok node
  | some none => .error .panic
  | none => .error (.missingNode n path)

def resolve (t : Trie) (n : LiveNode) (path : Hex) : Except TrieErr LiveNode :=
  match n with
  | .hash h => t.resolveHash h path
  | n => .ok n

def new (root : Hash) (db : Database) : Except TrieErr Trie :=
  let trie : Trie := ⟨db, .nil, root, 0, 0⟩
  if root ≠ Hash.zero ∧ root ≠ emptyRoot then
    match trie.resolveHash root [] with
    | .error err => .error err
    | .ok rootnode => .ok { trie with root := rootnode }
  else .ok trie

/-- `tryGet`: value, new node and whether a node was loaded. -/
def tryGet (t : Trie) : Nat → LiveNode → Hex → Hex →
    Except TrieErr (Option Bytes × LiveNode × Bool)
  | 0, _, _, _ => .error .outOfFuel
  | fuel + 1, n, path, key =>
    match n with
    | .nil => .ok (none, .nil, false)
    | .value v => .ok (some v, .value v, false)
    | .short nkey val flags =>
      if key.take nkey.length ≠ nkey then .ok (none, n, false)
      else
        match t.tryGet fuel val (path ++ nkey) (key.drop nkey.length) with
        | .error err => .error err
        | .ok (value, newnode, didResolve) =>
          if didResolve then
            .ok (value, .short nkey newnode { flags with gen := t.cachegen }, didResolve)
          else .ok (value, n, didResolve)
    | .full children flags =>
      match key with
      | [] => .error .panic
      | k :: rest =>
        match t.tryGet fuel (children k) (path ++ [k]) rest with
        | .error err => .error err
        | .ok (value, newnode, didResolve) =>
          if didResolve then
            .ok (value, .full (Function.update children k newnode)
              { flags with gen := t.cachegen }, didResolve)
          else .ok (value, n, didResolve)
    | .hash h =>
      match t.resolveHash h path with
      | .error err => .error err
      | .ok child =>
        match t.tryGet fuel child path key with
        | .error err => .error err
        | .ok (value, newnode, _) => .ok (value, newnode, true)

/-- `insert`: whether the trie has changed, and the new node. -/
def insert (t : Trie) : Nat → LiveNode → Hex → Hex → LiveNode → Except TrieErr (Bool × LiveNode)
  | 0, _, _, _, _ => .error .outOfFuel
  | fuel + 1, n, path, key, value =>
    if key.length = 0 then
      match n, value with
      | .value v, .value w => .ok (v != w, value)
      | .value _, _ => .error .panic
      | _, _ => .ok (true, value)
    else
      match n with
      | .short nkey val _ =>
        let matchlen := prefixLen key nkey
        if matchlen = nkey.length then
          match t.insert fuel val (path ++ key.take matchlen) (key.drop matchlen) value with
          | .error err => .error err
          | .ok (dirty, nn) =>
            if !dirty then .ok (false, n) else .ok (true, .short nkey nn t.newFlag)
        else
          -- Branch out at the index where the keys differ.
          match nkey.drop matchlen, key.drop matchlen with
          | a :: nrest, b :: krest =>
            match t.insert fuel .nil (path ++ nkey.take (matchlen + 1)) nrest val,
              t.insert fuel .nil (path ++ key.take (matchlen + 1)) krest value with
            | .ok (_, c₁), .ok (_, c₂) =>
              let branch : LiveNode := .full
                (Function.update (Function.update (fun _ => .nil) a c₁) b c₂) t.newFlag
              if matchlen = 0 then .ok (true, branch)
              else .ok (true, .short (key.take matchlen) branch t.newFlag)
            | .error err, _ => .error err
            | _, .error err => .error err
          | _, _ => .error .panic
      | .full children _ =>
        match key with
        | [] => .error .panic
        | k :: rest =>
          match t.insert fuel (children k) (path ++ [k]) rest value with
          | .error err => .error err
          | .ok (dirty, nn) =>
            if !dirty then .ok (false, n)
            else .ok (true, .full (Function.update children k nn) t.newFlag)
      | .nil => .ok (true, .short key value t.newFlag)
      | .hash h =>
        match t.resolveHash h path with
        | .error err => .error err
        | .ok rn =>
          match t.insert fuel rn path key value with
          | .error err => .error err
          | .ok (dirty, nn) => if !dirty then .ok (false, rn) else .ok (true, nn)
      | .value _ => .error .panic

/-- The entries left in a full node: none, one (`pos`), or at least two. -/
inductive Left where
  | none
  | one (pos : Fin 17)
  | many
  deriving DecidableEq

/-- The loop of `delete` over the children of a full node. -/
def entriesLeft (children : Fin 17 → LiveNode) : Left :=
  (List.finRange 17).foldl (fun left i =>
    if (children i).isNil then left
    else
      match left with
      | .none => .one i
      | _ => .many) .none

/-- The end of `delete` on a full node, one of whose children has changed: a node with one entry
left becomes a short node. -/
def reduceFull (t : Trie) (children : Fin 17 → LiveNode) (path : Hex) :
    Except TrieErr (Bool × LiveNode) :=
  match entriesLeft children with
  | .one pos =>
    if pos ≠ 16 then
      -- A short node that is left takes the nibble in front of its key.
      match t.resolve (children pos) path with
      | .error err => .error err
      | .ok (.short ckey cval _) => .ok (true, .short (pos :: ckey) cval t.newFlag)
      | .ok _ => .ok (true, .short [pos] (children pos) t.newFlag)
    else .ok (true, .short [pos] (children pos) t.newFlag)
  | _ => .ok (true, .full children t.newFlag)

/-- `delete`: whether the trie has changed, and the new node. -/
def delete (t : Trie) : Nat → LiveNode → Hex → Hex → Except TrieErr (Bool × LiveNode)
  | 0, _, _, _ => .error .outOfFuel
  | fuel + 1, n, path, key =>
    match n with
    | .short nkey val _ =>
      let matchlen := prefixLen key nkey
      if matchlen < nkey.length then .ok (false, n)
      else if matchlen = key.length then .ok (true, .nil)
      else
        match t.delete fuel val (path ++ key.take nkey.length) (key.drop nkey.length) with
        | .error err => .error err
        | .ok (dirty, child) =>
          if !dirty then .ok (false, n)
          else
            match child with
            | .short ckey cval _ => .ok (true, .short (nkey ++ ckey) cval t.newFlag)
            | child => .ok (true, .short nkey child t.newFlag)
    | .full children _ =>
      match key with
      | [] => .error .panic
      | k :: rest =>
        match t.delete fuel (children k) (path ++ [k]) rest with
        | .error err => .error err
        | .ok (dirty, nn) =>
          if !dirty then .ok (false, n)
          else t.reduceFull (Function.update children k nn) path
    | .value _ => .ok (true, .nil)
    | .nil => .ok (false, .nil)
    | .hash h =>
      match t.resolveHash h path with
      | .error err => .error err
      | .ok rn =>
        match t.delete fuel rn path key with
        | .error err => .error err
        | .ok (dirty, nn) => if !dirty then .ok (false, rn) else .ok (true, nn)

/-- The steps a walk along `key` may take. -/
def fuelFor (key : Hex) : Nat := 2 * key.length + 2

/-- `TryGet`: the value and the trie with the nodes that were loaded. -/
def tryGetKey (t : Trie) (key : Bytes) : Except TrieErr (Option Bytes × Trie) :=
  let k := keybytesToHex key
  match t.tryGet (fuelFor k) t.root [] k with
  | .error err => .error err
  | .ok (value, newroot, didResolve) =>
    .ok (value, if didResolve then { t with root := newroot } else t)

def tryDelete (t : Trie) (key : Bytes) : Except TrieErr Trie :=
  let k := keybytesToHex key
  match t.delete (fuelFor k) t.root [] k with
  | .error err => .error err
  | .ok (_, n) => .ok { t with root := n }

def tryUpdate (t : Trie) (key value : Bytes) : Except TrieErr Trie :=
  if value.length ≠ 0 then
    let k := keybytesToHex key
    match t.insert (fuelFor k) t.root [] k (.value value) with
    | .error err => .error err
    | .ok (_, n) => .ok { t with root := n }
  else t.tryDelete key

section

variable (keccak : Bytes → Hash)

/-- `hashRoot`: the hash, the node to keep and the inserts. -/
def hashRoot (t : Trie) (db : Bool) : CollapsedNode × LiveNode × List Insert :=
  match t.root with
  | .nil => (.hash emptyRoot, .nil, [])
  | root =>
    let r := Hasher.hash keccak ⟨t.cachegen, t.cachelimit, db⟩ true root
    (r.hashed, r.cached, r.inserts)

/-- `Hash`; `none` is the panic of asserting that the result is a hash node. -/
def hash (t : Trie) : Option (Hash × Trie) :=
  let (hash, cached, _) := t.hashRoot keccak false
  (hashOf hash).map fun h => (h, { t with root := cached })

/-- The calls of `db.insert` that `Commit` makes, in their order. -/
def commitInserts (t : Trie) : List Insert :=
  (t.hashRoot keccak true).2.2

def commit (t : Trie) : Option (Hash × Trie) :=
  let (hash, cached, ins) := t.hashRoot keccak true
  (hashOf hash).map fun h =>
    (h, { t with db := t.db.insertAll ins, root := cached, cachegen := t.cachegen + 1 })

end

end Trie

end Geth.Mpt
