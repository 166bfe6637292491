import Geth.State.Account

/-!
# The interfaces of the state (`core/state/database.go`)

`package state` reaches its database and tries through the interfaces `Database` and `Trie`. Reading
a trie loads nodes into it, so every method of a trie returns it along with the result. Only a
commit and `InsertBlob` change the database. `Lawful` says what the tries of a working database
have to do, whose keys are stored under their hashes: on keys with different hashes a trie is a
finite map, its hash is a function of the map, and what is committed can be opened again.
-/

namespace Geth.State

/-- The methods of `Database` and `Trie` that the state uses, and the hash. -/
structure Backend where
  Db : Type
  Trie : Type
  Err : Type
  /-- `crypto.Keccak256Hash` -/
  keccak : Bytes → Hash
  /-- `OpenTrie(root)` -/
  openTrie : Db → Hash → Except Err Trie
  /-- `OpenStorageTrie(addrHash, root)` -/
  openStorageTrie : Db → Hash → Hash → Except Err Trie
  /-- `OpenStorageTrie(addrHash, common.Hash{})`, whose error is ignored -/
  openEmptyTrie : Db → Hash → Trie
  /-- `ContractCode(addrHash, codeHash)` -/
  contractCode : Db → Hash → Hash → Option Bytes × Option Err
  /-- `ContractCodeSize(addrHash, codeHash)` -/
  contractCodeSize : Db → Hash → Hash → Nat × Option Err
  /-- `TrieDB().InsertBlob(hash, blob)` -/
  insertBlob : Db → Hash → Bytes → Db
  /-- `TryGet(key)` -/
  tryGet : Db → Trie → Bytes → Bytes × Option Err × Trie
  /-- `TryUpdate(key, value)` -/
  tryUpdate : Db → Trie → Bytes → Bytes → Option Err × Trie
  /-- `TryDelete(key)` -/
  tryDelete : Db → Trie → Bytes → Option Err × Trie
  /-- `Hash()` -/
  hash : Trie → Hash × Trie
  /-- `Commit(onleaf)`; the callback only counts references -/
  commit : Db → Trie → Except Err Hash × Trie × Db

/-- The content of a trie. -/
abbrev Content := Bytes → Option Bytes

/-- The two kinds of tries: the one of the accounts, and those of the storage of an account. -/
inductive Level where
  | accounts
  | storage

/-- A backend that works. `keys` are keys no two of which have one hash; the laws say nothing about
others. `content` is the map from such keys that a trie holds, `root` the hash of a map, `Ok` says
that a trie has no other keys and that the database has its nodes, `Le` that a database has all that
another one has, and `Collided` that two different blobs with one hash have met in the database.
That a trie can be opened does not make it `Ok`: below its root, nodes may be missing. -/
structure Lawful (B : Backend) where
  keys : Level → Set Bytes
  content : Level → B.Trie → Content
  root : Level → Content → Hash
  Ok : Level → B.Db → B.Trie → Prop
  Le : B.Db → B.Db → Prop
  Collided : B.Db → Prop
  mem_keys : ∀ {l d t k}, Ok l d t → content l t k ≠ none → k ∈ keys l
  tryGet_eq : ∀ {l d t}, Ok l d t → ∀ {k}, k ∈ keys l →
    ∃ t', B.tryGet d t k = ((content l t k).getD [], none, t') ∧
      content l t' = content l t ∧ Ok l d t'
  tryUpdate_eq : ∀ {l d t}, Ok l d t → ∀ {k}, k ∈ keys l → ∀ {v}, v ≠ [] →
    ∃ t', B.tryUpdate d t k v = (none, t') ∧
      content l t' = Function.update (content l t) k (some v) ∧ Ok l d t'
  tryDelete_eq : ∀ {l d t}, Ok l d t → ∀ {k}, k ∈ keys l → ∃ t', B.tryDelete d t k = (none, t') ∧
    content l t' = Function.update (content l t) k none ∧ Ok l d t'
  hash_eq : ∀ {l d t}, Ok l d t → ∃ t', B.hash t = (root l (content l t), t') ∧
    content l t' = content l t ∧ Ok l d t'
  commit_eq : ∀ {l d t}, Ok l d t → ∃ t' d', B.commit d t = (.ok (root l (content l t)), t', d') ∧
    content l t' = content l t ∧
    (¬ Collided d' → Le d d' ∧ Ok l d' t' ∧
      (∃ u, B.openTrie d' (root l (content l t)) = .ok u ∧ content l u = content l t ∧ Ok l d' u) ∧
      ∀ a, ∃ u, B.openStorageTrie d' a (root l (content l t)) = .ok u ∧
        content l u = content l t ∧ Ok l d' u)
  collided_commit : ∀ {d} t, Collided d → Collided (B.commit d t).2.2
  collided_insertBlob : ∀ {d} h c, Collided d → Collided (B.insertBlob d h c)
  insertBlob_eq : ∀ {d c}, ¬ Collided (B.insertBlob d (B.keccak c) c) →
    Le d (B.insertBlob d (B.keccak c) c) ∧
    (∀ a, B.contractCode (B.insertBlob d (B.keccak c) c) a (B.keccak c) = (some c, none)) ∧
    (B.keccak c = B.keccak [] → c = [])
  openStorageTrie_zero : ∀ d a, ∃ t, B.openStorageTrie d a Hash.zero = .ok t ∧
    content .storage t = (fun _ => none) ∧ Ok .storage d t
  le_refl : ∀ d, Le d d
  le_trans : ∀ {d d' d''}, Le d d' → Le d' d'' → Le d d''
  le_ok : ∀ {l d d' t}, Le d d' → Ok l d t → Ok l d' t
  le_openStorageTrie : ∀ {d d' a h t}, Le d d' → B.openStorageTrie d a h = .ok t →
    Ok .storage d t → ∃ u, B.openStorageTrie d' a h = .ok u ∧
      content .storage u = content .storage t ∧ Ok .storage d' u
  le_contractCode : ∀ {d d' a h c}, Le d d' → B.contractCode d a h = (some c, none) →
    B.contractCode d' a h = (some c, none)

namespace Lawful

variable {B : Backend}

/-- The laws hold for the account. -/
def Known (L : Lawful B) (addr : Address) : Prop := addr.val ∈ L.keys .accounts

/-- The laws hold for the slot. -/
def KnownSlot (L : Lawful B) (key : Hash) : Prop := key.val ∈ L.keys .storage

/-- No two accounts and no two slots have one hash. -/
structure CollisionFree (L : Lawful B) : Prop where
  known : ∀ addr, L.Known addr
  knownSlot : ∀ key, L.KnownSlot key

end Lawful

end Geth.State
