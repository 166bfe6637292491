import Geth.Mpt.Trie

/-!
# Iteration over a trie (`trie/iterator.go`)

A node iterator keeps a stack of nodes, each with the child to be processed next and the length of
the path to its parent, and one path that all of them share. Hashes of nodes and their parents,
which only proofs read, are left out. `none` is a run that does not return, by a panic or for lack
of fuel.
-/

namespace Geth.Mpt

def hexToKeybytes (hex : Hex) : Option Bytes :=
  let hex := if hasTerm hex then hex.dropLast else hex
  if hex.length % 2 = 1 then none else some (decodeNibbles hex)

/-- `nodeIteratorState`; `index` is that of the source plus one. -/
structure NodeIteratorState where
  node : LiveNode
  index : Nat
  pathlen : Nat

/-- The errors of a node iterator: `errIteratorEnd`, `seekError` and those of the trie. -/
inductive IteratorErr where
  | iteratorEnd
  | seekError (key : Bytes) (err : TrieErr)
  | trie (err : TrieErr)

/-- `nodeIterator`; the top of the stack comes first. -/
structure NodeIterator where
  trie : Option Trie
  stack : List NodeIteratorState
  path : Hex
  err : Option IteratorErr

namespace NodeIterator

def leaf (it : NodeIterator) : Bool := hasTerm it.path

def leafKey (it : NodeIterator) : Option Bytes :=
  match it.stack with
  | ⟨.value _, _, _⟩ :: _ => hexToKeybytes it.path
  | _ => none

def leafBlob (it : NodeIterator) : Option Bytes :=
  match it.stack with
  | ⟨.value v, _, _⟩ :: _ => some v
  | _ => none

def error (it : NodeIterator) : Option TrieErr :=
  match it.err with
  | some (.seekError _ err) => some err
  | some (.trie err) => some err
  | _ => none

/-- `nextChild`: the child, the path to it and the new index of the parent, which `push`
increments. -/
def nextChild (node : LiveNode) (index : Nat) (path : Hex) : Option (LiveNode × Hex × Nat) :=
  match node with
  | .full children _ =>
    ((List.finRange 17).drop index).find? (fun i => !(children i).isNil) |>.map fun i =>
      (children i, path ++ [i], i.val)
  | .short key val _ => if index = 0 then some (val, path ++ key, 0) else none
  | _ => none

/-- The loop of `peek`: the stack and the path that it leaves, and the next state with its path. -/
def climb (tr : Trie) : List NodeIteratorState → Hex →
    List NodeIteratorState × Hex × Except IteratorErr (NodeIteratorState × Hex)
  | [], path => ([], path, .error .iteratorEnd)
  | parent :: rest, path =>
    match nextChild parent.node parent.index path with
    | some (child, childPath, index) =>
      let stack := { parent with index := index } :: rest
      match tr.resolve child childPath with
      | .error err => (stack, path, .error (.trie err))
      | .ok node => (stack, path, .ok (⟨node, 0, path.length⟩, childPath))
    -- No more child nodes, move back up.
    | none => climb tr rest (path.take parent.pathlen)

def pop (it : NodeIterator) : NodeIterator :=
  match it.stack with
  | [] => it
  | parent :: rest => { it with stack := rest, path := it.path.take parent.pathlen }

/-- `push`: the next child of the parent comes after the one that is pushed. -/
def push (it : NodeIterator) (state : NodeIteratorState) (path : Hex) : NodeIterator :=
  { it with
    path := path
    stack := state :: match it.stack with
      | [] => []
      | parent :: rest => { parent with index := parent.index + 1 } :: rest }

variable (keccak : Bytes → Hash)

def peek (it : NodeIterator) (descend : Bool) :
    Option (NodeIterator × Except IteratorErr (NodeIteratorState × Hex)) := do
  let tr ← it.trie
  match it.stack with
  | [] =>
    let (_, tr) ← tr.hash keccak
    let it := { it with trie := some tr }
    match tr.resolve tr.root [] with
    | .error err => some (it, .error (.trie err))
    | .ok node => some (it, .ok (⟨node, 0, 0⟩, []))
  | _ =>
    let it := if descend then it else it.pop
    let (stack, path, res) := climb tr it.stack it.path
    some ({ it with stack := stack, path := path }, res)

def seek (key : Bytes) : Nat → NodeIterator → Option (NodeIterator × Option IteratorErr)
  | 0, _ => none
  | fuel + 1, it => do
    let hex := (keybytesToHex key).dropLast
    match ← it.peek keccak (it.path.isPrefixOf hex) with
    | (it, .error (.trie err)) => some (it, some (.seekError key err))
    | (it, .error err) => some (it, some err)
    | (it, .ok (state, path)) =>
      if path < hex then seek key fuel (it.push state path) else some (it, none)

/-- The end of `Next`: a step forward. -/
def stepForward (it : NodeIterator) (descend : Bool) : Option (Bool × NodeIterator) := do
  match ← it.peek keccak descend with
  | (it, .error err) => some (false, { it with err := some err })
  | (it, .ok (state, path)) => some (true, { it with err := none }.push state path)

def next (fuel : Nat) (it : NodeIterator) (descend : Bool) : Option (Bool × NodeIterator) := do
  match it.err with
  | some .iteratorEnd => some (false, it)
  | some (.seekError key _) =>
    match ← seek keccak key fuel it with
    | (it, some err) => some (false, { it with err := some err })
    | (it, none) => it.stepForward keccak descend
  | _ => it.stepForward keccak descend

/-- `newNodeIterator`; `emptyState` is the hash of nothing. -/
def new (fuel : Nat) (tr : Trie) (start : Bytes) : Option NodeIterator := do
  let (h, tr) ← tr.hash keccak
  if h = keccak [] then some ⟨none, [], [], none⟩
  else
    let (it, err) ← seek keccak start fuel ⟨some tr, [], [], none⟩
    some { it with err := err }

end NodeIterator

structure Iterator where
  nodeIt : NodeIterator
  key : Option Bytes
  value : Option Bytes
  err : Option TrieErr

namespace Iterator

variable (keccak : Bytes → Hash)

def next : Nat → Iterator → Option (Bool × Iterator)
  | 0, _ => none
  | fuel + 1, it => do
    match ← it.nodeIt.next keccak fuel true with
    | (true, nodeIt) =>
      if nodeIt.leaf then
        some (true, { it with
          nodeIt := nodeIt, key := some (← nodeIt.leafKey), value := some (← nodeIt.leafBlob) })
      else next fuel { it with nodeIt := nodeIt }
    | (false, nodeIt) => some (false, ⟨nodeIt, none, none, nodeIt.error⟩)

/-- What a loop over `Next` gets: the keys and values, and the error at the end. -/
def collect : Nat → Iterator → Option (List (Bytes × Bytes) × Option TrieErr)
  | 0, _ => none
  | fuel + 1, it => do
    match ← it.next keccak fuel with
    | (true, it) =>
      let (pairs, err) ← collect fuel it
      some ((← it.key, ← it.value) :: pairs, err)
    | (false, it) => some ([], it.err)

/-- The loop over `NewIterator(trie.NodeIterator(start))`. -/
def iterate (fuel : Nat) (tr : Trie) (start : Bytes) :
    Option (List (Bytes × Bytes) × Option TrieErr) := do
  let nodeIt ← NodeIterator.new keccak fuel tr start
  collect keccak fuel ⟨nodeIt, none, none, none⟩

end Iterator

end Geth.Mpt
