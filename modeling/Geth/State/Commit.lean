import Geth.State.StateDB

/-!
# Finalising and committing a state (`core/state/statedb.go`)

The loops over `journal.dirties`, `stateObjects` and `dirtyStorage` run in whatever order Go picks,
so each of these methods takes the order along (`Order`).
-/

namespace Geth.State

/-- The orders of the loops in one call: over the accounts, and over the dirty slots of each. -/
structure Order where
  accounts : List Address
  storage : Address → List Hash

/-- The list has the keys of a map, each once. -/
def Enumerates {K : Type} (order : List K) (keys : K → Prop) : Prop :=
  order.Nodup ∧ ∀ k, k ∈ order ↔ keys k

namespace StateDB

variable {B : Backend}

/-- The order covers the dirty slots of every object. -/
def CoversStorage (s : StateDB B) (order : Order) : Prop :=
  ∀ a o, s.stateObjects a = some o → Enumerates (order.storage a) fun k => (o.dirtyStorage k).isSome

/-- The order is one of the loop over `journal.dirties`. -/
def CoversDirties (s : StateDB B) (order : Order) : Prop :=
  Enumerates order.accounts (fun a => 0 < s.journal.dirties a) ∧ s.CoversStorage order

/-- The order is one of the loop over `stateObjects`. -/
def CoversObjects (s : StateDB B) (order : Order) : Prop :=
  Enumerates order.accounts (fun a => (s.stateObjects a).isSome) ∧ s.CoversStorage order

def updateStateObject (s : StateDB B) (o : StateObject B) : Option (StateDB B) :=
  match o.data.encode with
  | none => none
  | some data =>
    let (err, tr) := B.tryUpdate s.db s.trie o.address.val data
    some ({ s with trie := tr }.setError (err.map .backend))

def deleteStateObject (s : StateDB B) (o : StateObject B) : StateDB B :=
  let s := s.setStateObject { o with deleted := true }
  let (err, tr) := B.tryDelete s.db s.trie o.address.val
  { s with trie := tr }.setError (err.map .backend)

def clearJournalAndRefund (s : StateDB B) : StateDB B :=
  { s with journal := .new, validRevisions := [], refund := 0 }

/-- Marks an account in `stateObjectsDirty`. -/
def markDirty (s : StateDB B) (addr : Address) : StateDB B :=
  { s with stateObjectsDirty := Function.update s.stateObjectsDirty addr true }

/-- One round of the loop of `Finalise`. -/
def finaliseAddr (deleteEmptyObjects : Bool) (order : Order) (s : StateDB B) (addr : Address) :
    Option (StateDB B) :=
  match s.stateObjects addr with
  | none => some s
  | some o =>
    if o.suicided || (deleteEmptyObjects && o.empty) then
      some ((s.deleteStateObject o).markDirty addr)
    else
      let o := o.updateRoot s.db (order.storage addr)
      match (s.setStateObject o).updateStateObject o with
      | none => none
      | some s => some (s.markDirty addr)

/-- The loop of `Finalise`. -/
def finaliseLoop (deleteEmptyObjects : Bool) (order : Order) (s : StateDB B) :
    List Address → Option (StateDB B)
  | [] => some s
  | addr :: addrs =>
    match finaliseAddr deleteEmptyObjects order s addr with
    | none => none
    | some s => finaliseLoop deleteEmptyObjects order s addrs

def finalise (s : StateDB B) (deleteEmptyObjects : Bool) (order : Order) : Option (StateDB B) :=
  (finaliseLoop deleteEmptyObjects order s order.accounts).map clearJournalAndRefund

def intermediateRoot (s : StateDB B) (deleteEmptyObjects : Bool) (order : Order) :
    Option (Hash × StateDB B) :=
  match s.finalise deleteEmptyObjects order with
  | none => none
  | some s =>
    let (root, tr) := B.hash s.trie
    some (root, { s with trie := tr })

/-- Writes the code of an object that has been changed. -/
def commitCode (s : StateDB B) (o : StateObject B) : StateObject B × StateDB B :=
  match o.code, o.dirtyCode with
  | some code, true =>
    let o := { o with dirtyCode := false }
    (o, { s with db := B.insertBlob s.db (bytesToHash o.data.codeHash) code }.setStateObject o)
  | _, _ => (o, s)

/-- One round of the loop of `Commit`; an error ends the loop. -/
def commitAddr (deleteEmptyObjects : Bool) (order : Order) (s : StateDB B) (addr : Address) :
    Option (Option (StateErr B) × StateDB B) :=
  match s.stateObjects addr with
  | none => some (none, s)
  | some o =>
    let isDirty := s.stateObjectsDirty addr
    let done (s : StateDB B) : StateDB B :=
      { s with stateObjectsDirty := Function.update s.stateObjectsDirty addr false }
    if o.suicided || (isDirty && deleteEmptyObjects && o.empty) then
      some (none, done (s.deleteStateObject o))
    else if isDirty then
      let (o, s) := s.commitCode o
      let (err, o, db) := o.commitTrie s.db (order.storage addr)
      let s := { s with db := db }.setStateObject o
      match err with
      | some err => some (some err, s)
      | none =>
        match s.updateStateObject o with
        | none => none
        | some s => some (none, done s)
    else some (none, done s)

/-- The loop of `Commit`. -/
def commitLoop (deleteEmptyObjects : Bool) (order : Order) (s : StateDB B) :
    List Address → Option (Option (StateErr B) × StateDB B)
  | [] => some (none, s)
  | addr :: addrs =>
    match commitAddr deleteEmptyObjects order s addr with
    | none => none
    | some (some err, s) => some (some err, s)
    | some (none, s) => commitLoop deleteEmptyObjects order s addrs

/-- Merges the journal into `stateObjectsDirty`. -/
def mergeDirties (s : StateDB B) : StateDB B :=
  { s with stateObjectsDirty := fun a => s.stateObjectsDirty a || 0 < s.journal.dirties a }

/-- `Commit`: the root or an error, and the state. -/
def commit (s : StateDB B) (deleteEmptyObjects : Bool) (order : Order) :
    Option (Except (StateErr B) Hash × StateDB B) :=
  match commitLoop deleteEmptyObjects order s.mergeDirties order.accounts with
  | none => none
  | some (some err, s) => some (.error err, s.clearJournalAndRefund)
  | some (none, s) =>
    let (root, tr, db) := B.commit s.db s.trie
    some (root.mapError .backend, { s with trie := tr, db := db }.clearJournalAndRefund)

end StateDB

end Geth.State
