import Geth.State.Commit

/-!
# Runs of the state database

The methods of `StateDB` as operations, and what a sequence of them does. A query is an operation as
well: it loads objects and slots into the caches.
-/

namespace Geth.State

/-- The getters that read an account. -/
inductive Query where
  | exist (addr : Address)
  | empty (addr : Address)
  | getBalance (addr : Address)
  | getNonce (addr : Address)
  | getCode (addr : Address)
  | getCodeSize (addr : Address)
  | getCodeHash (addr : Address)
  | getState (addr : Address) (key : Hash)
  | hasSuicided (addr : Address)

/-- The operations of a `StateDB`. Those with a loop over a map bring its order along. -/
inductive Op where
  | query (q : Query)
  | addBalance (addr : Address) (amount : Int)
  | subBalance (addr : Address) (amount : Int)
  | setBalance (addr : Address) (amount : Int)
  | setNonce (addr : Address) (nonce : UInt64)
  | setCode (addr : Address) (code : Bytes)
  | setState (addr : Address) (key value : Hash)
  | createAccount (addr : Address)
  | suicide (addr : Address)
  | addRefund (gas : UInt64)
  | addLog (log : Log)
  | addPreimage (hash : Hash) (preimage : Bytes)
  | prepare (thash bhash : Hash) (ti : UInt64)
  | snapshot
  | revertToSnapshot (revid : Nat)
  | finalise (deleteEmptyObjects : Bool) (order : Order)
  | intermediateRoot (deleteEmptyObjects : Bool) (order : Order)
  | commit (deleteEmptyObjects : Bool) (order : Order)

/-- The operation does not end the transaction. -/
def Op.inTransaction : Op → Bool
  | .finalise _ _ => false
  | .intermediateRoot _ _ => false
  | .commit _ _ => false
  | _ => true

/-- An operation that deletes empty accounts does so as the flag `d` says. -/
def Op.Flag (d : Bool) : Op → Prop
  | .finalise d' _ => d' = d
  | .intermediateRoot d' _ => d' = d
  | .commit d' _ => d' = d
  | _ => True

section Known

variable {B : Backend} (L : Lawful B)

/-- The laws of the backend hold for the account and the slot that a getter reads. -/
def Query.Known : Query → Prop
  | .getState addr key => L.Known addr ∧ L.KnownSlot key
  | .exist addr | .empty addr | .getBalance addr | .getNonce addr | .getCode addr
  | .getCodeSize addr | .getCodeHash addr | .hasSuicided addr => L.Known addr

/-- The laws of the backend hold for the account and the slot of an operation. -/
def Op.Known : Op → Prop
  | .query q => q.Known L
  | .setState addr key _ => L.Known addr ∧ L.KnownSlot key
  | .addBalance addr _ | .subBalance addr _ | .setBalance addr _ | .setNonce addr _
  | .setCode addr _ | .createAccount addr | .suicide addr => L.Known addr
  | _ => True

end Known

namespace StateDB

variable {B : Backend}

/-- What a getter does to the caches. -/
def query (s : StateDB B) : Query → StateDB B
  | .exist addr => (s.exist addr).2
  | .empty addr => (s.empty addr).2
  | .getBalance addr => (s.getBalance addr).2
  | .getNonce addr => (s.getNonce addr).2
  | .getCode addr => (s.getCode addr).2
  | .getCodeSize addr => (s.getCodeSize addr).2
  | .getCodeHash addr => (s.getCodeHash addr).2
  | .getState addr key => (s.getState addr key).2
  | .hasSuicided addr => (s.hasSuicided addr).2

/-- The state after an operation; `none` is a panic. -/
def step (s : StateDB B) : Op → Option (StateDB B)
  | .query q => some (s.query q)
  | .addBalance addr amount => some (s.addBalance addr amount)
  | .subBalance addr amount => some (s.subBalance addr amount)
  | .setBalance addr amount => some (s.setBalance addr amount)
  | .setNonce addr nonce => some (s.setNonce addr nonce)
  | .setCode addr code => some (s.setCode addr code)
  | .setState addr key value => some (s.setState addr key value)
  | .createAccount addr => some (s.createAccount addr)
  | .suicide addr => some (s.suicide addr).2
  | .addRefund gas => some (s.addRefund gas)
  | .addLog log => some (s.addLog log)
  | .addPreimage hash preimage => some (s.addPreimage hash preimage)
  | .prepare thash bhash ti => some (s.prepare thash bhash ti)
  | .snapshot => some s.snapshot.2
  | .revertToSnapshot revid => s.revertToSnapshot revid
  | .finalise d order => s.finalise d order
  | .intermediateRoot d order => (s.intermediateRoot d order).map Prod.snd
  | .commit d order => (s.commit d order).map Prod.snd

/-- The order an operation brings along is one of the loop it runs. -/
def Orders (s : StateDB B) : Op → Prop
  | .finalise _ order => s.CoversDirties order
  | .intermediateRoot _ order => s.CoversDirties order
  | .commit _ order => s.CoversObjects order
  | _ => True

/-- A run without a panic whose steps all meet the condition `C`. -/
inductive Run (C : StateDB B → Op → Prop) : StateDB B → List Op → StateDB B → Prop
  | nil {s} : Run C s [] s
  | cons {s t u op ops} : s.Orders op → C s op → s.step op = some t → Run C t ops u →
      Run C s (op :: ops) u

theorem Run.mono {C C' : StateDB B → Op → Prop} {s t : StateDB B} {ops : List Op}
    (hC : ∀ s op, C s op → C' s op) (h : Run C s ops t) : Run C' s ops t := by
  induction h with
  | nil => exact .nil
  | cons horders hc hstep _ ih => exact .cons horders (hC _ _ hc) hstep ih

theorem Run.append {C : StateDB B → Op → Prop} {s t u : StateDB B} {ops ops' : List Op}
    (h : Run C s ops t) (h' : Run C t ops' u) : Run C s (ops ++ ops') u := by
  induction h with
  | nil => exact h'
  | cons horders hC hstep _ ih => exact .cons horders hC hstep (ih h')

end StateDB

end Geth.State
