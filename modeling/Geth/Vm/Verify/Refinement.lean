import Geth.Vm.Interface
import Geth.State.Verify.Snapshot

/-!
# What the machine relies on in a state database

`Refinement` is the contract of `vm.StateDB`: the implementation stands for a session, every getter
shows what the session has, and every other method does to the session what its name says. The state
database of `core/state` keeps the contract (`StateDB.refinement`).
-/

namespace Geth.Vm

open State List

/-- A relation between the states of an implementation and sessions that every method keeps. -/
structure Refinement (S : Type) [StateDB S] (keccak : Bytes → Hash) where
  rel : S → Session → Prop
  saved_lt : ∀ {s σ}, rel s σ → ∀ p ∈ σ.saved, p.1 < σ.nextId
  exist : ∀ {s σ}, rel s σ → ∀ addr,
    (StateDB.exist s addr).1 = (σ.world.ledger.accounts addr).isSome ∧
      rel (StateDB.exist s addr).2 σ
  empty : ∀ {s σ}, rel s σ → ∀ addr,
    (StateDB.empty s addr).1 = (σ.world.ledger.accounts addr).all (Acct.empty keccak) ∧
      rel (StateDB.empty s addr).2 σ
  getBalance : ∀ {s σ}, rel s σ → ∀ addr,
    (StateDB.getBalance s addr).1 = ((σ.world.ledger.accounts addr).map Acct.balance).getD 0 ∧
      rel (StateDB.getBalance s addr).2 σ
  getNonce : ∀ {s σ}, rel s σ → ∀ addr,
    (StateDB.getNonce s addr).1 = ((σ.world.ledger.accounts addr).map Acct.nonce).getD 0 ∧
      rel (StateDB.getNonce s addr).2 σ
  getCodeHash : ∀ {s σ}, rel s σ → ∀ addr, (StateDB.getCodeHash s addr).1 =
        ((σ.world.ledger.accounts addr).map fun ac => keccak ac.code).getD Hash.zero ∧
      rel (StateDB.getCodeHash s addr).2 σ
  getCode : ∀ {s σ}, rel s σ → ∀ addr,
    (StateDB.getCode s addr).1 = ((σ.world.ledger.accounts addr).map Acct.code).getD [] ∧
      rel (StateDB.getCode s addr).2 σ
  getState : ∀ {s σ}, rel s σ → ∀ addr key, (StateDB.getState s addr key).1 =
        ((σ.world.ledger.accounts addr).map fun ac => ac.storage key).getD Hash.zero ∧
      rel (StateDB.getState s addr key).2 σ
  hasSuicided : ∀ {s σ}, rel s σ → ∀ addr, (StateDB.hasSuicided s addr).1 =
        ((σ.world.ledger.accounts addr).map Acct.suicided).getD false ∧
      rel (StateDB.hasSuicided s addr).2 σ
  getCodeSize : ∀ {s σ}, rel s σ → ∀ addr, rel (StateDB.getCodeSize s addr).2 σ
  getRefund : ∀ {s σ}, rel s σ → StateDB.getRefund s = σ.world.ledger.refund
  createAccount : ∀ {s σ σ'}, rel s σ → ∀ addr,
    σ.step keccak (.createAccount addr) = some σ' → rel (StateDB.createAccount s addr) σ'
  subBalance : ∀ {s σ σ'}, rel s σ → ∀ addr amount,
    σ.step keccak (.subBalance addr amount) = some σ' → rel (StateDB.subBalance s addr amount) σ'
  addBalance : ∀ {s σ σ'}, rel s σ → ∀ addr amount,
    σ.step keccak (.addBalance addr amount) = some σ' → rel (StateDB.addBalance s addr amount) σ'
  setNonce : ∀ {s σ σ'}, rel s σ → ∀ addr nonce,
    σ.step keccak (.setNonce addr nonce) = some σ' → rel (StateDB.setNonce s addr nonce) σ'
  setCode : ∀ {s σ σ'}, rel s σ → ∀ addr code,
    σ.step keccak (.setCode addr code) = some σ' → rel (StateDB.setCode s addr code) σ'
  setState : ∀ {s σ σ'}, rel s σ → ∀ addr key value,
    σ.step keccak (.setState addr key value) = some σ' → rel (StateDB.setState s addr key value) σ'
  suicide : ∀ {s σ σ'}, rel s σ → ∀ addr,
    σ.step keccak (.suicide addr) = some σ' → rel (StateDB.suicide s addr) σ'
  addRefund : ∀ {s σ σ'}, rel s σ → ∀ gas,
    σ.step keccak (.addRefund gas) = some σ' → rel (StateDB.addRefund s gas) σ'
  addLog : ∀ {s σ σ'}, rel s σ → ∀ log,
    σ.step keccak (.addLog log) = some σ' → rel (StateDB.addLog s log) σ'
  addPreimage : ∀ {s σ σ'}, rel s σ → ∀ hash preimage,
    σ.step keccak (.addPreimage hash preimage) = some σ' →
      rel (StateDB.addPreimage s hash preimage) σ'
  snapshot : ∀ {s σ σ'}, rel s σ → σ.step keccak .snapshot = some σ' →
    (StateDB.snapshot s).1 = σ.nextId ∧ rel (StateDB.snapshot s).2 σ'
  revertToSnapshot : ∀ {s σ σ'}, rel s σ → ∀ revid,
    σ.step keccak (.revertToSnapshot revid) = some σ' →
      ∃ s', StateDB.revertToSnapshot s revid = some s' ∧ rel s' σ'

/-! ## The state database of `core/state` -/

section Geth

variable {B : Backend} {L : Lawful B} {n : Nat} {s : State.StateDB B} {σ σ' : Session}

theorem revertToSnapshot_of_session (h : StateDB.Refines L n s σ) {revid : Nat}
    (hσ : σ.revertToSnapshot revid = some σ') :
    ∃ s', s.revertToSnapshot revid = some s' ∧ StateDB.Refines L n s' σ' := by
  obtain ⟨p, hfind, -⟩ := Option.map_eq_some_iff.mp hσ
  have hid : p.1 = revid := by simpa using List.find?_some hfind
  obtain ⟨m, hm, hget⟩ := getElem_of_mem (mem_of_find?_eq_some hfind)
  have hm' : m < s.validRevisions.length := h.saved.length_eq ▸ hm
  have hsaved := (h.saved.get hm' hm).id
  rw [get_eq_getElem, get_eq_getElem, hget, hid] at hsaved
  obtain ⟨s', σ1, hs', hσ1, href⟩ := h.revertToSnapshot (List.getElem?_eq_getElem hm')
  rw [hsaved] at hs' hσ1
  cases hσ1.symm.trans hσ
  exact ⟨s', hs', href⟩

theorem saved_lt_nextId (h : StateDB.Refines L n s σ) : ∀ p ∈ σ.saved, p.1 < σ.nextId := by
  intro p hp
  obtain ⟨m, hm, rfl⟩ := getElem_of_mem hp
  have hm' : m < s.validRevisions.length := h.saved.length_eq ▸ hm
  have hsaved := (h.saved.get hm' hm).id
  rw [get_eq_getElem, get_eq_getElem] at hsaved
  rw [← hsaved, ← h.nextId]
  exact (h.below _ (getElem_mem hm')).1

theorem refines_of_step {op : Op} {s' : State.StateDB B} (h : ∃ n, StateDB.Refines L n s σ)
    (hop : op.inTransaction = true) (hk : op.Known L) (hs : s.step op = some s')
    (hσ : σ.step B.keccak op = some σ') : ∃ n, StateDB.Refines L n s' σ' := by
  obtain ⟨n, h⟩ := h
  obtain ⟨n', σ1, hσ1, h'⟩ := h.step hop hk hs
  cases hσ1.symm.trans hσ
  exact ⟨n', h'⟩

theorem refines_of_getter {α : Type} {s' : State.StateDB B} {value : α} {addr : Address}
    (f : Option Acct → α) (h : ∃ n, StateDB.Refines L n s σ) (hget : StateDB.Objects L s →
      value = f (s.account L addr) ∧ StateDB.Reads L s s') :
    value = f (σ.world.ledger.accounts addr) ∧ ∃ n, StateDB.Refines L n s' σ := by
  obtain ⟨n, h⟩ := h
  obtain ⟨hvalue, hreads⟩ := hget h.objects
  exact ⟨h.account addr ▸ hvalue, n, h.reads hreads⟩

/-- The state database of `core/state` keeps the contract, over keys without collisions. -/
def StateDB.refinement (L : Lawful B) (hL : L.CollisionFree) :
    Refinement (State.StateDB B) B.keccak where
  rel s σ := ∃ n, State.StateDB.Refines L n s σ
  saved_lt h := saved_lt_nextId h.choose_spec
  exist h addr := refines_of_getter Option.isSome h (·.exist (hL.known addr))
  empty h addr := refines_of_getter (Option.all (Acct.empty B.keccak)) h (·.empty (hL.known addr))
  getBalance h addr := refines_of_getter (fun ac => (ac.map Acct.balance).getD 0) h
    (·.getBalance (hL.known addr))
  getNonce h addr :=
    refines_of_getter (fun ac => (ac.map Acct.nonce).getD 0) h (·.getNonce (hL.known addr))
  getCodeHash h addr := refines_of_getter
    (fun ac => (ac.map fun ac => B.keccak ac.code).getD Hash.zero) h (·.getCodeHash (hL.known addr))
  getCode h addr :=
    refines_of_getter (fun ac => (ac.map Acct.code).getD []) h (·.getCode (hL.known addr))
  getState h addr key := refines_of_getter
    (fun ac => (ac.map fun ac => ac.storage key).getD Hash.zero) h
      (·.getState (hL.known addr) (hL.knownSlot key))
  hasSuicided h addr := refines_of_getter (fun ac => (ac.map Acct.suicided).getD false) h
    (·.hasSuicided (hL.known addr))
  getCodeSize h addr := ⟨_, h.choose_spec.reads (h.choose_spec.objects.getCodeSize (hL.known addr))⟩
  getRefund h := congrArg Ledger.refund h.choose_spec.ledger
  createAccount h addr := refines_of_step h rfl (hL.known addr) rfl
  subBalance h addr amount := refines_of_step h rfl (hL.known addr) rfl
  addBalance h addr amount := refines_of_step h rfl (hL.known addr) rfl
  setNonce h addr nonce := refines_of_step h rfl (hL.known addr) rfl
  setCode h addr code := refines_of_step h rfl (hL.known addr) rfl
  setState h addr key value :=
    refines_of_step h rfl ⟨hL.known addr, hL.knownSlot key⟩ rfl
  suicide h addr := refines_of_step h rfl (hL.known addr) rfl
  addRefund h gas := refines_of_step h rfl trivial rfl
  addLog h log := refines_of_step h rfl trivial rfl
  addPreimage h hash preimage := refines_of_step h rfl trivial rfl
  snapshot h hσ := by
    have hknown : Op.Known L .snapshot := trivial
    exact ⟨h.choose_spec.nextId, refines_of_step h rfl hknown rfl hσ⟩
  revertToSnapshot h revid hσ := by
    obtain ⟨n, h⟩ := h
    obtain ⟨s', hs', h'⟩ := revertToSnapshot_of_session h hσ
    exact ⟨s', hs', n, h'⟩

end Geth

end Geth.Vm
