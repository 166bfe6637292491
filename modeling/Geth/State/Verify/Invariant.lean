import Geth.State.Verify.Object

/-!
# The ledger of a state

The accounts of a state are those of its live objects and, where there is none, those of the account
trie. `Objects` is the invariant that ties the two together. Reading an account loads its object and
changes nothing else.
-/

namespace Geth.State

open Lib Function

namespace StateDB

variable {B : Backend} (L : Lawful B)

/-- What the account trie has at an address. -/
def stored (s : StateDB B) (addr : Address) : Option Bytes := L.content .accounts s.trie addr.val

/-- The account at an address. -/
def account (s : StateDB B) (addr : Address) : Option Acct :=
  match s.stateObjects addr with
  | some o => if o.deleted then none else some (o.acct L s.db)
  | none => loaded L s.db addr (s.stored L addr)

/-- The ledger that a state stands for. -/
def ledger (s : StateDB B) : Ledger where
  accounts := s.account L
  refund := s.refund
  logs := s.logs
  logSize := s.logSize
  preimages := s.preimages

/-- The invariant of the objects and the account trie. -/
structure Objects (s : StateDB B) : Prop where
  trie : L.Ok .accounts s.db s.trie
  obj : ∀ {addr o}, s.stateObjects addr = some o → ObjOk L s.db addr o
  /-- An account that is not dirty can be loaded again. -/
  clean : ∀ {addr}, s.stateObjectsDirty addr = false → Valid L s.db addr (s.stored L addr)
  /-- A dirty account without an object is not in the trie. -/
  fresh : ∀ {addr}, s.stateObjectsDirty addr = true → s.stateObjects addr = none →
    s.stored L addr = none
  /-- Neither is a deleted one. -/
  gone : ∀ {addr o}, s.stateObjects addr = some o → o.deleted = true → s.stored L addr = none

/-- The account has a live object, or does not exist at all. -/
def Live (s : StateDB B) (addr : Address) : Prop :=
  (∃ o, s.stateObjects addr = some o ∧ o.deleted = false) ∨
    (s.stateObjects addr = none ∧ s.stored L addr = none)

variable {L} {s : StateDB B} {addr : Address} {o : StateObject B}

theorem account_of_live (ho : s.stateObjects addr = some o)
    (hdel : o.deleted = false) : s.account L addr = some (o.acct L s.db) := by
  simp [account, ho, hdel]

theorem account_of_deleted (ho : s.stateObjects addr = some o)
    (hdel : o.deleted = true) : s.account L addr = none := by
  simp [account, ho, hdel]

theorem account_of_absent (ho : s.stateObjects addr = none) :
    s.account L addr = loaded L s.db addr (s.stored L addr) := by
  simp [account, ho]

namespace Objects

theorem valid (h : Objects L s) (ho : s.stateObjects addr = none) :
    Valid L s.db addr (s.stored L addr) := by
  cases hd : s.stateObjectsDirty addr with
  | false => exact h.clean hd
  | true =>
    rw [h.fresh hd ho]
    exact valid_none

theorem stored_eq_none (h : Objects L s) (hacct : s.account L addr = none) :
    s.stored L addr = none := by
  cases ho : s.stateObjects addr with
  | some o =>
    cases hdel : o.deleted with
    | true => exact h.gone ho hdel
    | false =>
      rw [account_of_live ho hdel] at hacct
      cases hacct
  | none =>
    rw [account_of_absent ho] at hacct
    cases hc : s.stored L addr with
    | none => rfl
    | some enc =>
      have hvalid := h.valid ho
      rw [hc] at hvalid hacct
      obtain ⟨data, -, -, -, hload, -⟩ := hvalid.loaded
      rw [hload] at hacct
      cases hacct

/-- An account that exists is known. -/
theorem known (h : Objects L s) {ac : Acct} (hacct : s.account L addr = some ac) :
    L.Known addr := by
  cases ho : s.stateObjects addr with
  | some o => exact (h.obj ho).known
  | none =>
    refine L.mem_keys h.trie fun hnone => ?_
    have hstored : s.stored L addr = none := hnone
    rw [account_of_absent ho, hstored, loaded_none] at hacct
    cases hacct

end Objects

/-! ## Steps inside a transaction -/

/-- The step keeps what does not change inside a transaction. -/
structure Within (L : Lawful B) (s s' : StateDB B) : Prop where
  db : s'.db = s.db
  content : L.content .accounts s'.trie = L.content .accounts s.trie
  objects : Objects L s'
  live : ∀ {addr}, s.Live L addr → s'.Live L addr
  deleted : ∀ {addr o}, s'.stateObjects addr = some o → o.deleted = true →
    s.stateObjects addr = some o
  marks : ∀ {addr}, s.stored L addr ≠ none → s'.stateObjectsDirty addr = s.stateObjectsDirty addr

theorem Within.stored {s' : StateDB B} (h : Within L s s') : s'.stored L = s.stored L := by
  funext a
  rw [StateDB.stored, h.content]
  rfl

theorem Objects.refl (h : Objects L s) : Within L s s :=
  ⟨rfl, rfl, h, id, fun ho _ => ho, fun _ => rfl⟩

theorem Within.trans {s1 s2 s3 : StateDB B} (h : Within L s1 s2) (h' : Within L s2 s3) :
    Within L s1 s3 :=
  ⟨h'.db.trans h.db, h'.content.trans h.content, h'.objects, fun ha => h'.live (h.live ha),
    fun ho hdel => h.deleted (h'.deleted ho hdel) hdel,
    fun hne => (h'.marks (h.stored ▸ hne)).trans (h.marks hne)⟩

theorem Objects.put (h : Objects L s) (hok : ObjOk L s.db addr o)
    (hdel : o.deleted = false) : Within L s (s.setStateObject o) ∧
      (s.setStateObject o).account L = update (s.account L) addr (some (o.acct L s.db)) ∧
      (s.setStateObject o).Live L addr := by
  obtain ⟨rfl⟩ := hok.address
  have hself : (s.setStateObject o).stateObjects o.address = some o := update_self ..
  have hother : ∀ {a}, a ≠ o.address →
      (s.setStateObject o).stateObjects a = s.stateObjects a := fun ha => update_of_ne ha ..
  refine ⟨⟨rfl, rfl, ⟨h.trie, fun {a u} hu => ?_, h.clean, fun {a} hd hu => ?_,
    fun {a u} hu hdel' => ?_⟩, fun {a} ha => ?_, fun {a u} hu hdel' => ?_, fun _ => rfl⟩, ?_,
    .inl ⟨o, hself, hdel⟩⟩
  · by_cases ha : a = o.address
    · subst ha
      cases hself.symm.trans hu
      exact hok
    · exact h.obj ((hother ha).symm.trans hu)
  · by_cases ha : a = o.address
    · subst ha
      exact absurd (hself.symm.trans hu) nofun
    · exact h.fresh hd ((hother ha).symm.trans hu)
  · by_cases ha : a = o.address
    · subst ha
      cases hself.symm.trans hu
      exact absurd (hdel.symm.trans hdel') nofun
    · exact h.gone ((hother ha).symm.trans hu) hdel'
  · by_cases haddr : a = o.address
    · subst haddr
      exact .inl ⟨o, hself, hdel⟩
    · simp only [Live, hother haddr]
      exact ha
  · by_cases ha : a = o.address
    · subst ha
      cases hself.symm.trans hu
      exact absurd (hdel.symm.trans hdel') nofun
    · exact (hother ha).symm.trans hu
  · funext a
    by_cases ha : a = o.address
    · subst ha
      rw [update_self]
      exact account_of_live hself hdel
    · rw [update_of_ne ha]
      simp only [account, hother ha]
      rfl

/-! ## Reading -/

/-- The state `s'` is `s` with more loaded. -/
structure Reads (L : Lawful B) (s s' : StateDB B) : Prop extends Within L s s' where
  account : s'.account L = s.account L
  rest : s' = { s with trie := s'.trie, stateObjects := s'.stateObjects, dbErr := s'.dbErr }

theorem Reads.ledger {s' : StateDB B} (h : Reads L s s') : s'.ledger L = s.ledger L := by
  rw [StateDB.ledger, h.account, h.rest]
  rfl

theorem Objects.reads (h : Objects L s) : Reads L s s := ⟨h.refl, rfl, rfl⟩

theorem Reads.trans {s1 s2 s3 : StateDB B} (h : Reads L s1 s2) (h' : Reads L s2 s3) :
    Reads L s1 s3 := by
  refine ⟨h.toWithin.trans h'.toWithin, h'.account.trans h.account, ?_⟩
  rw [h'.rest, h.rest]

theorem Objects.putLoaded (h : Objects L s) {o' : StateObject B}
    (ho : s.stateObjects addr = some o) (hdel : o.deleted = false)
    (hl : Loads L s.db addr o o') : Reads L s (s.setStateObject o') := by
  obtain ⟨hw, hacct, -⟩ := h.put hl.ok (hl.deleted.trans hdel)
  refine ⟨hw, ?_, rfl⟩
  rw [hacct, hl.acct, ← account_of_live ho hdel, update_eq_self]

theorem Objects.withTrie (h : Objects L s) {t : B.Trie} (hok : L.Ok .accounts s.db t)
    (hcontent : L.content .accounts t = L.content .accounts s.trie) : Reads L s
    { s with trie := t } := by
  have hstored : StateDB.stored L { s with trie := t } = s.stored L := by
    funext a
    exact congrFun hcontent a.val
  refine ⟨⟨rfl, hcontent, ⟨hok, h.obj, fun hd => ?_, fun hd ho => ?_, fun ho hdel => ?_⟩,
    fun hlive => ?_, fun ho _ => ho, fun _ => rfl⟩, ?_, rfl⟩
  · rw [hstored]
    exact h.clean hd
  · rw [hstored]
    exact h.fresh hd ho
  · rw [hstored]
    exact h.gone ho hdel
  · rw [Live, hstored]
    exact hlive
  · funext a
    simp [StateDB.account, hstored]

theorem Objects.getStateObject (h : Objects L s) {addr : Address} (hk : L.Known addr) :
    (∃ s', s.getStateObject addr = (none, s') ∧ Reads L s s' ∧ s.account L addr = none) ∨
    (∃ o s', s.getStateObject addr = (some o, s') ∧ Reads L s s' ∧
      s'.stateObjects addr = some o ∧ o.deleted = false ∧
      s.account L addr = some (o.acct L s.db)) := by
  cases ho : s.stateObjects addr with
  | some o =>
    cases hdel : o.deleted with
    | true =>
      refine .inl ⟨s, ?_, h.reads, account_of_deleted ho hdel⟩
      simp [StateDB.getStateObject, ho, hdel]
    | false =>
      refine .inr ⟨o, s, ?_, h.reads, ho, hdel, account_of_live ho hdel⟩
      simp [StateDB.getStateObject, ho, hdel]
  | none =>
    obtain ⟨t, hget, hcontent, hok⟩ := L.tryGet_eq h.trie hk
    have hr := h.withTrie hok hcontent
    have hvalid := h.valid ho
    cases hc : s.stored L addr with
    | none =>
      have hnil : L.content .accounts s.trie addr.val = none := hc
      refine .inl ⟨_, ?_, hr, ?_⟩
      · simp [StateDB.getStateObject, ho, hget, hnil, StateDB.setError]
      · rw [account_of_absent ho, hc, loaded_none]
    | some enc =>
      have hsome : L.content .accounts s.trie addr.val = some enc := hc
      rw [hc] at hvalid
      obtain ⟨data, hdecode, hne, hobj, hload, -⟩ := hvalid.loaded
      have hacct : s.account L addr = some ((newObject B addr data).acct L s.db) := by
        rw [account_of_absent ho, hc, hload]
      have hobj' : ObjOk L { s with trie := t }.db addr (newObject B addr data) := hobj
      have hw := hr.objects.put hobj' rfl
      refine .inr ⟨newObject B addr data, _, ?_, hr.trans ⟨hw.1, ?_, rfl⟩, ?_, rfl, hacct⟩
      · simp [StateDB.getStateObject, ho, hget, hsome, if_neg hne, hdecode]
      · rw [hw.2.1, hr.account, ← hacct, update_eq_self]
      · exact update_self ..

/-! ## Getters -/

section Getters

variable (h : Objects L s) {addr : Address} (hk : L.Known addr)

include h hk

theorem Objects.exist : (s.exist addr).1 = (s.account L addr).isSome ∧
    Reads L s (s.exist addr).2 := by
  rcases h.getStateObject hk with ⟨s', hget, hr, hacct⟩ | ⟨o, s', hget, hr, -, -, hacct⟩ <;>
    rw [hacct, StateDB.exist, hget] <;> exact ⟨rfl, hr⟩

theorem Objects.empty : (s.empty addr).1 = (s.account L addr).all (Acct.empty B.keccak) ∧
    Reads L s (s.empty addr).2 := by
  rcases h.getStateObject hk with ⟨s', hget, hr, hacct⟩ | ⟨o, s', hget, hr, ho, -, hacct⟩
  · rw [hacct, StateDB.empty, hget]
    exact ⟨rfl, hr⟩
  · have hempty := StateObject.empty_eq (hr.objects.obj ho)
    rw [hr.db] at hempty
    rw [hacct, StateDB.empty, hget]
    exact ⟨hempty, hr⟩

theorem Objects.getBalance : (s.getBalance addr).1 = ((s.account L addr).map Acct.balance).getD 0 ∧
    Reads L s (s.getBalance addr).2 := by
  rcases h.getStateObject hk with ⟨s', hget, hr, hacct⟩ | ⟨o, s', hget, hr, -, -, hacct⟩ <;>
    simp only [StateDB.getBalance, hget, hacct] <;> exact ⟨rfl, hr⟩

theorem Objects.getNonce : (s.getNonce addr).1 = ((s.account L addr).map Acct.nonce).getD 0 ∧
    Reads L s (s.getNonce addr).2 := by
  rcases h.getStateObject hk with ⟨s', hget, hr, hacct⟩ | ⟨o, s', hget, hr, -, -, hacct⟩ <;>
    simp only [StateDB.getNonce, hget, hacct] <;> exact ⟨rfl, hr⟩

theorem Objects.hasSuicided :
    (s.hasSuicided addr).1 = ((s.account L addr).map Acct.suicided).getD false ∧
    Reads L s (s.hasSuicided addr).2 := by
  rcases h.getStateObject hk with ⟨s', hget, hr, hacct⟩ | ⟨o, s', hget, hr, -, -, hacct⟩ <;>
    simp only [StateDB.hasSuicided, hget, hacct] <;> exact ⟨rfl, hr⟩

theorem Objects.getCodeHash : (s.getCodeHash addr).1 =
      ((s.account L addr).map fun ac => B.keccak ac.code).getD Hash.zero ∧
    Reads L s (s.getCodeHash addr).2 := by
  rcases h.getStateObject hk with ⟨s', hget, hr, hacct⟩ | ⟨o, s', hget, hr, ho, -, hacct⟩
  · simp only [StateDB.getCodeHash, hget, hacct]
    exact ⟨rfl, hr⟩
  · have hok := hr.objects.obj ho
    rw [hr.db] at hok
    have hhash : bytesToHash o.data.codeHash = B.keccak (o.acct L s.db).code := by
      apply Subtype.ext
      rw [hok.code.val_bytesToHash, ← hok.code.hash]
      simp [StateObject.acct, hok.address, hok.code.hash]
    simp only [StateDB.getCodeHash, hget, hacct, hhash]
    exact ⟨rfl, hr⟩

theorem Objects.getCode : (s.getCode addr).1.getD [] = ((s.account L addr).map Acct.code).getD [] ∧
    Reads L s (s.getCode addr).2 := by
  rcases h.getStateObject hk with ⟨s', hget, hr, hacct⟩ | ⟨o, s', hget, hr, ho, hdel, hacct⟩
  · simp only [StateDB.getCode, hget, hacct]
    exact ⟨rfl, hr⟩
  · obtain ⟨code, o', hcode, hl, hval, -⟩ := (hr.objects.obj ho).getCode
    simp only [StateDB.getCode, hget, hacct, hcode]
    rw [hval, hr.db]
    exact ⟨rfl, hr.trans (hr.objects.putLoaded ho hdel hl)⟩

theorem Objects.getState {key : Hash} (hkey : L.KnownSlot key) : (s.getState addr key).1 =
      ((s.account L addr).map fun ac => ac.storage key).getD Hash.zero ∧
    Reads L s (s.getState addr key).2 := by
  rcases h.getStateObject hk with ⟨s', hget, hr, hacct⟩ | ⟨o, s', hget, hr, ho, hdel, hacct⟩
  · simp only [StateDB.getState, hget, hacct]
    exact ⟨rfl, hr⟩
  · obtain ⟨o', hstate, hl⟩ := (hr.objects.obj ho).getState hkey
    simp only [StateDB.getState, hget, hacct, hstate]
    rw [hr.db]
    exact ⟨rfl, hr.trans (hr.objects.putLoaded ho hdel hl)⟩

theorem Objects.getCodeSize : Reads L s (s.getCodeSize addr).2 := by
  rcases h.getStateObject hk with ⟨s', hget, hr, -⟩ | ⟨o, s', hget, hr, -, -, -⟩
  · simp only [StateDB.getCodeSize, hget]
    exact hr
  · simp only [StateDB.getCodeSize, hget]
    split
    · exact hr
    · have ho := hr.objects
      exact hr.trans ⟨⟨rfl, rfl, ⟨ho.trie, ho.obj, ho.clean, ho.fresh, ho.gone⟩, id,
        fun hu _ => hu, fun _ => rfl⟩, rfl, rfl⟩

omit hk in
theorem Objects.query {q : Query} (hq : q.Known L) : Reads L s (s.query q) := by
  cases q with
  | exist addr => exact (h.exist hq).2
  | empty addr => exact (h.empty hq).2
  | getBalance addr => exact (h.getBalance hq).2
  | getNonce addr => exact (h.getNonce hq).2
  | getCode addr => exact (h.getCode hq).2
  | getCodeSize addr => exact h.getCodeSize hq
  | getCodeHash addr => exact (h.getCodeHash hq).2
  | getState addr key => exact (h.getState hq.1 hq.2).2
  | hasSuicided addr => exact (h.hasSuicided hq).2

end Getters

end StateDB

end Geth.State
