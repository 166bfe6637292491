import Geth.State.Verify.Invariant

/-!
# The journal

An entry of the journal undoes one change of the ledger (`undo`), the list of them unwinds a run
(`unwind`). Each operation of a transaction extends the journal by entries that lead back to the
ledger before it (`Extends`), and `revert` of entries does to the state what unwinding does to the
ledger.
-/

namespace Geth.State

open Lib Function List Option

namespace Ledger

variable {w : Ledger} {addr : Address}

/-- Changes an account that has to exist. -/
def modify (w : Ledger) (addr : Address) (f : Acct → Acct) : Option Ledger :=
  (w.accounts addr).map fun ac => w.set addr (some (f ac))

@[simp] theorem set_set (ac ac' : Option Acct) : (w.set addr ac).set addr ac' = w.set addr ac' := by
  simp [set]

theorem set_eq_self {ac : Option Acct} (h : w.accounts addr = ac) : w.set addr ac = w := by
  simp [set, ← h]

@[simp] theorem modify_set (ac : Acct) (f : Acct → Acct) :
    (w.set addr (some ac)).modify addr f = some (w.set addr (some (f ac))) := by
  simp [modify, set]

theorem accounts_set_of_ne {a : Address} (ha : a ≠ addr) (ac : Option Acct) :
    (w.set addr ac).accounts a = w.accounts a := by
  simp [set, ha]

end Ledger

section Undo

variable {B : Backend} (L : Lawful B) (db : B.Db)

/-- What an entry does to the ledger when it is reverted; `none` is a panic. -/
def undo (w : Ledger) : JournalEntry B → Option Ledger
  | .createObjectChange account => some (w.set account none)
  | .resetObjectChange prev => some (w.set prev.address (some (prev.acct L db)))
  | .suicideChange account prev prevbalance =>
    w.modify account fun ac => { ac with suicided := prev, balance := prevbalance }
  | .balanceChange account prev => w.modify account fun ac => { ac with balance := prev }
  | .nonceChange account prev => w.modify account fun ac => { ac with nonce := prev }
  | .codeChange account prevcode prevhash =>
    w.modify account fun ac => { ac with code := codeOf B db account prevcode prevhash }
  | .storageChange account key prevalue =>
    w.modify account fun ac => { ac with storage := Function.update ac.storage key prevalue }
  | .refundChange prev => some { w with refund := prev }
  | .addLogChange txhash =>
    if w.logs txhash = [] then none
    else some { w with
      logs := Function.update w.logs txhash (w.logs txhash).dropLast
      logSize := w.logSize - 1 }
  | .addPreimageChange hash => some { w with preimages := Function.update w.preimages hash none }
  | .touchChange _ => some w

/-- Undoes entries, the newest first. -/
def unwind (w : Ledger) : List (JournalEntry B) → Option Ledger
  | [] => some w
  | e :: es => (undo L db w e).bind fun w => unwind w es

/-- What an entry relies on: a created object is of an account that was not in the trie, an object
that is put back is in order, and so is the code, and a slot is one that the laws hold for. -/
def EntryOk (stored : Address → Option Bytes) : JournalEntry B → Prop
  | .createObjectChange account => stored account = none
  | .resetObjectChange prev => ObjOk L db prev.address prev ∧ prev.deleted = false
  | .codeChange account prevcode prevhash => CodeOk db account prevcode prevhash
  | .storageChange _ key _ => L.KnownSlot key
  | _ => True

theorem unwind_append (w : Ledger) (es es' : List (JournalEntry B)) :
    unwind L db w (es ++ es') = (unwind L db w es).bind fun w => unwind L db w es' := by
  induction es generalizing w with
  | nil => rfl
  | cons e es ih =>
    simp only [cons_append, unwind, bind_assoc]
    congr 1
    funext w'
    exact ih w'

theorem unwind_singleton (w : Ledger) (e : JournalEntry B) : unwind L db w [e] = undo L db w e := by
  exact bind_fun_some _

end Undo

/-- The number of entries that mark an account as dirty. -/
def touches {B : Backend} (es : List (JournalEntry B)) (addr : Address) : Nat :=
  es.countP fun e => decide (e.dirtied = some addr)

section Touches

variable {B : Backend} {addr : Address}

@[simp] theorem touches_nil : touches ([] : List (JournalEntry B)) addr = 0 := rfl

theorem touches_append (es es' : List (JournalEntry B)) :
    touches (es ++ es') addr = touches es addr + touches es' addr := countP_append

theorem touches_cons (e : JournalEntry B) (es : List (JournalEntry B)) :
    touches (e :: es) addr = touches es addr + if e.dirtied = some addr then 1 else 0 := by
  simp [touches, countP_cons]

theorem Journal.dirties_append (j : Journal B) (e : JournalEntry B) (addr : Address) :
    (j.append e).dirties addr = j.dirties addr + touches [e] addr := by
  rw [touches_cons, touches_nil]
  cases he : e.dirtied with
  | none => simp [append, mark, he]
  | some a =>
    by_cases ha : addr = a
    · subst ha
      simp [append, mark, dirty, he]
    · simp [append, mark, dirty, he, update_of_ne ha, Ne.symm ha]

@[simp] theorem Journal.entries_append (j : Journal B) (e : JournalEntry B) :
    (j.append e).entries = e :: j.entries := by
  cases he : e.dirtied <;> simp [append, mark, dirty, he]

end Touches

namespace StateDB

variable {B : Backend}

/-- The journal of `s'` extends that of `s` by the entries `es`, which lead back to `s`; `k` is the
number of touches of the ripemd precompile that a revert does not take back. -/
structure Extends (L : Lawful B) (s s' : StateDB B) (es : List (JournalEntry B))
    (k : Nat) : Prop extends Within L s s' where
  entries : s'.journal.entries = es ++ s.journal.entries
  dirties : ∀ a, s'.journal.dirties a =
    s.journal.dirties a + touches es a + if a = ripemd then k else 0
  entriesOk : ∀ e ∈ es, EntryOk L s.db (s.stored L) e
  touched : ∀ {a}, s.journal.dirties a < s'.journal.dirties a → s'.Live L a
  unwinds : unwind L s.db (s'.ledger L) es = some (s.ledger L)
  session : s'.thash = s.thash ∧ s'.bhash = s.bhash ∧ s'.txIndex = s.txIndex ∧
    s'.validRevisions = s.validRevisions ∧ s'.nextRevisionId = s.nextRevisionId

variable {L : Lawful B} {s s' s'' : StateDB B} {addr : Address} {e : JournalEntry B}

theorem Reads.extends (h : Reads L s s') : Extends L s s' [] 0 := by
  have hj : s'.journal = s.journal := by rw [h.rest]
  refine ⟨h.toWithin, ?_, fun a => ?_, fun _ he => absurd he not_mem_nil,
    fun {a} ha => ?_, ?_, ?_⟩
  · rw [hj, nil_append]
  · rw [hj, touches_nil, ite_self, Nat.add_zero]
  · rw [hj] at ha
    exact absurd ha (Nat.lt_irrefl _)
  · rw [unwind, h.ledger]
  · rw [h.rest]
    exact ⟨rfl, rfl, rfl, rfl, rfl⟩

theorem Extends.trans {es es' : List (JournalEntry B)} {k k' : Nat} (h : Extends L s s' es k)
    (h' : Extends L s' s'' es' k') : Extends L s s'' (es' ++ es) (k + k') := by
  refine ⟨h.toWithin.trans h'.toWithin, ?_, fun a => ?_, fun e he => ?_, fun {a} ha => ?_, ?_, ?_⟩
  · rw [h'.entries, h.entries, append_assoc]
  · rw [h'.dirties, h.dirties, touches_append]
    split <;> omega
  · rcases mem_append.mp he with he | he
    · have := h'.entriesOk e he
      rwa [h.db, h.stored] at this
    · exact h.entriesOk e he
  · by_cases hlt : s'.journal.dirties a < s''.journal.dirties a
    · exact h'.touched hlt
    · exact h'.live (h.touched (by omega))
  · have hu := h'.unwinds
    rw [h.db] at hu
    rw [unwind_append, hu]
    exact h.unwinds
  · obtain ⟨h1, h2, h3, h4, h5⟩ := h.session
    obtain ⟨h1', h2', h3', h4', h5'⟩ := h'.session
    exact ⟨h1'.trans h1, h2'.trans h2, h3'.trans h3, h4'.trans h4, h5'.trans h5⟩

/-- What the journal, the refund counter, the logs and the preimages are does not matter to the
objects. -/
theorem Objects.within (h : Objects L s) (hs' : s' = { s with
    journal := s'.journal, refund := s'.refund, logs := s'.logs, logSize := s'.logSize
    preimages := s'.preimages }) : Within L s s' := by
  rw [hs']
  exact ⟨rfl, rfl, ⟨h.trie, h.obj, h.clean, h.fresh, h.gone⟩, id, fun ho _ => ho, fun _ => rfl⟩

theorem Objects.journal (h : Objects L s) {o : StateObject B}
    (hok : ObjOk L s.db addr o) (hdel : o.deleted = false)
    (hdirtied : ∀ a, e.dirtied = some a → a = addr) (he : EntryOk L s.db (s.stored L) e)
    (hundo : undo L s.db ((s.ledger L).set addr (some (o.acct L s.db))) e = some (s.ledger L)) :
    Extends L s ((s.append e).setStateObject o) [e] 0 ∧ ((s.append e).setStateObject o).ledger L =
        (s.ledger L).set addr (some (o.acct L s.db)) := by
  have hok' : ObjOk L (s.append e).db addr o := hok
  have happ : Within L s (s.append e) := h.within rfl
  obtain ⟨hw, hacct, hlive⟩ := happ.objects.put hok' hdel
  have hledger : ((s.append e).setStateObject o).ledger L =
      (s.ledger L).set addr (some (o.acct L s.db)) := by
    rw [StateDB.ledger, hacct]
    rfl
  refine ⟨⟨⟨hw.db, hw.content, hw.objects, hw.live, hw.deleted, hw.marks⟩, ?_, fun a => ?_, ?_,
    fun {a} hlt => ?_, ?_, ⟨rfl, rfl, rfl, rfl, rfl⟩⟩, hledger⟩
  · exact Journal.entries_append ..
  · rw [ite_self]
    exact Journal.dirties_append ..
  · rintro e' he'
    rw [mem_singleton.mp he']
    exact he
  · have hcount : s.journal.dirties a < s.journal.dirties a + touches [e] a := by
      rw [← Journal.dirties_append]
      exact hlt
    rw [touches_cons, touches_nil] at hcount
    have hmark : e.dirtied = some a := by
      by_contra hne
      rw [if_neg hne] at hcount
      omega
    rw [hdirtied a hmark]
    exact hlive
  · rw [unwind_singleton, hledger]
    exact hundo

/-! ## Creating accounts -/

theorem Objects.createObject_of_none (h : Objects L s) (hk : L.Known addr)
    (hacct : s.account L addr = none) :
    ∃ o s', s.createObject addr = (o, none, s') ∧
      Extends L s s' [.createObjectChange addr] 0 ∧ s'.stateObjects addr = some o ∧
      o.deleted = false ∧ o.acct L s.db = .new ∧
      s'.ledger L = (s.ledger L).set addr (some .new) := by
  rcases h.getStateObject hk with ⟨s1, hget, hr, -⟩ | ⟨o, s1, -, -, -, -, hsome⟩
  · have hstored := h.stored_eq_none hacct
    have hnew := acct_newAccount L s1.db addr
    obtain ⟨hext, hledger⟩ := hr.objects.journal (e := .createObjectChange addr)
      (objOk_newAccount s1.db hk) rfl (fun a ha => (Option.some.inj ha).symm)
      (by rw [hr.stored]; exact hstored) (by
        rw [undo, Ledger.set_set, Ledger.set_eq_self]
        rw [hr.ledger]
        exact hacct)
    rw [hnew, hr.ledger] at hledger
    refine ⟨_, _, ?_, hr.extends.trans hext, update_self .., rfl, ?_, hledger⟩
    · simp [StateDB.createObject, hget]
    · rw [← hr.db]
      exact hnew
  · rw [hacct] at hsome
    cases hsome

theorem Objects.createObject_of_some (h : Objects L s) {ac : Acct}
    (hacct : s.account L addr = some ac) : ∃ prev s1, Reads L s s1 ∧
      s.createObject addr = ((newObject B addr (newAccount B)).setNonce 0, some prev,
        (s1.append (.resetObjectChange prev)).setStateObject
          ((newObject B addr (newAccount B)).setNonce 0)) ∧
      ObjOk L s.db addr prev ∧ prev.deleted = false ∧ prev.acct L s.db = ac := by
  rcases h.getStateObject (h.known hacct) with
    ⟨s1, -, -, hnone⟩ | ⟨o, s1, hget, hr, ho, hdel, hsome⟩
  · rw [hacct] at hnone
    cases hnone
  · refine ⟨o, s1, hr, ?_, ?_, hdel, ?_⟩
    · simp [StateDB.createObject, hget]
    · rw [← hr.db]
      exact hr.objects.obj ho
    · rw [hacct] at hsome
      exact (Option.some.inj hsome).symm

theorem setStateObject_setStateObject {o o' : StateObject B} (h : o'.address = o.address) :
    (s.setStateObject o).setStateObject o' = s.setStateObject o' := by
  simp [setStateObject, h]

theorem Objects.createAccount (h : Objects L s) (hk : L.Known addr) : ∃ es,
    Extends L s (s.createAccount addr) es 0 ∧
    (s.createAccount addr).ledger L = (s.ledger L).set addr
      (some { Acct.new with balance := ((s.account L addr).map Acct.balance).getD 0 }) ∧
    ∀ a, touches es a = if s.account L addr = none ∧ addr = a then 1 else 0 := by
  cases hacct : s.account L addr with
  | none =>
    obtain ⟨o, s', hcreate, hext, -, -, -, hledger⟩ := h.createObject_of_none hk hacct
    have hself : s.createAccount addr = s' := by simp [StateDB.createAccount, hcreate]
    rw [hself]
    refine ⟨_, hext, hledger, fun a => ?_⟩
    simp [touches_cons, JournalEntry.dirtied]
  | some ac =>
    obtain ⟨prev, s1, hr, hcreate, hok, hdel, hprev⟩ := h.createObject_of_some hacct
    have haddr := hok.address
    have hself : s.createAccount addr = (s1.append (.resetObjectChange prev)).setStateObject
        (((newObject B addr (newAccount B)).setNonce 0).setBalance prev.data.balance) := by
      simp only [StateDB.createAccount, hcreate]
      exact setStateObject_setStateObject rfl
    have hundo : undo L s1.db ((s1.ledger L).set addr (some
        ((((newObject B addr (newAccount B)).setNonce 0).setBalance prev.data.balance).acct L
          s1.db))) (.resetObjectChange prev) = some (s1.ledger L) := by
      rw [undo, haddr, Ledger.set_set, Ledger.set_eq_self]
      rw [hr.ledger, hr.db, hprev]
      exact hacct
    obtain ⟨hext, hledger⟩ := hr.objects.journal (e := .resetObjectChange prev)
      ((objOk_newAccount s1.db hk).setBalance prev.data.balance) rfl nofun
      (by rw [hr.db, EntryOk, haddr]; exact ⟨hok, hdel⟩) hundo
    rw [StateObject.acct_setBalance, acct_newAccount, hr.ledger] at hledger
    have hbal : prev.data.balance = ac.balance := congrArg Acct.balance hprev
    rw [hself]
    refine ⟨_, hr.extends.trans hext, ?_, fun a => ?_⟩
    · rw [hledger, hbal]
      rfl
    · simp [touches_cons, JournalEntry.dirtied]

theorem Objects.getOrNewStateObject (h : Objects L s) (hk : L.Known addr) : ∃ o s' es,
    s.getOrNewStateObject addr = (o, s') ∧ Extends L s s' es 0 ∧
    s'.stateObjects addr = some o ∧ o.deleted = false ∧
    o.acct L s.db = (s.account L addr).getD .new ∧
    s'.ledger L = (s.ledger L).set addr (some ((s.account L addr).getD .new)) ∧
    (∀ a, touches es a = if s.account L addr = none ∧ addr = a then 1 else 0) ∧
    (s.account L addr ≠ none → Reads L s s') := by
  rcases h.getStateObject hk with ⟨s1, hget, hr, hacct⟩ | ⟨o, s1, hget, hr, ho, hdel, hacct⟩
  · have hacct1 : s1.account L addr = none := by rw [hr.account]; exact hacct
    obtain ⟨o, s', hcreate, hext, ho, hdel, hnew, hledger⟩ :=
      hr.objects.createObject_of_none hk hacct1
    rw [hr.db] at hnew
    rw [hr.ledger] at hledger
    refine ⟨o, s', _, ?_, hr.extends.trans hext, ho, hdel, ?_, ?_, fun a => ?_, absurd hacct⟩
    · simp [StateDB.getOrNewStateObject, hget, hcreate]
    · rw [hnew, hacct, getD_none]
    · rw [hledger, hacct, getD_none]
    · simp [touches_cons, JournalEntry.dirtied, hacct]
  · refine ⟨o, s1, [], ?_, hr.extends, ho, hdel, ?_, ?_, fun a => ?_, fun _ => hr⟩
    · simp [StateDB.getOrNewStateObject, hget, hdel]
    · rw [hacct, getD_some]
    · rw [hr.ledger, hacct, getD_some, Ledger.set_eq_self]
      exact hacct
    · simp [hacct]

/-! ## Changing accounts -/

/-- The step changes the account `addr` by `f`, and marks it. -/
def Changes (L : Lawful B) (s s' : StateDB B) (addr : Address) (f : Acct → Acct)
    (k : Nat) : Prop :=
  ∃ es, Extends L s s' es k ∧
    s'.ledger L = (s.ledger L).set addr (some (f ((s.account L addr).getD .new))) ∧
    ∀ a, 0 < touches es a ↔ a = addr

section

variable (h : Objects L s)

include h

/-- The common part of the setters: they get or create the object, and put a changed one in its
place. -/
theorem Objects.change (hk : L.Known addr) : ∃ o s1,
    s.getOrNewStateObject addr = (o, s1) ∧ s1.db = s.db ∧ ObjOk L s.db addr o ∧
    o.acct L s.db = (s.account L addr).getD .new ∧ o.deleted = false ∧
    ∀ {o' : StateObject B} {e : JournalEntry B} {f : Acct → Acct}, ObjOk L s.db addr o' →
      o'.deleted = false → e.dirtied = some addr → EntryOk L s.db (s.stored L) e →
      o'.acct L s.db = f (o.acct L s.db) →
      (∀ w : Ledger, undo L s.db (w.set addr (some (f (o.acct L s.db)))) e =
        some (w.set addr (some (o.acct L s.db)))) →
      Changes L s ((s1.append e).setStateObject o') addr f 0 := by
  obtain ⟨o, s1, es, hget, hext, ho, hdel, hacct, hledger, htouch, -⟩ := h.getOrNewStateObject hk
  have hok := hext.objects.obj ho
  rw [hext.db] at hok
  refine ⟨o, s1, hget, hext.db, hok, hacct, hdel, ?_⟩
  intro o' e f hok' hdel' hdirtied he hf hundo
  rw [← hext.db] at hok' hundo he
  rw [← hext.stored] at he
  have hf' : o'.acct L s1.db = f (o.acct L s1.db) := by
    rw [hext.db]
    exact hf
  have hself : s1.ledger L = (s1.ledger L).set addr (some (o.acct L s1.db)) := by
    rw [hledger, Ledger.set_set, hext.db, hacct]
  obtain ⟨hext', hledger'⟩ := hext.objects.journal hok' hdel'
    (fun a ha => Option.some.inj (ha.symm.trans hdirtied)) he (by
      rw [hf', hundo]
      exact congrArg some hself.symm)
  refine ⟨_, hext.trans hext', ?_, fun a => ?_⟩
  · rw [hledger', hf', hext.db, hacct, hledger, Ledger.set_set]
  · rw [touches_append, touches_cons, touches_nil, htouch, hdirtied]
    by_cases ha : addr = a
    · simp [ha]
    · simp [ha, Ne.symm ha]

theorem Objects.setObjectBalance (hk : L.Known addr) (g : Int → Int) : ∃ o s1,
    s.getOrNewStateObject addr = (o, s1) ∧
    Changes L s (s1.setObjectBalance o (g o.data.balance)) addr
      (fun ac => { ac with balance := g ac.balance }) 0 := by
  obtain ⟨o, s1, hget, hdb, hok, hacct, hdel, hput⟩ := h.change hk
  have haddr := hok.address
  refine ⟨o, s1, hget, ?_⟩
  apply hput (hok.setBalance (g o.data.balance)) hdel
  · simp [JournalEntry.dirtied, haddr]
  · exact trivial
  · rfl
  · intro w
    rw [undo, haddr, Ledger.modify_set]
    rfl

theorem Objects.setBalance (hk : L.Known addr) (amount : Int) :
    Changes L s (s.setBalance addr amount) addr (fun ac => { ac with balance := amount }) 0 := by
  obtain ⟨o, s1, hget, hch⟩ := h.setObjectBalance hk fun _ => amount
  simp only [StateDB.setBalance, hget]
  exact hch

theorem Objects.setNonce (hk : L.Known addr) (nonce : UInt64) :
    Changes L s (s.setNonce addr nonce) addr (fun ac => { ac with nonce := nonce }) 0 := by
  obtain ⟨o, s1, hget, hdb, hok, hacct, hdel, hput⟩ := h.change hk
  have haddr := hok.address
  simp only [StateDB.setNonce, hget]
  apply hput (hok.setNonce nonce) hdel
  · simp [JournalEntry.dirtied, haddr]
  · exact trivial
  · rfl
  · intro w
    rw [undo, haddr, Ledger.modify_set]
    rfl

theorem Objects.setCode (hk : L.Known addr) (code : Bytes) :
    Changes L s (s.setCode addr code) addr (fun ac => { ac with code := code }) 0 := by
  obtain ⟨o, s1, hget, hdb, hok, hacct, hdel, hput⟩ := h.change hk
  obtain ⟨prevcode, o1, hcode, hl, -, hprev, hof⟩ := hok.getCode
  have haddr := hl.ok.address
  rw [← hl.data] at hprev hof
  simp only [StateDB.setCode, hget, hdb, hcode]
  apply hput (hl.ok.setCode (CodeOk.loaded s.db addr code)) (hl.deleted.trans hdel)
  · simp [JournalEntry.dirtied, haddr]
  · rw [EntryOk, haddr]
    exact hprev
  · rw [StateObject.acct_setCode, hl.acct]
    rfl
  · intro w
    rw [undo, haddr, Ledger.modify_set, hof]

theorem Objects.setState (hk : L.Known addr) {key : Hash}
    (hkey : L.KnownSlot key) (value : Hash) :
    Changes L s (s.setState addr key value) addr
      (fun ac => { ac with storage := update ac.storage key value }) 0 := by
  obtain ⟨o, s1, hget, hdb, hok, hacct, hdel, hput⟩ := h.change hk
  obtain ⟨o1, hstate, hl⟩ := hok.getState hkey
  have haddr := hl.ok.address
  simp only [StateDB.setState, hget, hdb, hstate]
  apply hput (hl.ok.setState hkey value) (hl.deleted.trans hdel)
  · simp [JournalEntry.dirtied, haddr]
  · exact hkey
  · rw [StateObject.acct_setState, hl.acct]
  · intro w
    rw [undo, haddr, Ledger.modify_set, update_idem, update_eq_self]

theorem Objects.suicide (hk : L.Known addr) :
    (s.account L addr = none ∧ Reads L s (s.suicide addr).2) ∨
    (∃ ac, s.account L addr = some ac ∧ Changes L s (s.suicide addr).2 addr
      (fun ac => { ac with suicided := true, balance := 0 }) 0) := by
  rcases h.getStateObject hk with ⟨s1, hget, hr, hacct⟩ | ⟨o, s1, hget, hr, ho, hdel, hacct⟩
  · refine .inl ⟨hacct, ?_⟩
    simp only [StateDB.suicide, hget]
    exact hr
  · refine .inr ⟨_, hacct, ?_⟩
    have hok := hr.objects.obj ho
    simp only [StateDB.suicide, hget]
    have hsome : (s1.ledger L).accounts addr = some (o.acct L s1.db) := by
      rw [hr.ledger, hr.db]
      exact hacct
    have hundo : undo L s1.db ((s1.ledger L).set addr
        (some (({ o with suicided := true }.setBalance 0).acct L s1.db)))
        (.suicideChange addr o.suicided o.data.balance) = some (s1.ledger L) := by
      rw [undo, Ledger.modify_set, Ledger.set_eq_self]
      exact hsome
    obtain ⟨hext, hledger⟩ := hr.objects.journal
      (e := .suicideChange addr o.suicided o.data.balance)
        ((hok.setSuicided true).setBalance 0) hdel
      (fun a ha => (Option.some.inj ha).symm) trivial hundo
    refine ⟨_, hr.extends.trans hext, ?_, fun a => ?_⟩
    · rw [hledger, hr.ledger, hr.db, hacct]
      rfl
    · by_cases ha : addr = a
      · simp [touches_cons, JournalEntry.dirtied, ha]
      · simp [touches_cons, JournalEntry.dirtied, ha, Ne.symm ha]

theorem Objects.touch (hlive : s.Live L addr) :
    Extends L s (s.touch addr) [.touchChange addr] (if addr = ripemd then 1 else 0) ∧
      (s.touch addr).ledger L = s.ledger L := by
  -- only the journal changes
  have hj : s.touch addr = { s with journal := (s.touch addr).journal } := by
    rw [StateDB.touch]
    split <;> rfl
  have hentries : (s.touch addr).journal.entries = .touchChange addr :: s.journal.entries := by
    rw [StateDB.touch]
    split <;> exact Journal.entries_append ..
  have hdirties : ∀ a, (s.touch addr).journal.dirties a = s.journal.dirties a +
      touches [(.touchChange addr : JournalEntry B)] a +
        if a = ripemd then (if addr = ripemd then 1 else 0) else 0 := by
    intro a
    have happ := Journal.dirties_append s.journal (.touchChange addr) a
    by_cases haddr : addr = ripemd
    · have hself : (s.touch addr).journal = (s.append (.touchChange addr)).journal.dirty addr := by
        rw [StateDB.touch, if_pos haddr]
      rw [hself, ← happ, if_pos haddr]
      by_cases ha : a = ripemd
      · rw [if_pos ha, ha, ← haddr]
        exact update_self ..
      · have hne : a ≠ addr := fun he => ha (he.trans haddr)
        rw [if_neg ha]
        exact update_of_ne hne ..
    · have hself : (s.touch addr).journal = (s.append (.touchChange addr)).journal := by
        rw [StateDB.touch, if_neg haddr]
      rw [hself, if_neg haddr, ite_self]
      exact happ
  have hw : Within L s (s.touch addr) := h.within (by rw [hj])
  have hledger : (s.touch addr).ledger L = s.ledger L := by
    rw [hj]
    rfl
  refine ⟨⟨hw, hentries, hdirties, ?_, fun {a} ha => ?_, ?_, ?_⟩, hledger⟩
  · intro e he
    rw [mem_singleton.mp he]
    exact trivial
  · by_cases haddr : a = addr
    · rw [haddr]
      exact hw.live hlive
    · have hdirtied : ¬ (JournalEntry.touchChange addr : JournalEntry B).dirtied = some a :=
        fun he => haddr (Option.some.inj he).symm
      rw [hdirties, touches_cons, touches_nil, if_neg hdirtied] at ha
      by_cases hr : a = ripemd
      · rw [if_pos hr, if_neg fun he => haddr (hr.trans he.symm)] at ha
        exact absurd ha (by omega)
      · rw [if_neg hr] at ha
        exact absurd ha (by omega)
  · rw [unwind_singleton, hledger]
    rfl
  · rw [hj]
    exact ⟨rfl, rfl, rfl, rfl, rfl⟩

theorem Objects.addBalance (hk : L.Known addr) (amount : Int) :
    (amount = 0 ∧ ((s.account L addr).getD .new).empty B.keccak = false ∧
      Reads L s (s.addBalance addr amount)) ∨
    (amount = 0 ∧ ((s.account L addr).getD .new).empty B.keccak = true ∧
      Changes L s (s.addBalance addr amount) addr id (if addr = ripemd then 1 else 0)) ∨
    (amount ≠ 0 ∧ Changes L s (s.addBalance addr amount) addr
      (fun ac => { ac with balance := ac.balance + amount }) 0) := by
  by_cases hz : amount = 0
  · obtain ⟨o, s1, es, hget, hext, ho, hdel, hacct, hledger, htouch, hreads⟩ :=
      h.getOrNewStateObject hk
    have hok := hext.objects.obj ho
    have hempty := StateObject.empty_eq hok
    rw [hext.db, hacct] at hempty
    have hself : s.addBalance addr amount = if o.empty then s1.touch o.address else s1 := by
      simp [StateDB.addBalance, hget, if_pos hz]
    cases he : ((s.account L addr).getD .new).empty B.keccak with
    | false =>
      refine .inl ⟨hz, rfl, ?_⟩
      rw [hself, hempty, he]
      apply hreads
      intro hnone
      rw [hnone] at he
      simp [Acct.new, Acct.empty] at he
    | true =>
      refine .inr (.inl ⟨hz, rfl, ?_⟩)
      rw [hself, hempty, he, if_pos rfl, hok.address]
      have hlive : s1.Live L addr := .inl ⟨o, ho, hdel⟩
      obtain ⟨hext', hledger'⟩ := hext.objects.touch hlive
      have hboth := hext.trans hext'
      rw [Nat.zero_add] at hboth
      refine ⟨_, hboth, hledger'.trans hledger, fun a => ?_⟩
      rw [touches_append, touches_cons, touches_nil, htouch]
      by_cases ha : addr = a
      · simp [ha, JournalEntry.dirtied]
      · simp [ha, Ne.symm ha, JournalEntry.dirtied]
  · obtain ⟨o, s1, hget, hch⟩ := h.setObjectBalance hk (· + amount)
    refine .inr (.inr ⟨hz, ?_⟩)
    simp only [StateDB.addBalance, hget, if_neg hz]
    exact hch

theorem Objects.subBalance (hk : L.Known addr) (amount : Int) :
    (amount = 0 ∧ s.account L addr ≠ none ∧ Reads L s (s.subBalance addr amount)) ∨
    (amount = 0 ∧ s.account L addr = none ∧ Changes L s (s.subBalance addr amount) addr id 0) ∨
    (amount ≠ 0 ∧ Changes L s (s.subBalance addr amount) addr
      (fun ac => { ac with balance := ac.balance - amount }) 0) := by
  by_cases hz : amount = 0
  · obtain ⟨o, s1, es, hget, hext, ho, hdel, hacct, hledger, htouch, hreads⟩ :=
      h.getOrNewStateObject hk
    have hself : s.subBalance addr amount = s1 := by
      simp [StateDB.subBalance, hget, if_pos hz]
    rw [hself]
    by_cases hnone : s.account L addr = none
    · refine .inr (.inl ⟨hz, hnone, es, hext, hledger, fun a => ?_⟩)
      rw [htouch, hnone]
      by_cases ha : addr = a
      · simp [ha]
      · simp [ha, Ne.symm ha]
    · exact .inl ⟨hz, hnone, hreads hnone⟩
  · obtain ⟨o, s1, hget, hch⟩ := h.setObjectBalance hk (· - amount)
    refine .inr (.inr ⟨hz, ?_⟩)
    simp only [StateDB.subBalance, hget, if_neg hz]
    exact hch

end

/-! ## The refund counter, logs and preimages -/

theorem Objects.journalRest (h : Objects L s) (hdirtied : e.dirtied = none)
    (he : EntryOk L s.db (s.stored L) e) (hs' : s' = { s.append e with
      refund := s'.refund, logs := s'.logs, logSize := s'.logSize, preimages := s'.preimages })
    (hundo : undo L s.db (s'.ledger L) e = some (s.ledger L)) :
    Extends L s s' [e] 0 ∧ ∀ a, touches [e] a = 0 := by
  have htouch : ∀ a, touches [e] a = 0 := by
    intro a
    rw [touches_cons, touches_nil, hdirtied, if_neg nofun]
  have hj : s'.journal = s.journal.append e := by
    rw [hs']
    rfl
  have hdirties : ∀ a, s'.journal.dirties a = s.journal.dirties a := by
    intro a
    rw [hj, Journal.dirties_append, htouch, Nat.add_zero]
  refine ⟨⟨h.within ?_, ?_, fun a => ?_, ?_, fun {a} ha => ?_, ?_, ?_⟩, htouch⟩
  · rw [hs']
    rfl
  · rw [hj, Journal.entries_append]
    rfl
  · rw [hdirties, htouch, ite_self, Nat.add_zero]
  · intro e' he'
    rw [mem_singleton.mp he']
    exact he
  · rw [hdirties] at ha
    exact absurd ha (Nat.lt_irrefl _)
  · rw [unwind_singleton]
    exact hundo
  · rw [hs']
    exact ⟨rfl, rfl, rfl, rfl, rfl⟩

theorem Objects.addRefund (h : Objects L s) (gas : UInt64) : ∃ es,
    Extends L s (s.addRefund gas) es 0 ∧ ∀ a, touches es a = 0 :=
  ⟨[.refundChange s.refund], h.journalRest rfl trivial rfl rfl⟩

theorem Objects.addLog (h : Objects L s) (log : Log) : ∃ es,
    Extends L s (s.addLog log) es 0 ∧ ∀ a, touches es a = 0 := by
  refine ⟨[.addLogChange s.thash], h.journalRest rfl trivial rfl ?_⟩
  have hacct : (s.addLog log).account L = s.account L := rfl
  have hsize : s.logSize + 1 - 1 = s.logSize := UInt64.add_sub_cancel ..
  rw [undo, StateDB.ledger, hacct]
  simp [StateDB.addLog, StateDB.append, StateDB.ledger, hsize]

theorem Objects.addPreimage (h : Objects L s) (hash : Hash) (preimage : Bytes) : ∃ es,
    Extends L s (s.addPreimage hash preimage) es 0 ∧ ∀ a, touches es a = 0 := by
  cases hp : s.preimages hash with
  | some p =>
    have hself : s.addPreimage hash preimage = s := by simp [StateDB.addPreimage, hp]
    rw [hself]
    exact ⟨[], h.reads.extends, fun a => rfl⟩
  | none =>
    have hself : s.addPreimage hash preimage = { s.append (.addPreimageChange hash) with
        preimages := update s.preimages hash (some preimage) } := by
      simp [StateDB.addPreimage, hp]
    refine ⟨[.addPreimageChange hash], h.journalRest rfl trivial ?_ ?_⟩
    · rw [hself]
    · have hacct : (s.addPreimage hash preimage).account L = s.account L := by
        rw [hself]
        rfl
      rw [undo, StateDB.ledger, hacct, hself]
      simp [StateDB.append, StateDB.ledger, ← hp]

/-! ## Reverting -/

/-- The step leads to the ledger `w` and leaves the journal alone. -/
structure Reverts (L : Lawful B) (s s' : StateDB B) (w : Ledger) : Prop
    extends Within L s s' where
  ledger : s'.ledger L = w
  journal : s'.journal = s.journal
  session : s'.thash = s.thash ∧ s'.bhash = s.bhash ∧ s'.txIndex = s.txIndex ∧
    s'.validRevisions = s.validRevisions ∧ s'.nextRevisionId = s.nextRevisionId

theorem Objects.changeObject (h : Objects L s) {f : StateObject B → StateObject B}
    {g : Acct → Acct} {w : Ledger}
    (hf : ∀ {o}, ObjOk L s.db addr o → ObjOk L s.db addr (f o) ∧ (f o).deleted = o.deleted ∧
      (f o).acct L s.db = g (o.acct L s.db))
    (hw : (s.ledger L).modify addr g = some w) :
    ∃ s', s.changeObject addr f = some s' ∧ Reverts L s s' w := by
  obtain ⟨ac, hacct, rfl⟩ := map_eq_some_iff.mp hw
  rcases h.getStateObject (h.known hacct) with
    ⟨s1, -, -, hnone⟩ | ⟨o, s1, hget, hr, ho, hdel, hsome⟩
  · cases hnone.symm.trans hacct
  · cases hsome.symm.trans hacct
    have hok := hr.objects.obj ho
    rw [hr.db] at hok
    obtain ⟨hok', hdel', hacct'⟩ := hf hok
    rw [← hr.db] at hok'
    obtain ⟨hput, haccount, -⟩ := hr.objects.put hok' (hdel'.trans hdel)
    refine ⟨_, by simp [StateDB.changeObject, hget], hr.toWithin.trans hput, ?_, ?_, ?_⟩
    · rw [StateDB.ledger, haccount, hr.db, hacct', hr.account, hr.rest]
      rfl
    · rw [hr.rest]
      rfl
    · rw [hr.rest]
      exact ⟨rfl, rfl, rfl, rfl, rfl⟩

theorem Objects.uncreate (h : Objects L s) (hstored : s.stored L addr = none) : Reverts L s { s with
      stateObjects := update s.stateObjects addr none
      stateObjectsDirty := update s.stateObjectsDirty addr false }
      ((s.ledger L).set addr none) := by
  have hself : update s.stateObjects addr none addr = none := update_self ..
  have hother : ∀ {a}, a ≠ addr → update s.stateObjects addr none a = s.stateObjects a :=
    fun ha => update_of_ne ha ..
  have hmarks : ∀ {a}, s.stored L a ≠ none →
      update s.stateObjectsDirty addr false a = s.stateObjectsDirty a := by
    intro a hne
    have ha : a ≠ addr := fun ha => hne (ha ▸ hstored)
    exact update_of_ne ha ..
  -- an object that is left is that of another account
  have hne : ∀ {a o}, update s.stateObjects addr none a = some o →
      a ≠ addr ∧ s.stateObjects a = some o := by
    intro a o ho
    have ha : a ≠ addr := by
      rintro rfl
      exact absurd (hself.symm.trans ho) nofun
    exact ⟨ha, (hother ha).symm.trans ho⟩
  refine ⟨⟨rfl, rfl, ⟨h.trie, fun ho => h.obj (hne ho).2, fun {a} hd => ?_, fun {a} hd ho => ?_,
    fun {a o} ho hdel => h.gone (hne ho).2 hdel⟩, fun {a} hlive => ?_, fun ho _ => (hne ho).2,
      hmarks⟩,
    ?_, rfl,
    ⟨rfl, rfl, rfl, rfl, rfl⟩⟩
  · by_cases ha : a = addr
    · have hnone : s.stored L a = none := ha ▸ hstored
      intro enc henc
      exact absurd (hnone.symm.trans henc) nofun
    · exact h.clean ((update_of_ne ha ..).symm.trans hd)
  · by_cases ha : a = addr
    · exact ha ▸ hstored
    · exact h.fresh ((update_of_ne ha ..).symm.trans hd) ((hother ha).symm.trans ho)
  · by_cases ha : a = addr
    · exact .inr ⟨ha ▸ hself, ha ▸ hstored⟩
    · simp only [Live, hother ha]
      exact hlive
  · have hacct : StateDB.account L { s with
        stateObjects := update s.stateObjects addr none
        stateObjectsDirty := update s.stateObjectsDirty addr false } =
        update (s.account L) addr none := by
      funext a
      by_cases ha : a = addr
      · subst ha
        rw [update_self, account_of_absent hself]
        exact congrArg (loaded L s.db a) hstored
      · rw [update_of_ne ha]
        simp only [account, hother ha]
        rfl
    rw [StateDB.ledger, hacct]
    rfl

theorem Objects.revertEntry (h : Objects L s) {w : Ledger}
    (he : EntryOk L s.db (s.stored L) e) (hw : undo L s.db (s.ledger L) e = some w) :
    ∃ s', s.revertEntry e = some s' ∧ Reverts L s s' w := by
  cases e with
  | createObjectChange account =>
    cases hw
    exact ⟨_, rfl, h.uncreate he⟩
  | resetObjectChange prev =>
    cases hw
    obtain ⟨hput, hacct, -⟩ := h.put he.1 he.2
    refine ⟨_, rfl, hput, ?_, rfl, ⟨rfl, rfl, rfl, rfl, rfl⟩⟩
    rw [StateDB.ledger, hacct]
    rfl
  | suicideChange account prev prevbalance =>
    obtain ⟨s', hs', hr⟩ := h.changeObject
      (f := fun o => { o with suicided := prev }.setBalance prevbalance)
      (fun hok => ⟨(hok.setSuicided prev).setBalance prevbalance, rfl, rfl⟩) hw
    refine ⟨s', ?_, hr⟩
    rw [StateDB.changeObject] at hs'
    rw [StateDB.revertEntry]
    split at hs'
    · exact hs'
    · cases hs'
  | balanceChange account prev =>
    exact h.changeObject (fun hok => ⟨hok.setBalance prev, rfl, rfl⟩) hw
  | nonceChange account prev =>
    exact h.changeObject (fun hok => ⟨hok.setNonce prev, rfl, rfl⟩) hw
  | storageChange account key prevalue =>
    exact h.changeObject
      (fun hok => ⟨hok.setState he prevalue, rfl, StateObject.acct_setState key prevalue⟩) hw
  | codeChange account prevcode prevhash =>
    have hcode : CodeOk s.db account prevcode prevhash := he
    have hval := hcode.val_bytesToHash
    exact h.changeObject (fun hok => ⟨hok.setCode (by rw [hval]; exact hcode), rfl, by
      rw [StateObject.acct_setCode, hval, hok.address]⟩) hw
  | refundChange prev =>
    cases hw
    exact ⟨_, rfl, h.within rfl, rfl, rfl, ⟨rfl, rfl, rfl, rfl, rfl⟩⟩
  | addLogChange txhash =>
    rw [undo] at hw
    split at hw
    · cases hw
    · next hne =>
      cases hw
      have hlogs : s.logs txhash ≠ [] := hne
      refine ⟨{ s with
          logs := update s.logs txhash (s.logs txhash).dropLast
          logSize := s.logSize - 1 }, ?_,
        ⟨h.within rfl, rfl, rfl, ⟨rfl, rfl, rfl, rfl, rfl⟩⟩⟩
      simp [StateDB.revertEntry]
  | addPreimageChange hash =>
    cases hw
    exact ⟨_, rfl, h.within rfl, rfl, rfl, ⟨rfl, rfl, rfl, rfl, rfl⟩⟩
  | touchChange account =>
    cases hw
    exact ⟨s, rfl, h.refl, rfl, rfl, ⟨rfl, rfl, rfl, rfl, rfl⟩⟩

end StateDB

end Geth.State
