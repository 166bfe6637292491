import Geth.State.Verify.Finalise

/-!
# Committing a state

`Commit` settles the accounts that are marked in `stateObjectsDirty` or have destroyed themselves,
writes their storage and code into the database, and then the account trie. The database grows, so
that what was there can still be loaded; the accounts of other objects do not change.
-/

namespace Geth.State

open Lib Function List Option

namespace StateDB

variable {B : Backend} {L : Lawful B} {d : Bool} {s s' : StateDB B} {addr : Address}
  {o : StateObject B}

/-- The deleted objects are of accounts that the flag `d` deletes. -/
def Dying (L : Lawful B) (d : Bool) (s : StateDB B) : Prop :=
  ∀ {a u}, s.stateObjects a = some u → u.deleted = true → (u.acct L s.db).dies B.keccak d = true

/-- `Commit` settles the account of this address. -/
def commits (s : StateDB B) (addr : Address) : Bool :=
  match s.stateObjects addr with
  | some o => s.stateObjectsDirty addr || o.suicided
  | none => false

/-! ## Growing databases -/

section Grow

variable {db' : B.Db}

theorem Objects.grow (h : Objects L s) (hle : L.Le s.db db') : Objects L { s with db := db' } := by
  refine ⟨L.le_ok hle h.trie, fun ho => (h.obj ho).mono hle, fun hd => ?_, h.fresh, h.gone⟩
  exact ((h.clean hd).mono hle).1

theorem Objects.account_grow (h : Objects L s) (hle : L.Le s.db db') :
    StateDB.account L { s with db := db' } = s.account L := by
  funext a
  cases ho : s.stateObjects a with
  | some o =>
    simp [account, ho, (h.obj ho).acct_mono hle]
  | none =>
    simp only [account, ho]
    exact ((h.valid ho).mono hle).2

theorem Objects.dying_grow (h : Objects L s) (hle : L.Le s.db db') (hd : Dying L d s) :
    Dying L d { s with db := db' } := by
  intro a u hu hdel
  have := hd hu hdel
  rwa [← (h.obj hu).acct_mono hle] at this

end Grow

/-! ## One account -/

/-- One round of the loop of `Commit` has been done. -/
structure Persists (L : Lawful B) (d : Bool) (s s' : StateDB B) (addr : Address) : Prop where
  le : L.Le s.db s'.db
  objects : Objects L s'
  dying : Dying L d s'
  content : L.content .accounts s'.trie = Function.update (L.content .accounts s.trie) addr.val
    (if s.commits addr then L.written d (s.account L addr) else s.stored L addr)
  account : s'.account L = Function.update (s.account L) addr
    (if s.commits addr then Acct.survivor B.keccak d (s.account L addr) else s.account L addr)
  loaded : s.commits addr = true → State.loaded L s'.db addr (s'.stored L addr) = s'.account L addr
  rest : s' = { s with
    db := s'.db
    trie := s'.trie
    stateObjects := Function.update s.stateObjects addr (s'.stateObjects addr)
    stateObjectsDirty := Function.update s.stateObjectsDirty addr false }

theorem Objects.persistClean (h : Objects L s) (hdy : Dying L d s)
    (hc : s.commits addr = false) (hd : s.stateObjectsDirty addr = false) :
    Persists L d s { s with
      stateObjectsDirty := update s.stateObjectsDirty addr false } addr := by
  have hsame : update s.stateObjectsDirty addr false = s.stateObjectsDirty :=
    update_eq_self_iff.mpr hd.symm
  have hself : { s with stateObjectsDirty := update s.stateObjectsDirty addr false } = s := by
    rw [hsame]
  rw [hself]
  refine ⟨L.le_refl _, h, hdy, ?_, ?_, fun hc' => absurd (hc.symm.trans hc') nofun, ?_⟩
  · rw [hc, if_neg Bool.false_ne_true]
    exact (update_eq_self ..).symm
  · rw [hc, if_neg Bool.false_ne_true, update_eq_self]
  · rw [hsame, update_eq_self]

theorem Objects.persistDeleted (h : Objects L s) (hdy : Dying L d s)
    (ho : s.stateObjects addr = some o) (hc : s.commits addr = true)
    (hd : (o.acct L s.db).dies B.keccak d = true) :
    Persists L d s { s.deleteStateObject o with
      stateObjectsDirty := update (s.deleteStateObject o).stateObjectsDirty addr false }
      addr := by
  have hok := h.obj ho
  obtain ⟨rfl⟩ := hok.address
  obtain ⟨t, hdelete, ht, hcontent⟩ := h.deleteStateObject hok.known
  have hself : { s.deleteStateObject o with
      stateObjectsDirty := update (s.deleteStateObject o).stateObjectsDirty o.address
        false } = s.write { o with deleted := true } t false := by
    rw [hdelete]
    rfl
  rw [hself]
  have hwritten : L.written d (s.account L o.address) = none ∧
      Acct.survivor B.keccak d (s.account L o.address) = none := by
    cases hdel : o.deleted with
    | true => simp [account_of_deleted ho hdel, Lawful.written, Acct.survivor]
    | false => simp [account_of_live ho hdel, Lawful.written, Acct.survivor, Option.filter, hd]
  have haccount := account_write (o := { o with deleted := true }) false hcontent
  refine ⟨L.le_refl _, ?_, ?_, ?_, ?_, fun _ => ?_, ?_⟩
  · exact h.write (o := { o with deleted := true }) _ hcontent (hok.setDeleted true) ht
      (fun _ => rfl) (fun _ => valid_none)
  · intro a u hu hdel
    by_cases ha : a = o.address
    · subst ha
      have hu' : update s.stateObjects o.address
        (some { o with deleted := true }) o.address = some u := hu
      rw [update_self] at hu'
      cases hu'
      exact hd
    · exact hdy ((update_of_ne ha ..).symm.trans hu) hdel
  · rw [hc, if_pos rfl, hwritten.1]
    exact hcontent
  · rw [hc, if_pos rfl, hwritten.2, haccount]
    rfl
  · have hnone : (s.write { o with deleted := true } t false).stored L o.address = none :=
      (congrFun hcontent o.address.val).trans (update_self ..)
    rw [hnone, haccount, loaded_none, update_self]
    rfl
  · simp [StateDB.write]

theorem Objects.commitCode (h : Objects L s) (ho : s.stateObjects addr = some o) : ∃ o1 s1,
    s.commitCode o = (o1, s1) ∧
    (∀ (db2 : B.Db) (o2 : StateObject B), o2.address = addr →
      { s1 with db := db2 }.setStateObject o2 = { s with db := db2 }.setStateObject o2) ∧
    (¬ L.Collided s1.db → L.Le s.db s1.db ∧ ObjOk L s1.db addr o1 ∧ CodeSaved s1.db addr o1 ∧
      o1.acct L s1.db = o.acct L s.db ∧ o1.deleted = o.deleted ∧
      o1.dirtyStorage = o.dirtyStorage) := by
  have hok := h.obj ho
  have hkeep : (o.code = none ∨ o.dirtyCode = false) → s.commitCode o = (o, s) := by
    intro hcode
    rcases hcode with hcode | hcode
    · simp [StateDB.commitCode, hcode]
    · simp [StateDB.commitCode, hcode]
  by_cases hcode : o.code = none ∨ o.dirtyCode = false
  · exact ⟨o, s, hkeep hcode, fun _ _ _ => rfl, fun _ =>
      ⟨L.le_refl _, hok, hok.codeSaved hcode, rfl, rfl, rfl⟩⟩
  · obtain ⟨hne, hdirty⟩ := not_or.mp hcode
    obtain ⟨code, hsome⟩ := ne_none_iff_exists'.mp hne
    have hself : s.commitCode o = ({ o with dirtyCode := false },
        { s with db := B.insertBlob s.db (bytesToHash o.data.codeHash) code }.setStateObject
          { o with dirtyCode := false }) := by
      simp [StateDB.commitCode, hsome, hdirty]
    refine ⟨_, _, hself, fun db2 o2 haddr => ?_, fun hnc => ?_⟩
    · have : o2.address = o.address := haddr.trans hok.address.symm
      simp [setStateObject, this]
    · obtain ⟨hle, hok1, hsaved⟩ := hok.insertCode hsome hnc
      have hacct := hok.acct_mono hle
      exact ⟨hle, hok1, hsaved, hacct, rfl, rfl⟩

theorem Objects.persistFlushed (h : Objects L s) (hdy : Dying L d s)
    (ho : s.stateObjects addr = some o) (hdel : o.deleted = false) (hc : s.commits addr = true)
    (hd : (o.acct L s.db).dies B.keccak d = false) {o2 : StateObject B} {db2 : B.Db}
    (hco : Committed L s.db db2 addr o o2) {s3 : StateDB B}
    (hs3 : ({ s with db := db2 }.setStateObject o2).updateStateObject o2 = some s3) :
    Persists L d s { s3 with
      stateObjectsDirty := update s3.stateObjectsDirty addr false } addr := by
  have hgrow := h.grow hco.le
  obtain ⟨rfl⟩ := hco.ok.address
  have hacct : s.account L o2.address = some (o.acct L s.db) := account_of_live ho hdel
  rcases hgrow.updateStateObject hco.ok.known with ⟨-, hnone⟩ | ⟨enc, t, henc, hsome, ht, hcontent⟩
  · cases hnone.symm.trans hs3
  · cases hsome.symm.trans hs3
    have henc' : L.encodeAcct (o.acct L s.db) = some enc := hco.encode.symm.trans henc
    have hdel2 : o2.deleted = false := hco.deleted.trans hdel
    have hself : { ({ s with
          db := db2
          trie := t
          stateObjects := update s.stateObjects o2.address (some o2) } : StateDB B) with
        stateObjectsDirty := update s.stateObjectsDirty o2.address false } =
        StateDB.write { s with db := db2 } o2 t false := rfl
    rw [hself]
    have haccount : StateDB.account L (StateDB.write { s with db := db2 } o2 t false) =
        update (s.account L) o2.address (some (o.acct L s.db)) := by
      rw [account_write false hcontent, h.account_grow hco.le, hdel2, if_neg Bool.false_ne_true,
        ← hco.acct]
    refine ⟨hco.le, ?_, ?_, ?_, ?_, fun _ => ?_, ?_⟩
    · exact hgrow.write _ hcontent hco.ok ht (fun hd' => absurd (hdel2.symm.trans hd') nofun)
        (fun _ => hco.valid henc)
    · intro a u hu hu'
      by_cases ha : a = o2.address
      · subst ha
        have hu2 : update s.stateObjects o2.address (some o2) o2.address = some u := hu
        rw [update_self] at hu2
        cases hu2
        exact absurd (hdel2.symm.trans hu') nofun
      · exact h.dying_grow hco.le hdy ((update_of_ne ha ..).symm.trans hu) hu'
    · rw [hc, if_pos rfl, hacct]
      simp only [Lawful.written, bind_some, hd, Bool.false_eq_true, if_false, henc']
      exact hcontent
    · rw [hc, if_pos rfl, hacct, haccount]
      simp [Acct.survivor, Option.filter, hd]
    · have hstored : StateDB.stored L (StateDB.write { s with db := db2 } o2 t false) o2.address =
          some enc := (congrFun hcontent o2.address.val).trans (update_self ..)
      have hload := hco.loaded
      have hsui : (o.acct L s.db).suicided = false := (Bool.or_eq_false_iff.mp hd).1
      rw [← hsui] at hload
      rw [hstored, haccount, update_self, State.loaded, bind_some,
        Account.decode_encode henc, map_some]
      exact congrArg some hload
    · simp [StateDB.write]

theorem collided_commitTrie {db : B.Db} (h : L.Collided db) (o : StateObject B)
    (order : List Hash) : L.Collided (o.commitTrie db order).2.2 := by
  simp only [StateObject.commitTrie]
  have hcommit := L.collided_commit ((o.updateTrie db order).getTrie db).1 h
  split
  · exact h
  · split
    · next heq =>
      rw [heq] at hcommit
      exact hcommit
    · next heq =>
      rw [heq] at hcommit
      exact hcommit

theorem db_updateStateObject (h : s.updateStateObject o = some s') : s'.db = s.db := by
  simp only [StateDB.updateStateObject] at h
  split at h
  · cases h
  · cases h
    rfl

variable {order : Order} {err : Option (StateErr B)} {addrs : List Address}

theorem Objects.commitAddr (h : Objects L s) (hdy : Dying L d s) (ho : s.stateObjects addr = some o)
    (horder : Enumerates (order.storage addr) fun key => (o.dirtyStorage key).isSome)
    (hs : commitAddr d order s addr = some (err, s')) (hnc : ¬ L.Collided s'.db) :
    err = none ∧ Persists L d s s' addr := by
  have hok := h.obj ho
  have hempty := StateObject.empty_eq hok
  cases hsuicided : o.suicided with
  | true =>
    have hc : s.commits addr = true := by simp [commits, ho, hsuicided]
    have hd : (o.acct L s.db).dies B.keccak d = true := by
      simp [Acct.dies, StateObject.acct, hsuicided]
    have hself := h.persistDeleted hdy ho hc hd
    simp only [StateDB.commitAddr, ho, hsuicided, Bool.true_or, if_true, Option.some.injEq,
      Prod.mk.injEq] at hs
    obtain ⟨rfl, rfl⟩ := hs
    exact ⟨rfl, hself⟩
  | false =>
    cases hdirty : s.stateObjectsDirty addr with
    | false =>
      have hc : s.commits addr = false := by simp [commits, ho, hsuicided, hdirty]
      simp only [StateDB.commitAddr, ho, hsuicided, hdirty, Bool.false_and, Bool.or_self,
        Bool.false_eq_true, if_false, Option.some.injEq, Prod.mk.injEq] at hs
      obtain ⟨rfl, rfl⟩ := hs
      exact ⟨rfl, h.persistClean hdy hc hdirty⟩
    | true =>
      have hc : s.commits addr = true := by simp [commits, hdirty, ho]
      have hdies : (d && o.empty) = (o.acct L s.db).dies B.keccak d := by
        rw [hempty]
        simp [Acct.dies, StateObject.acct, hsuicided]
      cases hd : (o.acct L s.db).dies B.keccak d with
      | true =>
        rw [hd] at hdies
        have hself := h.persistDeleted hdy ho hc hd
        simp only [StateDB.commitAddr, ho, hsuicided, hdirty, Bool.true_and, hdies, Bool.or_true,
          if_true, Option.some.injEq, Prod.mk.injEq] at hs
        obtain ⟨rfl, rfl⟩ := hs
        exact ⟨rfl, hself⟩
      | false =>
        rw [hd] at hdies
        have hdel : o.deleted = false := by
          by_contra hdel
          have := hdy ho (Bool.not_eq_false _ ▸ hdel)
          rw [hd] at this
          cases this
        obtain ⟨o1, s1, hcode, hset, hgood1⟩ := h.commitCode ho
        have hcol2 : L.Collided s1.db → L.Collided (o1.commitTrie s1.db (order.storage addr)).2.2 :=
          fun hcol => collided_commitTrie hcol o1 _
        -- without a collision the commit of the storage succeeds
        have hgood2 : ¬ L.Collided (o1.commitTrie s1.db (order.storage addr)).2.2 →
            (o1.commitTrie s1.db (order.storage addr)).1 = none ∧
            Committed L s.db (o1.commitTrie s1.db (order.storage addr)).2.2 addr o
              (o1.commitTrie s1.db (order.storage addr)).2.1 := by
          intro hnc
          obtain ⟨hle, hok1, hsaved, hacct, hdel1, hdirty1⟩ := hgood1 (mt hcol2 hnc)
          rw [← hdirty1] at horder
          obtain ⟨o2, db2, hcommit, -, hgood⟩ := hok1.commitTrie hsaved horder
          rw [hcommit] at hnc ⊢
          have hco := hgood hnc
          exact ⟨rfl, L.le_trans hle hco.le, hco.ok, hco.acct.trans hacct,
            hco.deleted.trans hdel1, hacct ▸ hco.encode, hco.stored, hacct ▸ hco.loaded⟩
        rcases htrie : o1.commitTrie s1.db (order.storage addr) with ⟨err', o2, db2⟩
        rw [htrie] at hgood2
        simp only [StateDB.commitAddr, ho, hsuicided, hdirty, Bool.true_and, hdies, Bool.or_self,
          Bool.false_eq_true, if_false, if_true, hcode, htrie] at hs
        cases err' with
        | some e =>
          cases hs
          cases (hgood2 hnc).1
        | none =>
          simp only at hs
          split at hs
          · cases hs
          · next s3 hs3 =>
            cases hs
            have hdb : s3.db = db2 := db_updateStateObject hs3
            have hco := (hgood2 (hdb ▸ hnc)).2
            rw [hset db2 o2 hco.ok.address] at hs3
            exact ⟨rfl, h.persistFlushed hdy ho hdel hc hd hco hs3⟩

theorem collided_commitAddr (hs : commitAddr d order s addr = some (err, s')) (h : L.Collided s.db)
    :
    L.Collided s'.db := by
  simp only [StateDB.commitAddr] at hs
  split at hs
  · cases hs
    exact h
  · next o ho =>
    split at hs
    · cases hs
      exact h
    · split at hs
      · have hcode : L.Collided (s.commitCode o).2.db := by
          simp only [StateDB.commitCode]
          split
          · exact L.collided_insertBlob _ _ h
          · exact h
        have htrie := collided_commitTrie hcode (s.commitCode o).1 (order.storage addr)
        split at hs
        · cases hs
          exact htrie
        · split at hs
          · cases hs
          · next s3 hs3 =>
            cases hs
            exact (congrArg L.Collided (db_updateStateObject hs3)).mpr htrie
      · cases hs
        exact h

theorem collided_commitLoop (hs : commitLoop d order s addrs = some (err, s')) (h : L.Collided s.db)
    :
    L.Collided s'.db := by
  induction addrs generalizing s with
  | nil =>
    cases hs
    exact h
  | cons addr addrs ih =>
    simp only [StateDB.commitLoop] at hs
    split at hs
    · cases hs
    · next hstep =>
      cases hs
      exact collided_commitAddr hstep h
    · next hstep => exact ih hs (collided_commitAddr hstep h)

/-- The loop of `Commit` has been done for the accounts `addrs`. -/
structure Persisted (L : Lawful B) (d : Bool) (s s' : StateDB B) (addrs : List Address) :
    Prop where
  le : L.Le s.db s'.db
  objects : Objects L s'
  dying : Dying L d s'
  content : L.content .accounts s'.trie = overlay (L.content .accounts s.trie)
    (fun a => decide (a ∈ addrs) && s.commits a) fun a => L.written d (s.account L a)
  account : ∀ a, s'.account L a = if (decide (a ∈ addrs) && s.commits a) = true
    then Acct.survivor B.keccak d (s.account L a) else s.account L a
  loaded : ∀ a ∈ addrs, s.commits a = true → State.loaded L s'.db a (s'.stored L a) = s'.account L a
  others : ∀ a, a ∉ addrs → s'.stateObjects a = s.stateObjects a
  marks : ∀ a, s'.stateObjectsDirty a = if a ∈ addrs then false else s.stateObjectsDirty a
  rest : s' = { s with
    db := s'.db
    trie := s'.trie
    stateObjects := s'.stateObjects
    stateObjectsDirty := s'.stateObjectsDirty }

theorem Persists.cons {s1 : StateDB B} (h : Persists L d s s1 addr) (h' : Persisted L d s1 s' addrs)
    (haddr : addr ∉ addrs) :
    Persisted L d s s' (addr :: addrs) := by
  obtain ⟨hmem, hnot, hother⟩ := decide_mem_cons haddr
  have hacct : ∀ a, a ≠ addr → s1.account L a = s.account L a := by
    intro a ha
    rw [h.account, update_of_ne ha]
  have hcommits : ∀ a, a ≠ addr → s1.commits a = s.commits a := by
    intro a ha
    rw [h.rest]
    simp [commits, update_of_ne ha]
  have htouched : ∀ a, a ≠ addr → (decide (a ∈ addrs) && s1.commits a) =
      (decide (a ∈ addr :: addrs) && s.commits a) := by
    intro a ha
    rw [hcommits a ha, hother a ha]
  have hself : (decide (addr ∈ addrs) && s1.commits addr) = false := by
    rw [hnot, Bool.false_and]
  have hself' : (decide (addr ∈ addr :: addrs) && s.commits addr) = s.commits addr := by
    rw [hmem, Bool.true_and]
  refine ⟨L.le_trans h.le h'.le, h'.objects, h'.dying, ?_, fun a => ?_, fun a ha hc => ?_,
    fun a ha => ?_, fun a => ?_, ?_⟩
  · rw [h'.content, h.content]
    cases hc : s.commits addr with
    | true =>
      rw [if_pos rfl]
      apply overlay_update (hself'.trans hc) hself
      intro a ha
      refine ⟨htouched a ha, fun _ => ?_⟩
      rw [hacct a ha]
    | false =>
      have hsame : update (L.content .accounts s.trie) addr.val (s.stored L addr) =
          L.content .accounts s.trie := update_eq_self ..
      rw [if_neg Bool.false_ne_true, hsame]
      apply overlay_congr
      intro a
      by_cases ha : a = addr
      · subst ha
        rw [hself, hself', hc]
        exact ⟨rfl, nofun⟩
      · refine ⟨htouched a ha, fun _ => ?_⟩
        rw [hacct a ha]
  · rw [h'.account]
    by_cases ha : a = addr
    · subst ha
      rw [hself, hself', if_neg Bool.false_ne_true, h.account, update_self]
    · rw [htouched a ha, hacct a ha]
  · rcases mem_cons.mp ha with rfl | ha
    · -- what has been written stays loadable
      have hstored : s'.stored L a = s1.stored L a := by
        rw [StateDB.stored, h'.content, overlay_val, hself, if_neg Bool.false_ne_true]
        rfl
      have hvalid : Valid L s1.db a (s1.stored L a) := by
        apply h.objects.clean
        rw [h.rest]
        exact update_self ..
      rw [hstored, (hvalid.mono h'.le).2, h.loaded hc, h'.account, hself, if_neg Bool.false_ne_true]
    · have hne : a ≠ addr := fun he => haddr (he ▸ ha)
      exact h'.loaded a ha ((hcommits a hne).trans hc)
  · obtain ⟨hne, hnot'⟩ := not_or.mp (mt mem_cons.mpr ha)
    rw [h'.others a hnot', h.rest]
    exact update_of_ne hne ..
  · rw [h'.marks]
    by_cases ha : a = addr
    · subst ha
      rw [if_neg haddr, if_pos mem_cons_self, h.rest]
      exact update_self ..
    · simp only [mem_cons, ha, false_or]
      split
      · rfl
      · rw [h.rest]
        exact update_of_ne ha ..
  · rw [h'.rest, h.rest]

theorem Objects.commitLoop (h : Objects L s) (hdy : Dying L d s) (hnodup : addrs.Nodup)
    (horder : ∀ a ∈ addrs, ∃ o, s.stateObjects a = some o ∧
      Enumerates (order.storage a) fun key => (o.dirtyStorage key).isSome)
    (hs : commitLoop d order s addrs = some (err, s')) (hnc : ¬ L.Collided s'.db) :
    err = none ∧ Persisted L d s s' addrs := by
  induction addrs generalizing s with
  | nil =>
    cases hs
    refine ⟨rfl, L.le_refl _, h, hdy, ?_, fun a => ?_, nofun, fun a _ => rfl, fun a => ?_, rfl⟩
    · simp only [not_mem_nil, decide_false, Bool.false_and]
      exact (overlay_false ..).symm
    · simp
    · simp
  | cons addr addrs ih =>
    obtain ⟨haddr, hnodup⟩ := nodup_cons.mp hnodup
    obtain ⟨o, ho, hstorage⟩ := horder addr mem_cons_self
    simp only [StateDB.commitLoop] at hs
    split at hs
    · cases hs
    · next hstep =>
      cases hs
      cases (h.commitAddr hdy ho hstorage hstep hnc).1
    · next s1 hstep =>
      have hnc1 : ¬ L.Collided s1.db := mt (collided_commitLoop hs) hnc
      obtain ⟨-, hper⟩ := h.commitAddr hdy ho hstorage hstep hnc1
      have horder1 : ∀ a ∈ addrs, ∃ o, s1.stateObjects a = some o ∧
          Enumerates (order.storage a) fun key => (o.dirtyStorage key).isSome := by
        intro a ha
        obtain ⟨u, hu, hstorage⟩ := horder a (mem_cons_of_mem _ ha)
        have hne : a ≠ addr := fun he => haddr (he ▸ ha)
        refine ⟨u, ?_, hstorage⟩
        rw [hper.rest]
        exact (update_of_ne hne ..).trans hu
      obtain ⟨herr, hrest⟩ := ih hper.objects hper.dying hnodup horder1 hs
      exact ⟨herr, hper.cons hrest haddr⟩

/-! ## Commit -/

theorem Objects.mergeDirties (h : Objects L s)
    (hlive : ∀ {a}, 0 < s.journal.dirties a → s.Live L a) : Objects L s.mergeDirties := by
  refine ⟨h.trie, h.obj, fun {a} hd => ?_, fun {a} hd ho => ?_, h.gone⟩
  · exact h.clean (Bool.or_eq_false_iff.mp hd).1
  · rcases Bool.or_eq_true_iff.mp hd with hd | hd
    · exact h.fresh hd ho
    · rcases hlive (of_decide_eq_true hd) with ⟨o, hsome, -⟩ | ⟨-, hst⟩
      · cases hsome.symm.trans ho
      · exact hst

/-- The account trie after a commit. -/
def committed (L : Lawful B) (d : Bool) (s : StateDB B) : Content :=
  overlay (L.content .accounts s.trie) s.mergeDirties.commits fun a => L.written d (s.account L a)

/-- What `Commit` leaves behind. -/
structure Commits (L : Lawful B) (d : Bool) (s s' : StateDB B) : Prop where
  le : L.Le s.db s'.db
  objects : Objects L s'
  dying : Dying L d s'
  content : L.content .accounts s'.trie = committed L d s
  opens : ∃ u, B.openTrie s'.db (L.root .accounts (committed L d s)) = .ok u ∧
    L.content .accounts u = committed L d s ∧ L.Ok .accounts s'.db u
  account : ∀ a, s'.account L a = if s.mergeDirties.commits a = true
    then Acct.survivor B.keccak d (s.account L a) else s.account L a
  loaded : ∀ a, s.mergeDirties.commits a = true →
    State.loaded L s'.db a (s'.stored L a) = s'.account L a
  marks : ∀ {a}, s'.stateObjectsDirty a = true → s'.stateObjects a = none
  valid : ∀ a, Valid L s'.db a (s'.stored L a)
  rest : s' = StateDB.clearJournalAndRefund { s with
    db := s'.db
    trie := s'.trie
    stateObjects := s'.stateObjects
    stateObjectsDirty := s'.stateObjectsDirty }

theorem Objects.commit (h : Objects L s) (hlive : ∀ {a}, 0 < s.journal.dirties a → s.Live L a)
    (hdy : Dying L d s) (horder : s.CoversObjects order) {r : Except (StateErr B) Hash}
    (hs : s.commit d order = some (r, s')) (hnc : ¬ L.Collided s'.db) :
    r = .ok (L.root .accounts (committed L d s)) ∧ Commits L d s s' := by
  obtain ⟨⟨hnodup, hmem⟩, hstorage⟩ := horder
  have hobj := h.mergeDirties hlive
  have horder : ∀ a ∈ order.accounts, ∃ o, s.mergeDirties.stateObjects a = some o ∧
      Enumerates (order.storage a) fun key => (o.dirtyStorage key).isSome := by
    intro a ha
    obtain ⟨o, ho⟩ := isSome_iff_exists.mp ((hmem a).mp ha)
    exact ⟨o, ho, hstorage a o ho⟩
  -- the loop runs over all objects
  have hall : ∀ a, (decide (a ∈ order.accounts) && s.mergeDirties.commits a) =
      s.mergeDirties.commits a := by
    intro a
    cases ho : s.stateObjects a with
    | none =>
      have : s.mergeDirties.commits a = false := by simp [commits, StateDB.mergeDirties, ho]
      rw [this, Bool.and_false]
    | some o =>
      have : a ∈ order.accounts := (hmem a).mpr (isSome_iff_exists.mpr ⟨o, ho⟩)
      rw [decide_eq_true this, Bool.true_and]
  rw [StateDB.commit] at hs
  split at hs
  · cases hs
  · next err s1 hloop =>
    cases hs
    have := (hobj.commitLoop hdy hnodup horder hloop hnc).1
    cases this
  · next s1 hloop =>
    have hcol := fun hcol => L.collided_commit (d := s1.db) s1.trie hcol
    rcases hb : B.commit s1.db s1.trie with ⟨root, t, db⟩
    rw [hb] at hs hcol
    cases hs
    obtain ⟨-, hper⟩ := hobj.commitLoop hdy hnodup horder hloop (mt hcol hnc)
    obtain ⟨t', db', hcommit, hcontent, hgood⟩ := L.commit_eq hper.objects.trie
    cases hb.symm.trans hcommit
    have hroot : L.content .accounts s1.trie = committed L d s := by
      rw [hper.content, committed]
      apply overlay_congr
      exact fun a => ⟨hall a, fun _ => rfl⟩
    obtain ⟨hle, hok, hopen, -⟩ := hgood hnc
    have hgrow := hper.objects.grow hle
    have hread := hgrow.withTrie hok hcontent
    have hacct := hread.account.trans (hper.objects.account_grow hle)
    refine ⟨by rw [hroot]; rfl, L.le_trans hper.le hle, hread.objects.clear, ?_, ?_, ?_,
      fun a => ?_, fun a hc => ?_, fun {a} hmark => ?_, fun a => ?_, ?_⟩
    · exact hper.objects.dying_grow hle hper.dying
    · exact hcontent.trans hroot
    · rw [← hroot]
      exact hopen
    · have hself : StateDB.account L (StateDB.clearJournalAndRefund
          { s1 with trie := t, db := db }) a = s1.account L a := congrFun hacct a
      rw [hself, hper.account, hall]
      rfl
    · have ha : a ∈ order.accounts := by
        by_contra ha
        rw [← hall, decide_eq_false ha] at hc
        cases hc
      have hvalid : Valid L s1.db a (s1.stored L a) := by
        apply hper.objects.clean
        rw [hper.marks, if_pos ha]
      have hstored : StateDB.stored L (StateDB.clearJournalAndRefund
          { s1 with trie := t, db := db }) a = s1.stored L a := congrFun hcontent a.val
      have hself : StateDB.account L (StateDB.clearJournalAndRefund
          { s1 with trie := t, db := db }) a = s1.account L a := congrFun hacct a
      rw [hstored, hself, ← hper.loaded a ha hc]
      exact (hvalid.mono hle).2
    · have hmark' : s1.stateObjectsDirty a = true := hmark
      have ha : a ∉ order.accounts := by
        intro ha
        rw [hper.marks, if_pos ha] at hmark'
        cases hmark'
      exact (hper.others a ha).trans (not_isSome_iff_eq_none.mp (mt (hmem a).mpr ha))
    · have hvalid : Valid L s1.db a (s1.stored L a) := by
        by_cases ha : a ∈ order.accounts
        · apply hper.objects.clean
          rw [hper.marks, if_pos ha]
        · apply hper.objects.valid
          rw [hper.others a ha]
          have hnone := mt (hmem a).mpr ha
          exact not_isSome_iff_eq_none.mp hnone
      have hstored : StateDB.stored L (StateDB.clearJournalAndRefund
          { s1 with trie := t, db := db }) a = s1.stored L a := congrFun hcontent a.val
      rw [hstored]
      exact (hvalid.mono hle).1
    · rw [hper.rest]
      rfl

end StateDB

end Geth.State
