import Geth.State.Run
import Geth.State.Verify.Codec

/-!
# What `Commit` does over any backend

Nothing is assumed here about tries and databases. A round of the loop of `Commit` leaves the other
accounts alone; the loop panics only at an account without an encoding, and it gets to its end only
past accounts without an error.
-/

namespace Geth.State

open Lib Rlp Function List Option

/-! ## Encodings -/

theorem length_encodeStr_hash (h : Hash) : (encodeStr h.val).length = 33 := by
  have hlen := h.property
  rw [encodeStr.eq_2 _ fun x hx => by simp [hx] at hlen]
  simp [header, hlen]

theorem Account.isSome_encode_root (a : Account) (root : Hash) :
    (Account.encode { a with root := root }).isSome = a.encode.isSome := by
  have hlen : (Account.item { a with root := root }).encode.length = a.item.encode.length := by
    simp [Account.item, Item.encode_list, Item.encode_str, length_encodeStr_hash]
  rw [Account.encode, Account.encode, hlen]
  split <;> rfl

variable {B : Backend}

/-! ## Objects -/

namespace StateObject

variable (o : StateObject B) (db : B.Db)

theorem getTrie_frame : ∃ t e,
    o.getTrie db = (t, { o with trie := some t, dbErr := o.dbErr.or e }) := by
  rw [getTrie]
  split
  · next t ht => exact ⟨t, none, by rw [or_none, ← ht]⟩
  · split
    · next t _ => exact ⟨t, none, by rw [or_none]⟩
    · next err _ => exact ⟨_, some (.storageTrie err), rfl⟩

theorem flushKey_frame (t : B.Trie) (key : Hash) : ∃ t' e dirty, o.flushKey db t key =
    { o with trie := t', dbErr := o.dbErr.or e, dirtyStorage := dirty } := by
  rw [flushKey]
  split
  · exact ⟨o.trie, none, o.dirtyStorage, by rw [or_none]⟩
  · exact ⟨_, _, _, rfl⟩

theorem foldl_flushKey_frame (order : List Hash) : ∃ t e dirty, order.foldl (fun o key =>
      let (t, o) := o.getTrie db
      o.flushKey db t key) o = { o with trie := t, dbErr := o.dbErr.or e, dirtyStorage :=
        dirty } := by
  induction order generalizing o with
  | nil => exact ⟨o.trie, none, o.dirtyStorage, by rw [or_none]; rfl⟩
  | cons key order ih =>
    obtain ⟨t1, e1, hget1⟩ := o.getTrie_frame db
    obtain ⟨t2, e2, dirty2, hflush⟩ := (o.getTrie db).2.flushKey_frame db (o.getTrie db).1 key
    obtain ⟨t3, e3, dirty3, hfold⟩ := ih ((o.getTrie db).2.flushKey db (o.getTrie db).1 key)
    refine ⟨t3, (e1.or e2).or e3, dirty3, ?_⟩
    rw [foldl_cons, hfold, hflush, hget1, ← Option.or_assoc, ← Option.or_assoc]

theorem updateTrie_frame (order : List Hash) : ∃ t e dirty, o.updateTrie db order =
    { o with trie := t, dbErr := o.dbErr.or e, dirtyStorage := dirty } := by
  obtain ⟨t, e, hget⟩ := o.getTrie_frame db
  obtain ⟨t', e', dirty, hfold⟩ := foldl_flushKey_frame (o.getTrie db).2 db order
  refine ⟨t', e.or e', dirty, ?_⟩
  rw [updateTrie, hfold, hget, ← Option.or_assoc]

theorem commitTrie_cases (order : List Hash) : ∃ err o' db',
    o.commitTrie db order = (err, o', db') ∧ o'.address = o.address ∧
      (∃ root, o'.data = { o.data with root := root }) ∧ (err = none → o.dbErr = none) := by
  obtain ⟨t1, e1, dirty, hupdate⟩ := o.updateTrie_frame db order
  obtain ⟨t2, e2, hget⟩ := (o.updateTrie db order).getTrie_frame db
  have hdata : (o.updateTrie db order).data = o.data := by rw [hupdate]
  have haddr : (o.updateTrie db order).address = o.address := by rw [hupdate]
  have herr : (o.updateTrie db order).dbErr = o.dbErr.or e1 := by rw [hupdate]
  rw [commitTrie, hget]
  cases hc : (o.updateTrie db order).dbErr.or e2 with
  | some err =>
    exact ⟨_, _, _, rfl, haddr, ⟨o.data.root, hdata⟩, nofun⟩
  | none =>
    have hnone : o.dbErr = none := by
      rw [herr] at hc
      exact (or_eq_none_iff.mp (or_eq_none_iff.mp hc).1).1
    rcases hb : B.commit db t2 with ⟨_ | root, t3, db3⟩
    · simp only [hb]
      exact ⟨_, _, _, rfl, haddr, ⟨o.data.root, hdata⟩, fun _ => hnone⟩
    · simp only [hb, hdata]
      exact ⟨_, _, _, rfl, haddr, ⟨root, rfl⟩, fun _ => hnone⟩

end StateObject

/-! ## The loop of `Commit` -/

namespace StateDB

variable {s s' : StateDB B} {d : Bool} {order : Order} {addr : Address} {o : StateObject B}

/-- Every object is kept under its address. -/
def Keyed (s : StateDB B) : Prop :=
  ∀ a o, s.stateObjects a = some o → o.address = a

/-- `Commit` writes this object. -/
def writes (d : Bool) (s : StateDB B) (addr : Address) (o : StateObject B) : Bool :=
  s.stateObjectsDirty addr && !(o.suicided || d && o.empty)

theorem Keyed.setStateObject (h : s.Keyed) (o : StateObject B) : (s.setStateObject o).Keyed := by
  intro a u hu
  by_cases ha : a = o.address
  · rw [ha] at hu ⊢
    cases (update_self ..).symm.trans hu
    rfl
  · exact h a u ((update_of_ne ha ..).symm.trans hu)

/-- The other accounts are left alone. -/
structure Frame (s s' : StateDB B) (addr : Address) : Prop where
  keyed : s'.Keyed
  objects : ∀ a, a ≠ addr → s'.stateObjects a = s.stateObjects a
  marks : ∀ a, a ≠ addr → s'.stateObjectsDirty a = s.stateObjectsDirty a

theorem Keyed.frame (h : s.Keyed) (addr : Address) : Frame s s addr :=
  ⟨h, fun _ _ => rfl, fun _ _ => rfl⟩

namespace Frame

theorem setStateObject (h : Frame s s' addr) (ho : o.address = addr) :
    Frame s (s'.setStateObject o) addr := by
  refine ⟨h.keyed.setStateObject o, fun a ha => ?_, h.marks⟩
  exact (update_of_ne (ho ▸ ha) ..).trans (h.objects a ha)

theorem unmark (h : Frame s s' addr) : Frame s { s' with
    stateObjectsDirty := update s'.stateObjectsDirty addr false } addr :=
  ⟨h.keyed, h.objects, fun a ha => (update_of_ne ha ..).trans (h.marks a ha)⟩

theorem updateStateObject {s'' : StateDB B} (h : Frame s s' addr)
    (hs : s'.updateStateObject o = some s'') : Frame s s'' addr := by
  rw [StateDB.updateStateObject] at hs
  split at hs
  · cases hs
  · cases hs
    exact ⟨h.keyed, h.objects, h.marks⟩

theorem deleteStateObject (h : Frame s s' addr) (ho : o.address = addr) :
    Frame s (s'.deleteStateObject o) addr := by
  obtain ⟨hkeyed, hobjects, hmarks⟩ :=
    h.setStateObject (o := { o with deleted := true }) ho
  exact ⟨hkeyed, hobjects, hmarks⟩

theorem commitCode (h : s.Keyed) (ho : o.address = addr) : ∃ o1 s1,
    s.commitCode o = (o1, s1) ∧ o1.address = addr ∧ o1.data = o.data ∧ o1.dbErr = o.dbErr ∧
      Frame s s1 addr := by
  rw [StateDB.commitCode]
  split
  · next code _ _ =>
    have hframe : Frame s { s with db := B.insertBlob s.db (bytesToHash o.data.codeHash) code }
        addr := ⟨h, fun _ _ => rfl, fun _ _ => rfl⟩
    exact ⟨_, _, rfl, ho, rfl, rfl, hframe.setStateObject ho⟩
  · exact ⟨_, _, rfl, ho, rfl, rfl, h.frame addr⟩

end Frame

theorem isSome_updateStateObject {s : StateDB B} {o : StateObject B} :
    (s.updateStateObject o).isSome = o.data.encode.isSome := by
  rw [StateDB.updateStateObject]
  cases o.data.encode <;> rfl

theorem Keyed.commitAddr (h : s.Keyed) (d : Bool) (order : Order)
    (ho : s.stateObjects addr = some o) :
    (commitAddr d order s addr = none → writes d s addr o = true ∧ o.data.encode = none) ∧
    (∀ err s', commitAddr d order s addr = some (err, s') → Frame s s' addr ∧
      (err = none → writes d s addr o = true → o.dbErr = none ∧ o.data.encode.isSome)) := by
  have haddr := h addr o ho
  simp only [StateDB.commitAddr, ho, writes]
  cases hdirty : s.stateObjectsDirty addr with
  | false =>
    simp only [Bool.false_and, Bool.or_false, Bool.false_eq_true, if_false]
    split
    · refine ⟨nofun, fun err s' hs => ?_⟩
      cases hs
      exact ⟨((h.frame addr).deleteStateObject haddr).unmark, fun _ => nofun⟩
    · refine ⟨nofun, fun err s' hs => ?_⟩
      cases hs
      exact ⟨(h.frame addr).unmark, fun _ => nofun⟩
  | true =>
    simp only [Bool.true_and, if_true]
    cases hdies : o.suicided || d && o.empty with
    | true =>
      refine ⟨nofun, fun err s' hs => ?_⟩
      cases hs
      exact ⟨((h.frame addr).deleteStateObject haddr).unmark, fun _ => nofun⟩
    | false =>
      obtain ⟨o1, s1, hcode, haddr1, hdata1, herr1, hframe1⟩ := Frame.commitCode h haddr
      obtain ⟨err, o2, db2, hcommit, haddr2, ⟨root, hdata2⟩, herr2⟩ :=
        o1.commitTrie_cases s1.db (order.storage addr)
      have hframe2 : Frame s { s1 with db := db2 } addr :=
        ⟨hframe1.keyed, hframe1.objects, hframe1.marks⟩
      have hframe3 := hframe2.setStateObject (haddr2.trans haddr1)
      have hencode : o2.data.encode.isSome = o.data.encode.isSome := by
        rw [hdata2, hdata1]
        exact o.data.isSome_encode_root root
      simp only [Bool.false_eq_true, if_false, hcode, hcommit]
      cases err with
      | some err =>
        refine ⟨nofun, fun err' s' hs => ?_⟩
        cases hs
        exact ⟨hframe3, nofun⟩
      | none =>
        simp only
        constructor
        · intro hs
          refine ⟨rfl, ?_⟩
          split at hs
          · next hupdate =>
            rw [← isSome_updateStateObject, hupdate] at hencode
            exact not_isSome_iff_eq_none.mp (Bool.eq_false_iff.mp hencode.symm)
          · cases hs
        · intro err s' hs
          split at hs
          · cases hs
          · next s4 hupdate =>
            cases hs
            refine ⟨(hframe3.updateStateObject hupdate).unmark, fun _ _ => ⟨?_, ?_⟩⟩
            · rw [← herr1]
              exact herr2 rfl
            · rw [← hencode, ← isSome_updateStateObject, hupdate]
              rfl

theorem Keyed.commitLoop (h : s.Keyed) (d : Bool) (order : Order) {addrs : List Address}
    (hnodup : addrs.Nodup)
    (hsome : ∀ a ∈ addrs, (s.stateObjects a).isSome) :
    (commitLoop d order s addrs = none → ∃ a ∈ addrs, ∃ o, s.stateObjects a = some o ∧
      writes d s a o = true ∧ o.data.encode = none) ∧
    (∀ err s', commitLoop d order s addrs = some (err, s') → s'.Keyed ∧
      (err = none → ∀ a ∈ addrs, ∀ o, s.stateObjects a = some o → writes d s a o = true →
        o.dbErr = none ∧ o.data.encode.isSome)) := by
  induction addrs generalizing s with
  | nil =>
    refine ⟨nofun, fun err s' hs => ?_⟩
    cases hs
    exact ⟨h, fun _ _ ha => absurd ha not_mem_nil⟩
  | cons addr addrs ih =>
    obtain ⟨haddr, hnodup⟩ := nodup_cons.mp hnodup
    obtain ⟨o, ho⟩ := isSome_iff_exists.mp (hsome addr mem_cons_self)
    obtain ⟨hnone, hok⟩ := h.commitAddr d order ho
    cases hstep : StateDB.commitAddr d order s addr with
    | none =>
      simp only [StateDB.commitLoop, hstep]
      obtain ⟨hw, henc⟩ := hnone hstep
      exact ⟨fun _ => ⟨addr, mem_cons_self, o, ho, hw, henc⟩, fun _ _ => nofun⟩
    | some r =>
      obtain ⟨err1, s1⟩ := r
      obtain ⟨hframe, herr⟩ := hok err1 s1 hstep
      cases err1 with
      | some err1 =>
        simp only [StateDB.commitLoop, hstep]
        refine ⟨nofun, fun err s' hs => ?_⟩
        cases hs
        exact ⟨hframe.keyed, nofun⟩
      | none =>
        have hne : ∀ a ∈ addrs, a ≠ addr := fun a ha he => haddr (he ▸ ha)
        have hsome1 : ∀ a ∈ addrs, (s1.stateObjects a).isSome := by
          intro a ha
          rw [hframe.objects a (hne a ha)]
          exact hsome a (mem_cons_of_mem _ ha)
        have hsame : ∀ a ∈ addrs, ∀ u, s1.stateObjects a = some u ↔ s.stateObjects a = some u :=
          fun a ha u => by rw [hframe.objects a (hne a ha)]
        have hwrites : ∀ a ∈ addrs, ∀ u, writes d s1 a u = writes d s a u :=
          fun a ha u => by rw [writes, writes, hframe.marks a (hne a ha)]
        obtain ⟨ihnone, ihok⟩ := ih hframe.keyed hnodup hsome1
        simp only [StateDB.commitLoop, hstep]
        constructor
        · intro hs
          obtain ⟨a, ha, u, hu, hw, henc⟩ := ihnone hs
          exact ⟨a, mem_cons_of_mem _ ha, u, (hsame a ha u).mp hu,
            (hwrites a ha u).symm.trans hw, henc⟩
        · intro err s' hs
          obtain ⟨hkeyed, hpassed⟩ := ihok err s' hs
          refine ⟨hkeyed, fun hnone a ha u hu hw => ?_⟩
          rcases mem_cons.mp ha with rfl | ha
          · cases ho.symm.trans hu
            exact herr rfl hw
          · exact hpassed hnone a ha u ((hsame a ha u).mpr hu) ((hwrites a ha u).trans hw)

theorem Keyed.commit_eq_none (h : s.Keyed) (horder : s.CoversObjects order)
    (hs : s.commit d order = none) : ∃ a o, s.stateObjects a = some o ∧
      writes d s.mergeDirties a o = true ∧ o.data.encode = none := by
  have hkeyed : s.mergeDirties.Keyed := h
  obtain ⟨⟨hnodup, hmem⟩, -⟩ := horder
  have hloop := (hkeyed.commitLoop d order hnodup fun a ha => (hmem a).mp ha).1
  rw [commit] at hs
  split at hs
  · next hnone =>
    obtain ⟨a, -, o, ho, hw, henc⟩ := hloop hnone
    exact ⟨a, o, ho, hw, henc⟩
  · cases hs
  · cases hs

theorem Keyed.commit_eq_ok (h : s.Keyed) (horder : s.CoversObjects order) {root : Hash}
    (hs : s.commit d order = some (.ok root, s')) (ho : s.stateObjects addr = some o)
    (hw : writes d s.mergeDirties addr o = true) : o.dbErr = none ∧ o.data.encode.isSome := by
  have hkeyed : s.mergeDirties.Keyed := h
  obtain ⟨⟨hnodup, hmem⟩, -⟩ := horder
  have hloop := (hkeyed.commitLoop d order hnodup fun a ha => (hmem a).mp ha).2
  rw [commit] at hs
  split at hs
  · cases hs
  · cases hs
  · next s1 hok =>
    exact (hloop none s1 hok).2 rfl addr ((hmem addr).mpr (isSome_iff_exists.mpr ⟨o, ho⟩)) o ho hw

end StateDB

end Geth.State
