import Geth.State.Verify.Flush
import Geth.State.Verify.Refine

/-!
# The end of a transaction

`Finalise` writes the accounts that the journal counts into the account trie: what is there
afterwards is `written`, a function of the flag and of the account. The rest of the trie stays. So
the root that `IntermediateRoot` returns depends on the order of no loop, and on the state only
through the trie, the accounts and the touched addresses.
-/

namespace Geth.State

open Lib Function List Option

/-- What the end of a transaction leaves in the account trie for an account it has touched. -/
def Lawful.written {B : Backend} (L : Lawful B) (d : Bool) (ac : Option Acct) : Option Bytes :=
  ac.bind fun ac => if ac.dies B.keccak d then none else L.encodeAcct ac

/-- What it leaves of the account. -/
def Acct.survivor (keccak : Bytes → Hash) (d : Bool) (ac : Option Acct) : Option Acct :=
  ac.filter fun ac => !ac.dies keccak d

/-- The account has to be written, but has no encoding. -/
def Lawful.Unwritable {B : Backend} (L : Lawful B) (d : Bool) (ac : Option Acct) : Prop :=
  ∃ x, ac = some x ∧ x.dies B.keccak d = false ∧ L.encodeAcct x = none

/-- The content of the account trie with some accounts replaced. -/
def overlay (m : Content) (touched : Address → Bool) (f : Address → Option Bytes) : Content :=
  fun key =>
    if h : key.length = 20 then if touched ⟨key, h⟩ then f ⟨key, h⟩ else m key
    else m key

theorem overlay_val (m : Content) (touched : Address → Bool) (f : Address → Option Bytes)
    (addr : Address) :
    overlay m touched f addr.val = if touched addr then f addr else m addr.val := by
  rw [overlay, dif_pos addr.property]

theorem overlay_false (m : Content) (f : Address → Option Bytes) :
    overlay m (fun _ => false) f = m := by
  funext key
  simp [overlay]

theorem overlay_congr {m : Content} {touched touched' : Address → Bool}
    {f f' : Address → Option Bytes}
    (h : ∀ a, touched a = touched' a ∧ (touched a = true → f a = f' a)) :
    overlay m touched f = overlay m touched' f' := by
  funext key
  simp only [overlay]
  split
  · next hlen =>
    obtain ⟨htouched, hf⟩ := h ⟨key, hlen⟩
    rw [← htouched]
    cases ht : touched ⟨key, hlen⟩ with
    | true => simpa using hf ht
    | false => rfl
  · rfl

theorem overlay_update {m : Content} {touched touched' : Address → Bool}
    {f f' : Address → Option Bytes} {addr : Address} (haddr : touched' addr = true)
    (hnot : touched addr = false)
    (hother : ∀ a, a ≠ addr → touched a = touched' a ∧ (touched a = true → f a = f' a)) :
    overlay (update m addr.val (f' addr)) touched f = overlay m touched' f' := by
  funext key
  simp only [overlay]
  split
  · next hlen =>
    by_cases hkey : (⟨key, hlen⟩ : Address) = addr
    · have hval : key = addr.val := congrArg Subtype.val hkey
      rw [hkey, haddr, hnot, hval]
      simp
    · have hval : key ≠ addr.val := fun h => hkey (Subtype.ext h)
      obtain ⟨htouched, hf⟩ := hother _ hkey
      rw [update_of_ne hval, ← htouched]
      cases ht : touched ⟨key, hlen⟩ with
      | true => simpa using hf ht
      | false => rfl
  · next hlen =>
    have hval : key ≠ addr.val := fun h => hlen (h ▸ addr.property)
    rw [update_of_ne hval]

namespace StateDB

variable {B : Backend} {L : Lawful B} {d : Bool} {s s' : StateDB B} {addr : Address}
  {o : StateObject B}

/-- Replaces the object of an address, what the trie has for it, and its mark. -/
def write (s : StateDB B) (o : StateObject B) (t : B.Trie) (mark : Bool) : StateDB B :=
  { s with
    trie := t
    stateObjects := Function.update s.stateObjects o.address (some o)
    stateObjectsDirty := Function.update s.stateObjectsDirty o.address mark }

variable {t : B.Trie} {c : Option Bytes} {order : Order} {addrs : List Address} {σ : Session}

section Write

variable (mark : Bool)
  (hcontent : L.content .accounts t = update (L.content .accounts s.trie) o.address.val c)
include hcontent

theorem stored_write : (s.write o t mark).stored L = update (s.stored L) o.address c := by
  funext a
  have ha := congrFun hcontent a.val
  by_cases haddr : a = o.address
  · subst haddr
    rw [update_self] at ha ⊢
    exact ha
  · rw [update_of_ne fun he => haddr (Subtype.ext he)] at ha
    rw [update_of_ne haddr]
    exact ha

theorem account_write :
    (s.write o t mark).account L = update (s.account L) o.address
      (if o.deleted then none else some (o.acct L s.db)) := by
  have hstored := stored_write mark hcontent
  funext a
  by_cases ha : a = o.address
  · subst ha
    have hself : (s.write o t mark).stateObjects o.address = some o := update_self ..
    rw [update_self, account, hself]
    rfl
  · have hother : (s.write o t mark).stateObjects a = s.stateObjects a := update_of_ne ha ..
    rw [update_of_ne ha, account, hother, hstored, update_of_ne ha]
    rfl

theorem Objects.write (h : Objects L s) (hok : ObjOk L s.db o.address o)
    (ht : L.Ok .accounts s.db t) (hgone : o.deleted = true → c = none) (hvalid : mark = false → Valid L s.db o.address c) :
    Objects L (s.write o t mark) := by
  have hstored := stored_write mark hcontent
  have hself : (s.write o t mark).stateObjects o.address = some o := update_self ..
  have hother : ∀ {a}, a ≠ o.address →
      (s.write o t mark).stateObjects a = s.stateObjects a := fun ha => update_of_ne ha ..
  have hmark : ∀ {a}, a ≠ o.address → (s.write o t mark).stateObjectsDirty a =
      s.stateObjectsDirty a := fun ha => update_of_ne ha ..
  have hmark' : (s.write o t mark).stateObjectsDirty o.address = mark := update_self ..
  refine ⟨ht, fun {a u} hu => ?_, fun {a} hd => ?_, fun {a} hd hu => ?_, fun {a u} hu hdel => ?_⟩
  all_goals
    by_cases ha : a = o.address
  · subst ha
    cases hself.symm.trans hu
    exact hok
  · exact h.obj ((hother ha).symm.trans hu)
  · subst ha
    rw [hstored, update_self]
    exact hvalid (hmark'.symm.trans hd)
  · rw [hstored, update_of_ne ha]
    exact h.clean ((hmark ha).symm.trans hd)
  · subst ha
    exact absurd (hself.symm.trans hu) nofun
  · rw [hstored, update_of_ne ha]
    exact h.fresh ((hmark ha).symm.trans hd) ((hother ha).symm.trans hu)
  · subst ha
    cases hself.symm.trans hu
    rw [hstored, update_self]
    exact hgone hdel
  · rw [hstored, update_of_ne ha]
    exact h.gone ((hother ha).symm.trans hu) hdel

end Write

/-- The account of an address has been settled. -/
structure Settles (L : Lawful B) (d : Bool) (s s' : StateDB B) (addr : Address) : Prop where
  objects : Objects L s'
  content : L.content .accounts s'.trie =
    Function.update (L.content .accounts s.trie) addr.val (L.written d (s.account L addr))
  account : s'.account L =
    Function.update (s.account L) addr (Acct.survivor B.keccak d (s.account L addr))
  dies : ∀ {u}, s'.stateObjects addr = some u → u.deleted = true →
    (u.acct L s'.db).dies B.keccak d = true
  rest : s' = { s with
    trie := s'.trie
    stateObjects := Function.update s.stateObjects addr (s'.stateObjects addr)
    stateObjectsDirty := Function.update s.stateObjectsDirty addr true }

theorem Objects.deleteStateObject (h : Objects L s) (hk : L.Known o.address) : ∃ t,
    s.deleteStateObject o = { s with
      trie := t
      stateObjects := update s.stateObjects o.address (some { o with deleted := true }) } ∧
    L.Ok .accounts s.db t ∧ L.content .accounts t = update (L.content .accounts s.trie)
      o.address.val none := by
  obtain ⟨t, hdelete, hcontent, ht⟩ := L.tryDelete_eq h.trie hk
  refine ⟨t, ?_, ht, hcontent⟩
  simp [StateDB.deleteStateObject, setStateObject, hdelete, StateDB.setError]

theorem Objects.updateStateObject (h : Objects L s) (hk : L.Known o.address) :
    (o.data.encode = none ∧ (s.setStateObject o).updateStateObject o = none) ∨
    ∃ enc t, o.data.encode = some enc ∧ (s.setStateObject o).updateStateObject o = some { s with
        trie := t
        stateObjects := update s.stateObjects o.address (some o) } ∧
      L.Ok .accounts s.db t ∧ L.content .accounts t = update (L.content .accounts s.trie)
        o.address.val (some enc) := by
  cases henc : o.data.encode with
  | none =>
    refine .inl ⟨rfl, ?_⟩
    simp [StateDB.updateStateObject, henc]
  | some enc =>
    obtain ⟨t, hupdate, hcontent, ht⟩ :=
      L.tryUpdate_eq h.trie hk (Account.encode_ne_nil henc)
    refine .inr ⟨enc, t, rfl, ?_, ht, hcontent⟩
    simp [StateDB.updateStateObject, henc, setStateObject, hupdate, StateDB.setError]

theorem Objects.settleDeleted (h : Objects L s) (ho : s.stateObjects addr = some o)
    (hdel : o.deleted = false) (hd : (o.acct L s.db).dies B.keccak d = true) :
    Settles L d s ((s.deleteStateObject o).markDirty addr) addr ∧
      ¬ L.Unwritable d (s.account L addr) := by
  have hok := h.obj ho
  obtain ⟨rfl⟩ := hok.address
  have hacct : s.account L o.address = some (o.acct L s.db) := account_of_live ho hdel
  obtain ⟨t, hdelete, ht, hcontent⟩ := h.deleteStateObject hok.known
  have hself : (s.deleteStateObject o).markDirty o.address =
      s.write { o with deleted := true } t true := by
    rw [hdelete]
    rfl
  rw [hself]
  refine ⟨⟨?_, ?_, ?_, ?_, ?_⟩, ?_⟩
  · exact h.write (o := { o with deleted := true }) _ hcontent (hok.setDeleted true) ht
      (fun _ => rfl) nofun
  · simp only [hacct, Lawful.written, bind_some, hd, if_true]
    exact hcontent
  · rw [hacct, account_write (o := { o with deleted := true }) true hcontent]
    simp [Acct.survivor, Option.filter, hd]
  · intro u hu _
    have hu' : update s.stateObjects o.address
      (some { o with deleted := true }) o.address = some u := hu
    rw [update_self] at hu'
    cases hu'
    exact hd
  · simp [StateDB.write]
  · rintro ⟨x, hx, hx', -⟩
    cases hacct.symm.trans hx
    exact absurd (hd.symm.trans hx') nofun

theorem Objects.settleFlushed (h : Objects L s) (ho : s.stateObjects addr = some o)
    (hdel : o.deleted = false) (hd : (o.acct L s.db).dies B.keccak d = false)
    {o' : StateObject B} (hfl : Flushed L s.db addr o o') :
    ((s.setStateObject o').updateStateObject o' = none ∧ L.Unwritable d (s.account L addr)) ∨
    (∃ s1, (s.setStateObject o').updateStateObject o' = some s1 ∧
      Settles L d s (s1.markDirty addr) addr ∧ ¬ L.Unwritable d (s.account L addr)) := by
  have hok := hfl.ok
  obtain ⟨rfl⟩ := hok.address
  have hacct : s.account L o'.address = some (o.acct L s.db) := account_of_live ho hdel
  have hdel' : o'.deleted = false := hfl.deleted.trans hdel
  rcases h.updateStateObject hok.known with ⟨henc, hnone⟩ | ⟨enc, t, henc, hsome, ht, hcontent⟩
  · rw [hfl.encode] at henc
    exact .inl ⟨hnone, _, hacct, hd, henc⟩
  · rw [hfl.encode] at henc
    refine .inr ⟨_, hsome, ?_, ?_⟩
    · have hself : StateDB.markDirty { s with
          trie := t
          stateObjects := update s.stateObjects o'.address (some o') } o'.address =
          s.write o' t true := rfl
      rw [hself]
      refine ⟨?_, ?_, ?_, ?_, ?_⟩
      · exact h.write _ hcontent hok ht (fun hd' => absurd (hdel'.symm.trans hd') nofun) nofun
      · simp only [hacct, Lawful.written, bind_some, hd, Bool.false_eq_true, if_false, henc]
        exact hcontent
      · rw [hacct, account_write true hcontent, hfl.acct, hdel']
        simp [Acct.survivor, Option.filter, hd]
      · intro u hu hu'
        have hself : update s.stateObjects o'.address (some o') o'.address = some u := hu
        rw [update_self] at hself
        cases hself
        exact absurd (hdel'.symm.trans hu') nofun
      · simp [StateDB.write]
    · rintro ⟨x, hx, -, hx'⟩
      cases hacct.symm.trans hx
      exact absurd (henc.symm.trans hx') nofun

theorem Objects.finaliseAddr (h : Objects L s) (ho : s.stateObjects addr = some o)
    (hdel : o.deleted = false)
    (horder : Enumerates (order.storage addr) fun key => (o.dirtyStorage key).isSome) :
    (finaliseAddr d order s addr = none ∧ L.Unwritable d (s.account L addr)) ∨
    (∃ s', finaliseAddr d order s addr = some s' ∧ Settles L d s s' addr ∧
      ¬ L.Unwritable d (s.account L addr)) := by
  have hok := h.obj ho
  have hdies : (o.suicided || (d && o.empty)) = (o.acct L s.db).dies B.keccak d := by
    rw [StateObject.empty_eq hok]
    rfl
  cases hd : (o.acct L s.db).dies B.keccak d with
  | true =>
    rw [hd] at hdies
    refine .inr ⟨_, ?_, h.settleDeleted ho hdel hd⟩
    simp [StateDB.finaliseAddr, ho, hdies]
  | false =>
    rw [hd] at hdies
    rcases h.settleFlushed ho hdel hd (hok.updateRoot horder) with ⟨hnone, hun⟩ | ⟨s1, hsome, hset⟩
    · refine .inl ⟨?_, hun⟩
      simp [StateDB.finaliseAddr, ho, hdies, hnone]
    · refine .inr ⟨_, ?_, hset⟩
      simp [StateDB.finaliseAddr, ho, hdies, hsome]

/-- The accounts `addrs` have been settled. -/
structure Finalised (L : Lawful B) (d : Bool) (s s' : StateDB B) (addrs : List Address) :
    Prop where
  objects : Objects L s'
  writable : ∀ a ∈ addrs, ¬ L.Unwritable d (s.account L a)
  content : L.content .accounts s'.trie = overlay (L.content .accounts s.trie)
    (fun a => decide (a ∈ addrs)) fun a => L.written d (s.account L a)
  account : ∀ a, s'.account L a =
    if a ∈ addrs then Acct.survivor B.keccak d (s.account L a) else s.account L a
  dies : ∀ {a u}, s'.stateObjects a = some u → u.deleted = true →
    s.stateObjects a = some u ∨ (u.acct L s'.db).dies B.keccak d = true
  marked : ∀ a, s'.stateObjectsDirty a =
    (s.stateObjectsDirty a || decide (a ∈ addrs) && (s.stateObjects a).isSome)
  rest : s' = { s with
    trie := s'.trie
    stateObjects := s'.stateObjects
    stateObjectsDirty := s'.stateObjectsDirty }

theorem Objects.finalised_nil (h : Objects L s) : Finalised L d s s [] := by
  refine ⟨h, nofun, ?_, fun a => ?_, fun hu _ => .inl hu, fun a => ?_, rfl⟩
  · exact (overlay_false ..).symm
  · rw [if_neg not_mem_nil]
  · simp

theorem decide_mem_cons (haddr : addr ∉ addrs) :
    decide (addr ∈ addr :: addrs) = true ∧ decide (addr ∈ addrs) = false ∧
      ∀ a, a ≠ addr → decide (a ∈ addrs) = decide (a ∈ addr :: addrs) := by
  refine ⟨decide_eq_true mem_cons_self, decide_eq_false haddr, fun a ha => ?_⟩
  rw [decide_eq_decide, mem_cons]
  exact ⟨.inr, fun h => h.resolve_left ha⟩

theorem Finalised.skip (h : Finalised L d s s' addrs) (haddr : addr ∉ addrs)
    (ho : s.stateObjects addr = none) (hstored : s.stored L addr = none) :
    Finalised L d s s' (addr :: addrs) := by
  have hnone : s.account L addr = none := by
    rw [account_of_absent ho, hstored, loaded_none]
  obtain ⟨hmem, hnot, hother⟩ := decide_mem_cons haddr
  refine ⟨h.objects, fun a ha => ?_, ?_, fun a => ?_, h.dies, fun a => ?_, h.rest⟩
  · rcases mem_cons.mp ha with rfl | ha
    · rw [hnone]
      rintro ⟨x, hx, -⟩
      cases hx
    · exact h.writable a ha
  · have hsame : update (L.content .accounts s.trie) addr.val (L.written d (s.account L addr)) =
        L.content .accounts s.trie := by
      rw [hnone, update_eq_self_iff]
      exact hstored.symm
    rw [h.content]
    conv_lhs => rw [← hsame]
    apply overlay_update hmem hnot
    intro a ha
    exact ⟨hother a ha, fun _ => rfl⟩
  · rw [h.account]
    by_cases ha : a = addr
    · subst ha
      rw [if_neg haddr, if_pos mem_cons_self, hnone]
      rfl
    · simp [ha]
  · rw [h.marked]
    by_cases ha : a = addr
    · simp [ha, ho]
    · rw [hother a ha]

theorem Settles.cons {s1 : StateDB B} (h : Settles L d s s1 addr) (h' : Finalised L d s1 s' addrs)
    (haddr : addr ∉ addrs) (ho : (s.stateObjects addr).isSome = true)
    (hun : ¬ L.Unwritable d (s.account L addr)) :
    Finalised L d s s' (addr :: addrs) := by
  obtain ⟨hmem, hnot, hother⟩ := decide_mem_cons haddr
  have hacct : ∀ a, a ≠ addr → s1.account L a = s.account L a := by
    intro a ha
    rw [h.account, update_of_ne ha]
  have hne : ∀ {a}, a ∈ addrs → a ≠ addr := fun ha he => haddr (he ▸ ha)
  refine ⟨h'.objects, fun a ha => ?_, ?_, fun a => ?_, fun {a u} hu hdel => ?_, fun a => ?_, ?_⟩
  · rcases mem_cons.mp ha with rfl | ha
    · exact hun
    · rw [← hacct a (hne ha)]
      exact h'.writable a ha
  · rw [h'.content, h.content]
    apply overlay_update hmem hnot
    intro a ha
    refine ⟨hother a ha, fun _ => ?_⟩
    rw [hacct a ha]
  · rw [h'.account]
    by_cases ha : a = addr
    · subst ha
      rw [if_neg haddr, if_pos mem_cons_self, h.account, update_self]
    · simp [ha, hacct a ha]
  · rcases h'.dies hu hdel with hu1 | hd
    · by_cases ha : a = addr
      · subst ha
        have hdb : s'.db = s1.db := by rw [h'.rest]
        rw [hdb]
        exact .inr (h.dies hu1 hdel)
      · rw [h.rest] at hu1
        exact .inl ((update_of_ne ha ..).symm.trans hu1)
    · exact .inr hd
  · rw [h'.marked, h.rest]
    by_cases ha : a = addr
    · subst ha
      simp [ho]
    · simp only [update_of_ne ha, hother a ha]
  · rw [h'.rest, h.rest]

theorem Objects.finaliseLoop (h : Objects L s) (hnodup : addrs.Nodup)
    (hlive : ∀ a ∈ addrs, s.Live L a) (horder : ∀ a ∈ addrs, ∀ o, s.stateObjects a = some o →
      Enumerates (order.storage a) fun key => (o.dirtyStorage key).isSome) :
    (finaliseLoop d order s addrs = none ∧ ∃ a ∈ addrs, L.Unwritable d (s.account L a)) ∨
    (∃ s', finaliseLoop d order s addrs = some s' ∧ Finalised L d s s' addrs) := by
  induction addrs generalizing s with
  | nil => exact .inr ⟨s, rfl, h.finalised_nil⟩
  | cons addr addrs ih =>
    obtain ⟨haddr, hnodup⟩ := nodup_cons.mp hnodup
    rcases hlive addr mem_cons_self with ⟨o, ho, hdel⟩ | ⟨ho, hstored⟩
    · rcases h.finaliseAddr (d := d) ho hdel (horder addr mem_cons_self o ho) with
        ⟨hnone, hun⟩ | ⟨s1, hsome, hset, hun⟩
      · refine .inl ⟨?_, addr, mem_cons_self, hun⟩
        simp [StateDB.finaliseLoop, hnone]
      · have hne : ∀ {a}, a ∈ addrs → a ≠ addr := fun ha he => haddr (he ▸ ha)
        have hobj : ∀ {a}, a ∈ addrs → s1.stateObjects a = s.stateObjects a := by
          intro a ha
          rw [hset.rest]
          exact update_of_ne (hne ha) ..
        have hst : ∀ {a}, a ∈ addrs → s1.stored L a = s.stored L a := by
          intro a ha
          rw [StateDB.stored, hset.content]
          exact update_of_ne (fun he => hne ha (Subtype.ext he)) ..
        have hacct : ∀ {a}, a ∈ addrs → s1.account L a = s.account L a := by
          intro a ha
          rw [hset.account, update_of_ne (hne ha)]
        have hloop : StateDB.finaliseLoop d order s (addr :: addrs) =
            StateDB.finaliseLoop d order s1 addrs := by
          simp [StateDB.finaliseLoop, hsome]
        have hlive1 : ∀ a ∈ addrs, s1.Live L a := by
          intro a ha
          rw [Live, hobj ha, hst ha]
          exact hlive a (mem_cons_of_mem _ ha)
        have horder1 : ∀ a ∈ addrs, ∀ o, s1.stateObjects a = some o →
            Enumerates (order.storage a) fun key => (o.dirtyStorage key).isSome := by
          intro a ha o ho
          rw [hobj ha] at ho
          exact horder a (mem_cons_of_mem _ ha) o ho
        rw [hloop]
        rcases ih hset.objects hnodup hlive1 horder1 with ⟨hnone, a, ha, hun'⟩ | ⟨s', hsome', hfin⟩
        · rw [hacct ha] at hun'
          exact .inl ⟨hnone, a, mem_cons_of_mem _ ha, hun'⟩
        · exact .inr ⟨s', hsome', hset.cons hfin haddr (ho ▸ rfl) hun⟩
    · have hloop : StateDB.finaliseLoop d order s (addr :: addrs) =
          StateDB.finaliseLoop d order s addrs := by
        simp [StateDB.finaliseLoop, StateDB.finaliseAddr, ho]
      rw [hloop]
      rcases ih h hnodup (fun a ha => hlive a (mem_cons_of_mem _ ha))
          (fun a ha => horder a (mem_cons_of_mem _ ha)) with
        ⟨hnone, a, ha, hun⟩ | ⟨s', hsome, hfin⟩
      · exact .inl ⟨hnone, a, mem_cons_of_mem _ ha, hun⟩
      · exact .inr ⟨s', hsome, hfin.skip haddr ho hstored⟩

/-! ## Finalise and IntermediateRoot -/

open Classical in
/-- The root after a transaction that has touched some accounts; `none` is the panic on an account
that cannot be encoded. -/
noncomputable def rootAfter (L : Lawful B) (d : Bool) (m : Content) (touched : Address → Bool)
    (accounts : Address → Option Acct) : Option Hash :=
  if ∃ a, touched a = true ∧ L.Unwritable d (accounts a) then none
  else some (L.root .accounts (overlay m touched fun a => L.written d (accounts a)))

theorem Objects.clear (h : Objects L s) : Objects L s.clearJournalAndRefund :=
  ⟨h.trie, h.obj, h.clean, h.fresh, h.gone⟩

theorem Objects.refines_clear (h : Objects L s)
    (hledger : s.clearJournalAndRefund.ledger L = σ.world.ledger) (hbase : σ.base = σ.world.ledger)
    (htouched : σ.world.touched = fun _ => false)
    (htx : s.thash = σ.thash ∧ s.bhash = σ.bhash ∧ s.txIndex = σ.txIndex)
    (hrest : σ.ripemdTouched = false ∧ σ.saved = [] ∧ s.nextRevisionId = σ.nextId) :
    Refines L 0 s.clearJournalAndRefund σ := by
  obtain ⟨h1, h2, h3⟩ := hrest
  refine ⟨h.clear, journaled_new rfl, hledger, ?_, fun a => ?_, htx, h1, ?_, .nil, nofun, h3⟩
  · rw [hbase]
    exact congrArg some hledger
  · rw [htouched]
    rfl
  · rw [h2]
    exact .nil

theorem Refines.finalise {n : Nat} (h : Refines L n s σ) (horder : s.CoversDirties order) :
    (s.finalise d order = none ∧ ∃ a ∈ order.accounts, L.Unwritable d (s.account L a)) ∨
    (∃ s1, s.finalise d order = some s1.clearJournalAndRefund ∧ Finalised L d s s1 order.accounts ∧
      Refines L 0 s1.clearJournalAndRefund (σ.finalise B.keccak d)) := by
  obtain ⟨⟨hnodup, hmem⟩, hstorage⟩ := horder
  rcases h.objects.finaliseLoop (d := d) hnodup
      (fun a ha => h.journaled.live ((hmem a).mp ha)) (fun a _ => hstorage a) with
    ⟨hnone, hun⟩ | ⟨s1, hsome, hfin⟩
  · refine .inl ⟨?_, hun⟩
    rw [StateDB.finalise, hnone, map_none]
  · refine .inr ⟨s1, ?_, hfin, ?_⟩
    · rw [StateDB.finalise, hsome, map_some]
    · have htouched : ∀ a, σ.world.touched a = decide (a ∈ order.accounts) := by
        intro a
        rw [h.touched, decide_eq_decide]
        exact (hmem a).symm
      refine hfin.objects.refines_clear ?_ rfl rfl ?_ ⟨rfl, rfl, ?_⟩
      · have hacct : s1.clearJournalAndRefund.account L =
            (σ.world.finalise B.keccak d).ledger.accounts := by
          funext a
          simp only [World.finalise, htouched, decide_eq_true_eq]
          rw [← h.account]
          exact hfin.account a
        rw [StateDB.ledger, hacct, hfin.rest]
        simp only [Session.finalise, World.finalise, ← h.ledger]
        rfl
      · rw [hfin.rest]
        exact h.tx
      · rw [hfin.rest]
        exact h.nextId

theorem Refines.intermediateRoot {n : Nat} (h : Refines L n s σ) (horder : s.CoversDirties order) :
    (s.intermediateRoot d order).map Prod.fst =
      rootAfter L d (L.content .accounts s.trie) (fun a => decide (0 < s.journal.dirties a))
        (s.account L) := by
  have hmem := horder.1.2
  rw [rootAfter]
  rcases h.finalise (d := d) horder with ⟨hnone, a, ha, hun⟩ | ⟨s1, hsome, hfin, -⟩
  · rw [if_pos ⟨a, decide_eq_true ((hmem a).mp ha), hun⟩, StateDB.intermediateRoot, hnone]
    rfl
  · rw [if_neg]
    · obtain ⟨t, hhash, -⟩ := L.hash_eq hfin.objects.trie
      have hcontent : L.content .accounts s1.clearJournalAndRefund.trie =
        overlay (L.content .accounts s.trie)
          (fun a => decide (0 < s.journal.dirties a)) fun a => L.written d (s.account L a) := by
        have htouched : (fun a => decide (0 < s.journal.dirties a)) =
            fun a => decide (a ∈ order.accounts) := by
          funext a
          rw [decide_eq_decide]
          exact (hmem a).symm
        rw [htouched]
        exact hfin.content
      rw [StateDB.intermediateRoot, hsome]
      have htrie : B.hash s1.clearJournalAndRefund.trie = _ := hhash
      simp only [htrie, Option.map_some, ← hcontent]
      rfl
    · rintro ⟨a, ha, hun⟩
      exact hfin.writable a ((hmem a).mpr (of_decide_eq_true ha)) hun

end StateDB

end Geth.State
