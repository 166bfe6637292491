import Geth.State.Memory
import Geth.State.Verify.Commit

/-!
# Reachable states

`Sound` is the invariant of every state that a run from `New` reaches, as long as all its calls
agree on `deleteEmptyObjects` and no collision meets in the database: the state stands for a
session, and the deleted objects are of accounts that the flag deletes.
-/

namespace Geth.State

open Lib List Option

namespace StateDB

variable {B : Backend} {L : Lawful B} {d : Bool} {s s' : StateDB B} {n : Nat} {σ : Session}

/-- The state has just been opened on the root of a proper state trie, of which the database has all
nodes. -/
def Opened (L : Lawful B) (s : StateDB B) : Prop :=
  ∃ root db, StateDB.new root db = .ok s ∧ L.Ok .accounts db s.trie ∧
    ∀ a, Valid L db a (s.stored L a)

/-- A run reaches the state from one that has just been opened; the laws hold for its accounts and
slots, all calls use the flag `d`, and no collision occurs. -/
def Reachable (L : Lawful B) (d : Bool) (s : StateDB B) : Prop :=
  ∃ s₀ ops, Opened L s₀ ∧
    Run (fun t op => op.Known L ∧ op.Flag d ∧ ¬ L.Collided t.db) s₀ ops s ∧ ¬ L.Collided s.db

/-- The session of a state without a history. -/
def session (L : Lawful B) (s : StateDB B) : Session where
  world := ⟨s.ledger L, fun _ => false⟩
  base := s.ledger L
  thash := s.thash
  bhash := s.bhash
  txIndex := s.txIndex
  ripemdTouched := false
  saved := []
  nextId := s.nextRevisionId

/-- The state stands for a session, and its deleted objects are dying. -/
def Sound (L : Lawful B) (d : Bool) (s : StateDB B) : Prop :=
  (∃ n σ, Refines L n s σ) ∧ Dying L d s

theorem Opened.refines (h : Opened L s) : Refines L 0 s (s.session L) := by
  obtain ⟨root, db, hnew, hok, hvalid⟩ := h
  simp only [StateDB.new] at hnew
  split at hnew
  · cases hnew
  · next tr hopen =>
    cases hnew
    refine ⟨⟨hok, nofun, fun _ => hvalid _, nofun, nofun⟩, journaled_new rfl, rfl,
      rfl, fun a => rfl, ⟨rfl, rfl, rfl⟩, rfl, .nil, .nil, nofun, rfl⟩

theorem Opened.dying (h : Opened L s) : Dying L d s := by
  obtain ⟨root, db, hnew, -⟩ := h
  simp only [StateDB.new] at hnew
  split at hnew
  · cases hnew
  · cases hnew
    exact nofun

theorem Opened.sound (h : Opened L s) : Sound L d s := ⟨⟨0, _, h.refines⟩, h.dying⟩

theorem Within.dying (h : Within L s s') (hd : Dying L d s) : Dying L d s' := by
  intro a u hu hdel
  rw [h.db]
  exact hd (h.deleted hu hdel) hdel

theorem Refines.within (h : Refines L n s σ) {op : Op} (hop : op.inTransaction = true)
    (hk : op.Known L) (hs : s.step op = some s') : Within L s s' := by
  have ho := h.objects
  have hchanges : ∀ {t : StateDB B} {a : Address} {f : Acct → Acct} {k : Nat},
      Changes L s t a f k → Within L s t := fun ⟨_, hext, _⟩ => hext.toWithin
  cases op with
  | query q =>
    cases hs
    exact (ho.query hk).toWithin
  | addBalance addr amount =>
    cases hs
    rcases ho.addBalance hk amount with ⟨-, -, hr⟩ | ⟨-, -, hch⟩ | ⟨-, hch⟩
    · exact hr.toWithin
    · exact hchanges hch
    · exact hchanges hch
  | subBalance addr amount =>
    cases hs
    rcases ho.subBalance hk amount with ⟨-, -, hr⟩ | ⟨-, -, hch⟩ | ⟨-, hch⟩
    · exact hr.toWithin
    · exact hchanges hch
    · exact hchanges hch
  | setBalance addr amount =>
    cases hs
    exact hchanges (ho.setBalance hk amount)
  | setNonce addr nonce =>
    cases hs
    exact hchanges (ho.setNonce hk nonce)
  | setCode addr code =>
    cases hs
    exact hchanges (ho.setCode hk code)
  | setState addr key value =>
    cases hs
    exact hchanges (ho.setState hk.1 hk.2 value)
  | createAccount addr =>
    cases hs
    obtain ⟨es, hext, -⟩ := ho.createAccount hk
    exact hext.toWithin
  | suicide addr =>
    cases hs
    rcases ho.suicide hk with ⟨-, hr⟩ | ⟨ac, -, hch⟩
    · exact hr.toWithin
    · exact hchanges hch
  | addRefund gas =>
    cases hs
    obtain ⟨es, hext, -⟩ := ho.addRefund gas
    exact hext.toWithin
  | addLog log =>
    cases hs
    obtain ⟨es, hext, -⟩ := ho.addLog log
    exact hext.toWithin
  | addPreimage hash preimage =>
    cases hs
    obtain ⟨es, hext, -⟩ := ho.addPreimage hash preimage
    exact hext.toWithin
  | prepare thash bhash ti =>
    cases hs
    exact ⟨rfl, rfl, (h.prepare thash bhash ti).objects, id, fun hu _ => hu, fun _ => rfl⟩
  | snapshot =>
    cases hs
    exact ⟨rfl, rfl, h.snapshot.objects, id, fun hu _ => hu, fun _ => rfl⟩
  | revertToSnapshot revid =>
    obtain ⟨m, r, hr, rfl⟩ := valid_of_revertToSnapshot hs
    obtain ⟨p, hsaved⟩ : ∃ p, Saved L n s r p := by
      obtain ⟨hm, rfl⟩ := List.getElem?_eq_some_iff.mp hr
      exact ⟨_, h.saved.get hm (h.saved.length_eq ▸ hm)⟩
    obtain ⟨s1, hrev, hw, -⟩ := ho.revertJournal h.journaled hsaved.ledger
    have hself := revertToSnapshot_of_valid h.ordered hr
    rw [hrev] at hself
    cases hself.symm.trans hs
    have ho1 := hw.objects
    exact ⟨hw.db, hw.content, ⟨ho1.trie, ho1.obj, ho1.clean, ho1.fresh, ho1.gone⟩, hw.live,
      hw.deleted, hw.marks⟩
  | finalise d order => cases hop
  | intermediateRoot d order => cases hop
  | commit d order => cases hop

theorem Refines.run {C : StateDB B → Op → Prop} {ops : List Op} (h : Refines L n s σ)
    (hops : ∀ op ∈ ops, op.inTransaction = true) (hk : ∀ op ∈ ops, op.Known L)
    (hrun : Run C s ops s') :
    ∃ n' σ', σ.run B.keccak ops = some σ' ∧ Refines L n' s' σ' ∧ Within L s s' := by
  induction hrun generalizing n σ with
  | nil => exact ⟨n, σ, rfl, h, h.objects.refl⟩
  | cons _ _ hstep _ ih =>
    have hop := hops _ mem_cons_self
    have hk' := hk _ mem_cons_self
    obtain ⟨n1, σ1, hσ1, h1⟩ := h.step hop hk' hstep
    have hw := h.within hop hk' hstep
    obtain ⟨n', σ', hσ', h', hw'⟩ := ih h1 (fun op hmem => hops op (mem_cons_of_mem _ hmem))
      fun op hmem => hk op (mem_cons_of_mem _ hmem)
    refine ⟨n', σ', ?_, h', hw.trans hw'⟩
    rw [Session.run, hσ1]
    exact hσ'

theorem Refines.finalise_eq {order : Order} (h : Refines L n s σ) (horder : s.CoversDirties order)
    (hs : s.finalise d order = some s') : ∃ s1, Finalised L d s s1 order.accounts ∧
      s' = s1.clearJournalAndRefund ∧ Refines L 0 s' (σ.finalise B.keccak d) := by
  rcases h.finalise (d := d) horder with ⟨hnone, -⟩ | ⟨s1, hsome, hfin, href⟩
  · cases hnone.symm.trans hs
  · cases hsome.symm.trans hs
    exact ⟨s1, hfin, rfl, href⟩

theorem Finalised.dying {s1 : StateDB B} {addrs : List Address} (h : Finalised L d s s1 addrs)
    (hd : Dying L d s) : Dying L d s1.clearJournalAndRefund := by
  have hdb : s1.db = s.db := by rw [h.rest]
  intro a u hu hdel
  rcases h.dies hu hdel with hu | hdies
  · have := hd hu hdel
    rw [← hdb] at this
    exact this
  · exact hdies

theorem Refines.intermediateRoot_eq {order : Order} {root : Hash} (h : Refines L n s σ)
    (horder : s.CoversDirties order) (hs : s.intermediateRoot d order = some (root, s')) :
    ∃ s1, s.finalise d order = some s1 ∧ Reads L s1 s' ∧
      root = L.root .accounts (L.content .accounts s1.trie) ∧
      Refines L 0 s' (σ.finalise B.keccak d) := by
  rw [StateDB.intermediateRoot] at hs
  split at hs
  · cases hs
  · next s1 hfin =>
    obtain ⟨-, -, -, href⟩ := h.finalise_eq horder hfin
    obtain ⟨t, hhash, hcontent, hok⟩ := L.hash_eq href.objects.trie
    rw [hhash] at hs
    cases hs
    have hr := href.objects.withTrie hok hcontent
    exact ⟨s1, hfin, hr, rfl, href.reads hr⟩

theorem Commits.refines (h : Commits L d s s') : Refines L 0 s' (s'.session L) := by
  have hj : s'.journal = .new := by
    rw [h.rest]
    rfl
  have hrev : s'.validRevisions = [] := by
    rw [h.rest]
    rfl
  refine ⟨h.objects, ?_, rfl, ?_, fun a => ?_, ⟨rfl, rfl, rfl⟩, rfl, ?_, ?_, ?_, rfl⟩
  · rw [hj]
    exact journaled_new hj
  · rw [hj]
    rfl
  · rw [hj]
    rfl
  · rw [hrev]
    exact .nil
  · rw [hrev]
    exact .nil
  · rw [hrev]
    nofun

theorem Sound.step (h : Sound L d s) {op : Op} (horders : s.Orders op) (hk : op.Known L)
    (hflag : op.Flag d) (hs : s.step op = some s') (hnc : ¬ L.Collided s'.db) : Sound L d s' := by
  obtain ⟨⟨n, σ, href⟩, hdy⟩ := h
  have hin : op.inTransaction = true → Sound L d s' := by
    intro hop
    obtain ⟨n', σ', -, href'⟩ := href.step hop hk hs
    exact ⟨⟨n', σ', href'⟩, (href.within hop hk hs).dying hdy⟩
  cases op with
  | finalise d' order =>
    obtain rfl : d' = d := hflag
    obtain ⟨s1, hfin, rfl, href'⟩ := href.finalise_eq horders hs
    exact ⟨⟨0, _, href'⟩, hfin.dying hdy⟩
  | intermediateRoot d' order =>
    obtain rfl : d' = d := hflag
    obtain ⟨⟨root, t⟩, hroot, rfl⟩ := map_eq_some_iff.mp hs
    obtain ⟨s1, hfin, hr, -, href'⟩ := href.intermediateRoot_eq horders hroot
    obtain ⟨s2, hfin', rfl, -⟩ := href.finalise_eq horders hfin
    exact ⟨⟨0, _, href'⟩, hr.toWithin.dying (hfin'.dying hdy)⟩
  | commit d' order =>
    obtain rfl : d' = d := hflag
    obtain ⟨⟨r, t⟩, hcommit, rfl⟩ := map_eq_some_iff.mp hs
    obtain ⟨-, hco⟩ := href.objects.commit href.journaled.live hdy horders hcommit hnc
    exact ⟨⟨0, _, hco.refines⟩, hco.dying⟩
  | _ => exact hin rfl

theorem Sound.run {ops : List Op} (h : Sound L d s)
    (hrun : Run (fun t op => op.Known L ∧ op.Flag d ∧ ¬ L.Collided t.db) s ops s')
    (hnc : ¬ L.Collided s'.db) : Sound L d s' := by
  induction hrun with
  | nil => exact h
  | @cons s t u op ops horders hC hstep hrest ih =>
    have hnc1 : ¬ L.Collided t.db := by
      cases hrest with
      | nil => exact hnc
      | cons _ hC' _ _ => exact hC'.2.2
    exact ih (h.step horders hC.1 hC.2.1 hstep hnc1) hnc

theorem Reachable.sound (h : Reachable L d s) : Sound L d s := by
  obtain ⟨s₀, ops, hopen, hrun, hnc⟩ := h
  exact hopen.sound.run hrun hnc

end StateDB

/-! ## States in memory -/

namespace Memory

/-- The state that `New` opens on an empty database. -/
def opened : StateDB backend where
  db := Db.empty
  trie := Trie.empty
  stateObjects := fun _ => none
  stateObjectsDirty := fun _ => false
  dbErr := none
  refund := 0
  thash := Hash.zero
  bhash := Hash.zero
  txIndex := 0
  logs := fun _ => []
  logSize := 0
  preimages := fun _ => none
  journal := .new
  validRevisions := []
  nextRevisionId := 0

theorem clean_empty : Clean Db.empty := ⟨nofun, nofun, nofun, nofun⟩

theorem opened_opened : StateDB.Opened lawful opened :=
  ⟨Hash.zero, Db.empty, rfl, trivial, fun _ => valid_none⟩

theorem opened_reachable (d : Bool) : StateDB.Reachable lawful d opened :=
  ⟨opened, [], opened_opened, .nil, not_not.mpr clean_empty⟩

/-- The order of a loop over the changes of one account, none of them to its storage. -/
def single (addr : Address) : Order := ⟨[addr], fun _ => []⟩

theorem enumerates_single {K : Type} [DecidableEq K] {k : K} {keys : K → Prop} (hk : keys k)
    (hother : ∀ k', k' ≠ k → ¬ keys k') : Enumerates [k] keys := by
  refine ⟨nodup_singleton k, fun k' => ?_⟩
  rw [mem_singleton]
  constructor
  · rintro rfl
    exact hk
  · intro hk'
    by_contra hne
    exact hother k' hne hk'

section Single

variable {s : StateDB backend} {addr : Address} (hs : ∀ a, a ≠ addr → s.stateObjects a = none)
  (hdirty : (s.stateObjects addr).map StateObject.dirtyStorage = some fun _ => none)

include hs hdirty

theorem coversStorage_single : s.CoversStorage (single addr) := by
  intro a u hu
  by_cases ha : a = addr
  · subst ha
    rw [hu] at hdirty
    rw [Option.some.inj hdirty]
    exact ⟨nodup_nil, fun k => by simp [single]⟩
  · cases (hs a ha).symm.trans hu

theorem coversObjects_single : s.CoversObjects (single addr) := by
  refine ⟨enumerates_single ?_ fun a ha => ?_, coversStorage_single hs hdirty⟩
  · rw [← isSome_map (f := StateObject.dirtyStorage), hdirty]
    rfl
  · rw [hs a ha]
    exact Bool.false_ne_true

theorem coversDirties_single (hpos : 0 < s.journal.dirties addr)
    (hzero : ∀ a, a ≠ addr → s.journal.dirties a = 0) : s.CoversDirties (single addr) := by
  refine ⟨enumerates_single hpos fun a ha => ?_, coversStorage_single hs hdirty⟩
  rw [hzero a ha]
  exact lt_irrefl 0

end Single

end Memory

end Geth.State
