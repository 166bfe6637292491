import Geth.State.Verify.Sync

/-!
# Opening a committed state

The state that `New` opens on the root of a commit shows the ledger that the session has at the end
of its transaction.
-/

namespace Geth.State

open Lib

namespace StateDB

variable {B : Backend} {L : Lawful B} {d : Bool} {s s' : StateDB B}

/-- What the getters say about an account and its known slots. -/
structure Shows (L : Lawful B) (s : StateDB B) (a : Address) (ac : Option Acct) : Prop where
  exist : (s.exist a).1 = ac.isSome
  getBalance : (s.getBalance a).1 = (ac.map Acct.balance).getD 0
  getNonce : (s.getNonce a).1 = (ac.map Acct.nonce).getD 0
  getCode : (s.getCode a).1.getD [] = (ac.map Acct.code).getD []
  getState : ∀ key, L.KnownSlot key →
    (s.getState a key).1 = (ac.map fun ac => ac.storage key).getD Hash.zero

theorem Objects.shows (h : Objects L s) {a : Address} (hk : L.Known a) :
    s.Shows L a (s.account L a) :=
  ⟨(h.exist hk).1, (h.getBalance hk).1, (h.getNonce hk).1, (h.getCode hk).1, fun _ hkey =>
    (h.getState hk hkey).1⟩

theorem commit_persists {s₀ : StateDB B} {ops : List Op} (hopen : Opened L s₀)
    (hrun : CountedRun L d s₀ ops s) (hnc : ¬ L.Collided s.db) (hreset : s.ResetsCounted)
    (hw : Writable L d s) {order : Order} (horder : s.CoversObjects order) :
    ∃ σ r s', (s₀.session L).run B.keccak ops = some σ ∧
      (∀ a, L.Known a → s.Shows L a (σ.world.ledger.accounts a)) ∧ s.commit d order = some (r, s') ∧
      (¬ L.Collided s'.db → ∃ root s'', r = .ok root ∧ StateDB.new root s'.db = .ok s'' ∧
        ∀ a, L.Known a → s''.Shows L a ((σ.world.finalise B.keccak d).ledger.accounts a)) := by
  obtain ⟨σ, hσ, hin⟩ := hopen.inSync.run hrun hnc
  obtain ⟨r, s', hcommit, hgood⟩ := hin.commit hreset hw horder
  refine ⟨σ, r, s', hσ, fun a hk => ?_, hcommit, fun hnc' => ?_⟩
  · obtain ⟨n, href⟩ := hin.refines
    rw [← href.ledger]
    exact href.objects.shows hk
  · obtain ⟨rfl, hco, hin'⟩ := hgood hnc'
    obtain ⟨n', href'⟩ := hin'.refines
    obtain ⟨u, hu, hcontent, hok⟩ := hco.opens
    have hnew : ∃ s'', StateDB.new (L.root .accounts (committed L d s)) s'.db = .ok s'' ∧
        s''.db = s'.db ∧ s''.trie = u ∧ ∀ a, s''.stateObjects a = none := by
      rw [StateDB.new, hu]
      exact ⟨_, rfl, rfl, rfl, fun _ => rfl⟩
    obtain ⟨s'', hnew, hdb, htrie, hnone⟩ := hnew
    have hstored : ∀ a, s''.stored L a = s'.stored L a := by
      intro a
      rw [StateDB.stored, htrie, hcontent, ← hco.content]
      rfl
    have hopen'' : Opened L s'' := by
      refine ⟨_, _, hnew, htrie ▸ hok, fun a => ?_⟩
      rw [hstored]
      exact hco.valid a
    refine ⟨_, s'', rfl, hnew, fun a hk => ?_⟩
    have hshows := hopen''.refines.objects.shows hk
    have hacct : s''.account L a = (σ.world.finalise B.keccak d).ledger.accounts a := by
      have hledger : s'.account L a = (σ.world.finalise B.keccak d).ledger.accounts a :=
        congrFun (congrArg Ledger.accounts href'.ledger) a
      have hbase : (σ.finalise B.keccak d).base.accounts a = s'.account L a := hledger.symm
      rw [← hledger, account_of_absent (hnone a), hstored, hdb]
      cases hm : s'.stateObjectsDirty a with
      | true => exact (account_of_absent (hco.marks hm)).symm
      | false =>
        have hin := hin'.synced a
        rw [hm, hbase] at hin
        exact hin.loaded_eq
    rwa [hacct] at hshows

end StateDB

/-! ## In memory -/

namespace Memory

open StateDB

theorem commit_recreated_persists : ∃ σ root s' s'',
    (opened.session lawful).run keccak [.setNonce sampleAddr 5,
      .finalise false (single sampleAddr), .createAccount sampleAddr, .setNonce sampleAddr 1] =
        some σ ∧
    recreated.commit false (single sampleAddr) = some (.ok root, s') ∧
    StateDB.new root s'.db = .ok s'' ∧
    ∀ a, s''.Shows lawful a ((σ.world.finalise keccak false).ledger.accounts a) := by
  have hcovers : recreated.CoversObjects (single sampleAddr) :=
    coversObjects_single (fun _ => recreated_stateObjects) rfl
  obtain ⟨σ, r, s', hσ, -, hcommit, hopen⟩ := commit_persists opened_opened run_recreated
    (not_not.mpr clean_empty) (by decide) recreated_writable hcovers
  have hclean : ((recreated.commit false (single sampleAddr)).map fun p => p.2.db.check) =
      some true := by
    decide +kernel
  rw [hcommit] at hclean
  obtain ⟨root, s'', rfl, hnew, hshows⟩ :=
    hopen (not_not.mpr (clean_of_check (Option.some.inj hclean)))
  exact ⟨σ, root, s', s'', hσ, hcommit, hnew, fun a => hshows a (lawful_known a)⟩

/-- An account with a nonce has been committed, and is reset. -/
def forgotten : StateDB backend :=
  ((((opened.setNonce sampleAddr 5).commit false (single sampleAddr)).map Prod.snd).getD
    opened).createAccount sampleAddr

/-- The reset of a committed account is not written: the account is back with its old nonce. -/
theorem commit_forgets_reset : Run (fun _ op => op.Flag false) opened
      [.setNonce sampleAddr 5, .commit false (single sampleAddr), .createAccount sampleAddr]
      forgotten ∧ forgotten.CoversObjects (single sampleAddr) ∧
    ∃ root s' s'', forgotten.commit false (single sampleAddr) = some (.ok root, s') ∧
      Clean s'.db ∧ StateDB.new root s'.db = .ok s'' ∧
      (forgotten.getNonce sampleAddr).1 = 0 ∧ (s''.getNonce sampleAddr).1 = 5 := by
  have hcovers : (opened.setNonce sampleAddr 5).CoversObjects (single sampleAddr) :=
    coversObjects_single
      (fun a ha => (Function.update_of_ne ha ..).trans (Function.update_of_ne ha ..)) rfl
  have hcovers' : forgotten.CoversObjects (single sampleAddr) :=
    coversObjects_single (fun a ha => (Function.update_of_ne ha ..).trans <|
      (Function.update_of_ne ha ..).trans <| (Function.update_of_ne ha ..).trans <|
      (Function.update_of_ne ha ..).trans (Function.update_of_ne ha ..)) rfl
  have hrun : Run (fun _ op => op.Flag false) opened
      [.setNonce sampleAddr 5, .commit false (single sampleAddr), .createAccount sampleAddr]
      forgotten :=
    .cons trivial trivial rfl <| .cons hcovers rfl rfl <| .cons trivial trivial rfl .nil
  have hnonces : (((forgotten.commit false (single sampleAddr)).bind fun p =>
      p.1.toOption.bind fun root => (StateDB.new root p.2.db).toOption.map fun s'' =>
        (p.2.db.check, (s''.getNonce sampleAddr).1))) = some (true, 5) := by
    decide +kernel
  obtain ⟨⟨r, s'⟩, hcommit, hroot⟩ := Option.bind_eq_some_iff.mp hnonces
  obtain ⟨root, hr, hnew⟩ := Option.bind_eq_some_iff.mp hroot
  obtain ⟨s'', hnew, hval⟩ := Option.map_eq_some_iff.mp hnew
  obtain ⟨hcheck, hnonce⟩ := Prod.mk.inj hval
  exact ⟨hrun, hcovers', root, s', s'', ok_of_toOption hr ▸ hcommit,
    clean_of_check hcheck, ok_of_toOption hnew, by decide, hnonce⟩

end Memory

end Geth.State
