import Geth.State.Verify.Reach

/-!
# Reverting to a snapshot is exact

In a session a snapshot stays as it was saved until it is reverted to or past. So `RevertToSnapshot`
of a revision that is still valid restores every account, the refund counter, the logs and the
preimages. The touched accounts are restored as well, apart from the ripemd precompile, and with
them the root that the end of the transaction produces.
-/

namespace Geth.State

open Lib List Option

namespace Session

variable {keccak : Bytes → Hash} {σ σ' : Session} {id : Nat} {w : World}

/-- The world saved under the id is `w`, unless it is gone for good. -/
def Holds (σ : Session) (id : Nat) (w : World) : Prop :=
  (∀ p ∈ σ.saved, p.1 = id → p.2 = w) ∧ id < σ.nextId

/-- The operation is one that can touch the ripemd precompile without a change. -/
def TouchesRipemd (op : Op) : Prop := op = .addBalance ripemd 0

theorem Holds.step (h : σ.Holds id w) {op : Op} (hop : op.inTransaction = true)
    (hs : σ.step keccak op = some σ') : σ'.Holds id w := by
  cases op with
  | snapshot =>
    cases hs
    refine ⟨fun p hp hid => ?_, Nat.lt_succ_of_lt h.2⟩
    rcases mem_append.mp hp with hp | hp
    · exact h.1 p hp hid
    · rw [mem_singleton.mp hp] at hid
      exact absurd hid (Nat.ne_of_gt h.2)
  | revertToSnapshot revid =>
    obtain ⟨r, -, rfl⟩ := map_eq_some_iff.mp hs
    exact ⟨fun p hp => h.1 p (takeWhile_subset _ hp), h.2⟩
  | finalise d order => cases hop
  | intermediateRoot d order => cases hop
  | commit d order => cases hop
  | _ =>
    cases hs
    exact h

theorem Holds.run (h : σ.Holds id w) {ops : List Op} (hops : ∀ op ∈ ops, op.inTransaction = true)
    (hs : σ.run keccak ops = some σ') : σ'.Holds id w := by
  induction ops generalizing σ with
  | nil =>
    cases hs
    exact h
  | cons op ops ih =>
    obtain ⟨σ1, hstep, hrest⟩ := bind_eq_some_iff.mp hs
    exact ih (h.step (hops op mem_cons_self) hstep)
      (fun op' hmem => hops op' (mem_cons_of_mem _ hmem)) hrest

theorem ripemdTouched_step {op : Op} (hop : op.inTransaction = true) (hr : ¬ TouchesRipemd op)
    (hs : σ.step keccak op = some σ') : σ'.ripemdTouched = σ.ripemdTouched := by
  cases op with
  | addBalance addr amount =>
    cases hs
    have hnot : touchesRipemd keccak σ.world addr amount = false := by
      by_cases haddr : addr = ripemd
      · have hamount : amount ≠ 0 := fun hz => hr (by rw [haddr, hz]; rfl)
        simp [touchesRipemd, hamount]
      · simp [touchesRipemd, haddr]
    simp [hnot]
  | revertToSnapshot revid =>
    obtain ⟨r, -, rfl⟩ := map_eq_some_iff.mp hs
    rfl
  | finalise d order => cases hop
  | intermediateRoot d order => cases hop
  | commit d order => cases hop
  | _ =>
    cases hs
    rfl

theorem ripemdTouched_run {ops : List Op} (hops : ∀ op ∈ ops, op.inTransaction = true)
    (hr : ∀ op ∈ ops, ¬ TouchesRipemd op) (hs : σ.run keccak ops = some σ') :
    σ'.ripemdTouched = σ.ripemdTouched := by
  induction ops generalizing σ with
  | nil =>
    cases hs
    rfl
  | cons op ops ih =>
    obtain ⟨σ1, hstep, hrest⟩ := bind_eq_some_iff.mp hs
    rw [ih (fun op' hmem => hops op' (mem_cons_of_mem _ hmem))
      (fun op' hmem => hr op' (mem_cons_of_mem _ hmem)) hrest]
    exact ripemdTouched_step (hops op mem_cons_self) (hr op mem_cons_self) hstep

end Session

namespace StateDB

variable {B : Backend} {L : Lawful B} {d : Bool} {s s' : StateDB B}

/-- The two states show the same to every getter, for the accounts and slots that the laws hold
for. -/
structure SameView (L : Lawful B) (s s' : StateDB B) : Prop where
  exist : ∀ a, L.Known a → (s'.exist a).1 = (s.exist a).1
  empty : ∀ a, L.Known a → (s'.empty a).1 = (s.empty a).1
  getBalance : ∀ a, L.Known a → (s'.getBalance a).1 = (s.getBalance a).1
  getNonce : ∀ a, L.Known a → (s'.getNonce a).1 = (s.getNonce a).1
  getCode : ∀ a, L.Known a → (s'.getCode a).1.getD [] = (s.getCode a).1.getD []
  getCodeHash : ∀ a, L.Known a → (s'.getCodeHash a).1 = (s.getCodeHash a).1
  getState : ∀ a, L.Known a → ∀ key, L.KnownSlot key →
    (s'.getState a key).1 = (s.getState a key).1
  hasSuicided : ∀ a, L.Known a → (s'.hasSuicided a).1 = (s.hasSuicided a).1
  refund : s'.refund = s.refund
  logs : ∀ hash, s'.getLogs hash = s.getLogs hash
  logSize : s'.logSize = s.logSize
  preimages : s'.preimages = s.preimages

theorem sameView_of_ledger (h : Objects L s) (h' : Objects L s')
    (hledger : s'.ledger L = s.ledger L) : SameView L s s' := by
  have hacct : ∀ a, s'.account L a = s.account L a :=
    fun a => congrFun (congrArg Ledger.accounts hledger) a
  refine ⟨fun a hk => ?_, fun a hk => ?_, fun a hk => ?_, fun a hk => ?_, fun a hk => ?_,
    fun a hk => ?_, fun a hk key hkey => ?_, fun a hk => ?_, congrArg Ledger.refund hledger,
    fun hash => congrFun (congrArg Ledger.logs hledger) hash, congrArg Ledger.logSize hledger,
    congrArg Ledger.preimages hledger⟩
  · rw [(h'.exist hk).1, (h.exist hk).1, hacct]
  · rw [(h'.empty hk).1, (h.empty hk).1, hacct]
  · rw [(h'.getBalance hk).1, (h.getBalance hk).1, hacct]
  · rw [(h'.getNonce hk).1, (h.getNonce hk).1, hacct]
  · rw [(h'.getCode hk).1, (h.getCode hk).1, hacct]
  · rw [(h'.getCodeHash hk).1, (h.getCodeHash hk).1, hacct]
  · rw [(h'.getState hk hkey).1, (h.getState hk hkey).1, hacct]
  · rw [(h'.hasSuicided hk).1, (h.hasSuicided hk).1, hacct]

theorem Refines.revert_saved {n : Nat} {σ : Session} {id : Nat} {w : World} (h : Refines L n s σ)
    (hholds : σ.Holds id w) (hvalid : id ∈ s.validRevisions.map Revision.id) : ∃ s' σ',
    s.revertToSnapshot id = some s' ∧ Refines L n s' σ' ∧ Within L s s' ∧
      σ'.world = w.settle σ.ripemdTouched := by
  obtain ⟨r, hmem, rfl⟩ := mem_map.mp hvalid
  obtain ⟨m, hm, hget⟩ := getElem_of_mem hmem
  have hr : s.validRevisions[m]? = some r := by rw [List.getElem?_eq_getElem hm, hget]
  obtain ⟨s', σ', hs', hσ', href⟩ := h.revertToSnapshot hr
  have hstep : s.step (.revertToSnapshot r.id) = some s' := hs'
  have hknown : Op.Known L (.revertToSnapshot r.id) := trivial
  refine ⟨s', σ', hs', href, h.within rfl hknown hstep, ?_⟩
  obtain ⟨p, hfind, rfl⟩ := map_eq_some_iff.mp hσ'
  have hid : p.1 = r.id := by simpa using List.find?_some hfind
  rw [hholds.1 p (mem_of_find?_eq_some hfind) hid]

theorem Refines.settle_self {n : Nat} {σ : Session} (h : Refines L n s σ) (a : Address) :
    (σ.world.settle σ.ripemdTouched).touched a = decide (0 < s.journal.dirties a) := by
  rw [settle_touched, h.touched, h.ripemd, h.journaled.dirties, ← Bool.decide_and,
    ← Bool.decide_or, decide_eq_decide]
  split <;> simp_all

/-- `RevertToSnapshot` of a revision that is still valid does not panic and restores every
observable of the accounts and slots that the laws hold for, and the root, whatever the operations
since. -/
theorem revertToSnapshot_exact (hs : Reachable L d s) {ops : List Op} {s₂ : StateDB B}
    (hops : ∀ op ∈ ops, op.inTransaction = true) (hk : ∀ op ∈ ops, op.Known L)
    (hrun : Run (fun _ _ => True) s.snapshot.2 ops s₂)
    (hvalid : s.snapshot.1 ∈ s₂.validRevisions.map Revision.id) :
    ∃ s₃, s₂.revertToSnapshot s.snapshot.1 = some s₃ ∧ SameView L s s₃ ∧
      ((∀ op ∈ ops, op ≠ .addBalance ripemd 0) → ∀ flag order order₃, s.CoversDirties order →
        s₃.CoversDirties order₃ → (s₃.intermediateRoot flag order₃).map Prod.fst =
          (s.intermediateRoot flag order).map Prod.fst) := by
  obtain ⟨⟨n, σ, href⟩, -⟩ := hs.sound
  -- the snapshot is held by the session through the run
  have href₁ := href.snapshot
  have hstep : s.step .snapshot = some s.snapshot.2 := rfl
  have hknown : Op.Known L .snapshot := trivial
  have hw₁ := href.within rfl hknown hstep
  have hid : s.snapshot.1 = σ.nextId := href.nextId
  obtain ⟨n₂, σ₂, hσ₂, href₂, hw₂⟩ := href₁.run hops hk hrun
  have hholds : σ₂.Holds s.snapshot.1 σ.world := by
    refine Session.Holds.run ⟨fun p hp hp' => ?_, ?_⟩ hops hσ₂
    · rcases List.mem_append.mp hp with hp | hp
      · obtain ⟨j, hj, hjp⟩ := List.getElem_of_mem hp
        have hlen := href.saved.length_eq
        have hsaved := href.saved.get (hlen ▸ hj) hj
        have hbelow := (href.below _ (List.getElem_mem (hlen ▸ hj))).1
        have heq := hsaved.id
        rw [List.get_eq_getElem, List.get_eq_getElem, hjp, hp', hid, ← href.nextId] at heq
        exact absurd heq (Nat.ne_of_lt hbelow)
      · rw [List.mem_singleton.mp hp]
    · rw [hid]
      exact Nat.lt_succ_self _
  obtain ⟨s₃, σ₃, hrev, href₃, hw₃, hworld⟩ := href₂.revert_saved hholds hvalid
  have hledger : s₃.ledger L = s.ledger L := by
    rw [href₃.ledger, hworld, href.ledger]
    rfl
  refine ⟨s₃, hrev, sameView_of_ledger href.objects href₃.objects hledger, ?_⟩
  intro hripemd flag order order₃ horder horder₃
  have hkept := Session.ripemdTouched_run hops hripemd hσ₂
  have hsame : σ₂.ripemdTouched = σ.ripemdTouched := hkept
  have htouched : (fun a => decide (0 < s₃.journal.dirties a)) =
      fun a => decide (0 < s.journal.dirties a) := by
    funext a
    rw [← href₃.touched, hworld, hsame, href.settle_self]
  have hcontent : L.content .accounts s₃.trie = L.content .accounts s.trie :=
    ((hw₁.trans hw₂).trans hw₃).content
  have hacct : s₃.account L = s.account L := congrArg Ledger.accounts hledger
  rw [href₃.intermediateRoot horder₃, href.intermediateRoot horder, hcontent, htouched, hacct]

end StateDB

/-! ## In memory -/

namespace Memory

open StateDB

/-- An account. -/
def sampleAddr : Address := ⟨List.replicate 19 0 ++ [9], rfl⟩

/-- Changes to an account, with a snapshot that is reverted and one that is not. -/
def sampleOps : List Op :=
  [.setNonce sampleAddr 5, .snapshot, .setState sampleAddr Hash.zero (keccak []),
    .addBalance sampleAddr 7,
    .revertToSnapshot 1, .snapshot, .setCode sampleAddr [1], .suicide sampleAddr]

theorem revertToSnapshot_sample : ∃ s₂ s₃, Run (fun _ _ => True) opened.snapshot.2 sampleOps s₂ ∧
    s₂.revertToSnapshot opened.snapshot.1 = some s₃ ∧ SameView lawful opened s₃ := by
  have hrun : Run (fun _ _ => True) opened.snapshot.2 sampleOps _ :=
    .cons trivial trivial rfl <| .cons trivial trivial rfl <| .cons trivial trivial rfl <|
      .cons trivial trivial rfl <| .cons trivial trivial rfl <| .cons trivial trivial rfl <|
      .cons trivial trivial rfl <| .cons trivial trivial rfl .nil
  obtain ⟨s₃, hrev, hview, -⟩ := revertToSnapshot_exact (opened_reachable true)
    (by decide) (by simp [sampleOps, Op.Known, lawful_known, lawful_knownSlot]) hrun (by decide)
  exact ⟨_, s₃, hrun, hrev, hview⟩

/-- An empty account has been touched and deleted. -/
def emptied : StateDB backend :=
  ((opened.addBalance sampleAddr 0).finalise true (single sampleAddr)).getD opened

/-- Its deleted object has been written. -/
def rewritten : StateDB backend :=
  ((emptied.commit false (single sampleAddr)).map Prod.snd).getD opened

/-- With both values of the flag in one run a revert is not exact: `Finalise(true)` deletes the
empty account, `Commit(false)` writes its deleted object back into the trie, and dropping the object
that was created over it uncovers what is in the trie. -/
theorem revertToSnapshot_uncovers : Run (fun _ _ => True) opened
      [.addBalance sampleAddr 0, .finalise true (single sampleAddr),
        .commit false (single sampleAddr)] rewritten ∧ Clean rewritten.db ∧
    Run (fun _ _ => True) rewritten.snapshot.2 [.createAccount sampleAddr]
      (rewritten.snapshot.2.createAccount sampleAddr) ∧
    ∃ s₃, (rewritten.snapshot.2.createAccount sampleAddr).revertToSnapshot
        rewritten.snapshot.1 = some s₃ ∧
      (rewritten.exist sampleAddr).1 = false ∧ (s₃.exist sampleAddr).1 = true := by
  have hdirties : (opened.addBalance sampleAddr 0).CoversDirties (single sampleAddr) :=
    coversDirties_single (fun a ha => Function.update_of_ne ha ..) rfl (by decide)
      fun a ha => (Function.update_of_ne ha ..).trans (Function.update_of_ne ha ..)
  have hobjects : emptied.CoversObjects (single sampleAddr) :=
    coversObjects_single (fun a ha => (Function.update_of_ne ha ..).trans
      (Function.update_of_ne ha ..)) rfl
  have hrun : Run (fun _ _ => True) opened [.addBalance sampleAddr 0,
      .finalise true (single sampleAddr), .commit false (single sampleAddr)] rewritten :=
    .cons trivial trivial rfl (.cons hdirties trivial rfl (.cons hobjects trivial rfl .nil))
  have hrev : ((rewritten.snapshot.2.createAccount sampleAddr).revertToSnapshot
      rewritten.snapshot.1).map (fun s => (s.exist sampleAddr).1) = some true := by
    decide
  obtain ⟨s₃, hs₃, hexist⟩ := Option.map_eq_some_iff.mp hrev
  exact ⟨hrun, clean_of_check (by decide +kernel), .cons trivial trivial rfl .nil, s₃, hs₃,
    by decide, hexist⟩

end Memory

end Geth.State
