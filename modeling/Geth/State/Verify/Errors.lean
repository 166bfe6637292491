import Geth.State.Verify.Sync

/-!
# Memoized errors

`Commit` returns the error of an object that it writes. It looks neither at the errors of the other
objects nor at that of the state itself, which only `Error` returns.
-/

namespace Geth.State

open Function Option

namespace StateDB

variable {B : Backend} {s s' : StateDB B} {d : Bool} {order : Order}

/-! ## Objects stay under their addresses -/

namespace Keyed

section

variable (h : s.Keyed)

include h

theorem getStateObject (addr : Address) : (s.getStateObject addr).2.Keyed := by
  rw [StateDB.getStateObject]
  split
  · split <;> exact h
  · dsimp only
    split
    · exact h
    · split
      · exact h
      · exact h.setStateObject _

theorem createObject (addr : Address) : (s.createObject addr).2.2.Keyed := by
  have hget := h.getStateObject addr
  refine setStateObject ?_ _
  split <;> exact hget

theorem getOrNewStateObject (addr : Address) :
    (s.getOrNewStateObject addr).2.Keyed := by
  have hget := h.getStateObject addr
  rw [StateDB.getOrNewStateObject]
  split
  · next o s1 heq =>
    rw [heq] at hget
    split
    · exact hget.createObject addr
    · exact hget
  · next s1 heq =>
    rw [heq] at hget
    exact hget.createObject addr

theorem query (q : Query) : (s.query q).Keyed := by
  cases q with
  | getCode addr =>
    have hget := h.getStateObject addr
    simp only [StateDB.query, StateDB.getCode]
    split
    · exact hget.setStateObject _
    · exact hget
  | getCodeSize addr =>
    have hget := h.getStateObject addr
    simp only [StateDB.query, StateDB.getCodeSize]
    split
    · split <;> exact hget
    · exact hget
  | getState addr key =>
    have hget := h.getStateObject addr
    simp only [StateDB.query, StateDB.getState]
    split
    · exact hget.setStateObject _
    · exact hget
  | exist addr => exact h.getStateObject addr
  | empty addr => exact h.getStateObject addr
  | getBalance addr => exact h.getStateObject addr
  | getNonce addr => exact h.getStateObject addr
  | getCodeHash addr => exact h.getStateObject addr
  | hasSuicided addr => exact h.getStateObject addr

theorem changeObject {addr : Address} {f : StateObject B → StateObject B}
    (hs : s.changeObject addr f = some s') : s'.Keyed := by
  have hget := h.getStateObject addr
  rw [StateDB.changeObject] at hs
  split at hs
  · next o s1 heq =>
    rw [heq] at hget
    cases hs
    exact hget.setStateObject _
  · cases hs

theorem revertEntry {e : JournalEntry B} (hs : s.revertEntry e = some s') :
    s'.Keyed := by
  cases e with
  | createObjectChange account =>
    cases hs
    intro a o ho
    by_cases ha : a = account
    · rw [ha] at ho
      cases (update_self ..).symm.trans ho
    · exact h a o ((update_of_ne ha ..).symm.trans ho)
  | resetObjectChange prev =>
    cases hs
    exact h.setStateObject prev
  | suicideChange account prev prevbalance =>
    have hget := h.getStateObject account
    rw [StateDB.revertEntry] at hs
    split at hs
    · next o s1 heq =>
      rw [heq] at hget
      cases hs
      exact hget.setStateObject _
    · next s1 heq =>
      rw [heq] at hget
      cases hs
      exact hget
  | balanceChange account prev => exact h.changeObject hs
  | nonceChange account prev => exact h.changeObject hs
  | codeChange account prevcode prevhash => exact h.changeObject hs
  | storageChange account key prevalue => exact h.changeObject hs
  | addLogChange txhash =>
    rw [StateDB.revertEntry] at hs
    split at hs
    · cases hs
    · cases hs
      exact h
  | _ =>
    cases hs
    exact h

theorem revertEntries {es : List (JournalEntry B)}
    (hs : s.revertEntries es = some s') : s'.Keyed := by
  induction es generalizing s with
  | nil =>
    cases hs
    exact h
  | cons e es ih =>
    rw [StateDB.revertEntries] at hs
    split at hs
    · cases hs
    · next s1 heq =>
      have h1 := h.revertEntry heq
      refine ih ?_ hs
      exact h1

theorem revertToSnapshot {revid : Nat} (hs : s.revertToSnapshot revid = some s') :
    s'.Keyed := by
  simp only [StateDB.revertToSnapshot] at hs
  split at hs
  · cases hs
  · split at hs
    · cases hs
    · obtain ⟨s1, hs1, rfl⟩ := map_eq_some_iff.mp hs
      obtain ⟨s2, hs2, rfl⟩ := map_eq_some_iff.mp hs1
      have h2 := h.revertEntries hs2
      exact h2

theorem finaliseAddr {addr : Address}
    (hs : finaliseAddr d order s addr = some s') : s'.Keyed := by
  rw [StateDB.finaliseAddr] at hs
  split at hs
  · cases hs
    exact h
  · next o _ =>
    split at hs
    · cases hs
      exact h.setStateObject { o with deleted := true }
    · dsimp only at hs
      split at hs
      · cases hs
      · next s1 hupdate =>
        cases hs
        rw [StateDB.updateStateObject] at hupdate
        split at hupdate
        · cases hupdate
        · cases hupdate
          exact h.setStateObject (o.updateRoot s.db (order.storage addr))

theorem finaliseLoop {addrs : List Address}
    (hs : finaliseLoop d order s addrs = some s') : s'.Keyed := by
  induction addrs generalizing s with
  | nil =>
    cases hs
    exact h
  | cons addr addrs ih =>
    rw [StateDB.finaliseLoop] at hs
    split at hs
    · cases hs
    · next s1 heq => exact ih (h.finaliseAddr heq) hs

theorem finalise (hs : s.finalise d order = some s') : s'.Keyed := by
  obtain ⟨s1, hs1, rfl⟩ := map_eq_some_iff.mp hs
  have h1 := h.finaliseLoop hs1
  exact h1

theorem commit (horder : s.CoversObjects order) {r : Except (StateErr B) Hash}
    (hs : s.commit d order = some (r, s')) : s'.Keyed := by
  have hkeyed : s.mergeDirties.Keyed := h
  obtain ⟨⟨hnodup, hmem⟩, -⟩ := horder
  have hloop := (hkeyed.commitLoop d order hnodup fun a ha => (hmem a).mp ha).2
  rw [StateDB.commit] at hs
  split at hs
  · cases hs
  · next heq =>
    cases hs
    exact (hloop _ _ heq).1
  · next heq =>
    cases hs
    exact (hloop _ _ heq).1

theorem step {op : Op} (horders : s.Orders op) (hs : s.step op = some s') :
    s'.Keyed := by
  have hnew := fun addr => h.getOrNewStateObject addr
  cases op with
  | query q =>
    cases hs
    exact h.query q
  | addBalance addr amount =>
    cases hs
    simp only [StateDB.addBalance]
    split
    · split
      · simp only [StateDB.touch]
        split <;> exact hnew addr
      · exact hnew addr
    · exact (hnew addr).setStateObject _
  | subBalance addr amount =>
    cases hs
    simp only [StateDB.subBalance]
    split
    · exact hnew addr
    · exact (hnew addr).setStateObject _
  | setBalance addr amount =>
    cases hs
    exact (hnew addr).setStateObject _
  | setNonce addr nonce =>
    cases hs
    exact (hnew addr).setStateObject _
  | setCode addr code =>
    cases hs
    exact (hnew addr).setStateObject _
  | setState addr key value =>
    cases hs
    exact (hnew addr).setStateObject _
  | createAccount addr =>
    cases hs
    have hcreate := h.createObject addr
    simp only [StateDB.createAccount]
    split
    · exact hcreate.setStateObject _
    · exact hcreate
  | suicide addr =>
    cases hs
    have hget := h.getStateObject addr
    rw [StateDB.suicide]
    split
    · next heq =>
      rw [heq] at hget
      exact hget
    · next heq =>
      rw [heq] at hget
      exact hget.setStateObject _
  | addRefund gas =>
    cases hs
    exact h
  | addLog log =>
    cases hs
    exact h
  | addPreimage hash preimage =>
    cases hs
    rw [StateDB.addPreimage]
    split <;> exact h
  | prepare thash bhash ti =>
    cases hs
    exact h
  | snapshot =>
    cases hs
    exact h
  | revertToSnapshot revid => exact h.revertToSnapshot hs
  | finalise d order => exact h.finalise hs
  | intermediateRoot d order =>
    obtain ⟨⟨root, t⟩, hroot, rfl⟩ := map_eq_some_iff.mp hs
    rw [StateDB.intermediateRoot] at hroot
    split at hroot
    · cases hroot
    · next hfin =>
      cases hroot
      have h1 := h.finalise hfin
      exact h1
  | commit d order =>
    obtain ⟨⟨r, t⟩, hcommit, rfl⟩ := map_eq_some_iff.mp hs
    exact h.commit horders hcommit

theorem run {C : StateDB B → Op → Prop} {ops : List Op} (hrun : Run C s ops s') :
    s'.Keyed := by
  induction hrun with
  | nil => exact h
  | cons horders _ hstep _ ih => exact ih (h.step horders hstep)

end

end Keyed

theorem keyed_of_new {root : Hash} {db : B.Db} (h : StateDB.new root db = .ok s) : s.Keyed := by
  rw [StateDB.new] at h
  split at h
  · cases h
  · cases h
    intro a o ho
    cases ho

/-! ## What surfaces -/

theorem commit_surfaces {root : Hash} {db : B.Db} {s₀ : StateDB B} {ops : List Op}
    (hnew : StateDB.new root db = .ok s₀) (hrun : Run (fun _ _ => True) s₀ ops s)
    (horder : s.CoversObjects order) {a : Address} {o : StateObject B}
    (ho : s.stateObjects a = some o) (herr : o.dbErr ≠ none)
    (hw : writes d s.mergeDirties a o = true) :
    (∀ root s', s.commit d order ≠ some (.ok root, s')) ∧
    ((∀ a o, s.stateObjects a = some o → writes d s.mergeDirties a o = true →
      o.data.encode ≠ none) → ∃ err s', s.commit d order = some (.error err, s')) := by
  have hkeyed := (keyed_of_new hnew).run hrun
  have hnot : ∀ root s', s.commit d order ≠ some (.ok root, s') :=
    fun root s' hs => herr (hkeyed.commit_eq_ok horder hs ho hw).1
  refine ⟨hnot, fun hencode => ?_⟩
  cases hc : s.commit d order with
  | none =>
    obtain ⟨a', o', ho', hw', henc'⟩ := hkeyed.commit_eq_none horder hc
    exact absurd henc' (hencode a' o' ho' hw')
  | some p =>
    obtain ⟨_ | root, s'⟩ := p
    · exact ⟨_, s', rfl⟩
    · exact absurd hc (hnot root s')

end StateDB

/-! ## In memory -/

namespace Memory

open StateDB

/-- An account in the account trie. -/
def stored (data : Account) : Trie := Trie.empty.set sampleAddr.val (data.encode.getD [])

/-- The state that `New` opens on a database with one account, but without its code. -/
def lost (data : Account) : StateDB backend where
  __ := opened
  db := (⟨[stored data], []⟩ : Db)
  trie := stored data

theorem new_of_openTrie {db : Db} {root : Hash} {t : Trie} (h : db.openTrie root = .ok t) :
    StateDB.new root db = .ok ({ opened with db := db, trie := t } : StateDB backend) := by
  have hopen : backend.openTrie db root = .ok t := h
  simp only [StateDB.new, hopen]
  rfl

theorem new_lost {data : Account} (h : (stored data).hash ≠ Hash.zero) :
    StateDB.new (stored data).hash (⟨[stored data], []⟩ : Db) = .ok (lost data) := by
  apply new_of_openTrie
  rw [Db.openTrie, if_neg h]
  simp

/-- An account without storage, whose code is missing. -/
def codeless : Account := ⟨1, 0, Hash.zero, (keccak [1]).val⟩

/-- The missing code has been read, and the account is changed. -/
def misread : StateDB backend := ((lost codeless).getCode sampleAddr).2.setNonce sampleAddr 7

theorem commit_misread :
    ∃ err s', misread.commit false (single sampleAddr) = some (.error err, s') := by
  have hrun : Run (fun _ _ => True) (lost codeless)
      [.query (.getCode sampleAddr), .setNonce sampleAddr 7] misread :=
    .cons trivial trivial rfl <| .cons trivial trivial rfl .nil
  have hnew := new_lost (show (stored codeless).hash ≠ Hash.zero by decide +kernel)
  have hothers : ∀ a, a ≠ sampleAddr → misread.stateObjects a = none := by
    intro a ha
    exact (Function.update_of_ne ha ..).trans <| (Function.update_of_ne ha ..).trans <|
      Function.update_of_ne ha ..
  have hobj : (misread.stateObjects sampleAddr).map (fun o => (o.dbErr.isSome,
      writes false misread.mergeDirties sampleAddr o, o.data.encode.isSome)) =
        some (true, true, true) := by
    decide
  obtain ⟨o, ho, hval⟩ := Option.map_eq_some_iff.mp hobj
  obtain ⟨herr, hval⟩ := Prod.mk.inj hval
  obtain ⟨hw, henc⟩ := Prod.mk.inj hval
  refine (commit_surfaces hnew hrun (coversObjects_single hothers rfl) ho
    (Option.isSome_iff_ne_none.mp herr) hw).2 fun a u hu _ => ?_
  by_cases ha : a = sampleAddr
  · subst ha
    cases ho.symm.trans hu
    exact Option.isSome_iff_ne_none.mp henc
  · cases (hothers a ha).symm.trans hu

/-- The size of the missing code has been read, and the account is changed. -/
def uncoded : StateDB backend :=
  ((lost codeless).getCodeSize sampleAddr).2.setNonce sampleAddr 7

/-- The error of `GetCodeSize` is memoized in the state only, and `Commit` returns a root. -/
theorem commit_ignores_dbErr :
    StateDB.new (stored codeless).hash (⟨[stored codeless], []⟩ : Db) = .ok (lost codeless) ∧
    Run (fun _ _ => True) (lost codeless)
      [.query (.getCodeSize sampleAddr), .setNonce sampleAddr 7] uncoded ∧
    uncoded.dbErr.isSome ∧ uncoded.CoversObjects (single sampleAddr) ∧
    ∃ root s', uncoded.commit false (single sampleAddr) = some (.ok root, s') := by
  have hothers : ∀ a, a ≠ sampleAddr → uncoded.stateObjects a = none := by
    intro a ha
    exact (Function.update_of_ne ha ..).trans (Function.update_of_ne ha ..)
  have hroot : ((uncoded.commit false (single sampleAddr)).map fun p => p.1.toOption.isSome) =
      some true := by
    decide
  obtain ⟨⟨r, s'⟩, hcommit, hsome⟩ := Option.map_eq_some_iff.mp hroot
  obtain ⟨root, hr⟩ := Option.isSome_iff_exists.mp hsome
  exact ⟨new_lost (by decide +kernel),
    .cons trivial trivial rfl (.cons trivial trivial rfl .nil), by decide,
    coversObjects_single hothers rfl, root, s', ok_of_toOption hr ▸ hcommit⟩

end Memory

end Geth.State
