import Geth.State.Verify.Frame
import Geth.State.Verify.Snapshot

/-!
# The trie between transactions

At the end of a transaction the account trie holds the accounts of the ledger, so that `Commit`
writes nothing new into it after `IntermediateRoot`. This needs that every account which
`CreateAccount` has reset is counted by the journal for another change: `resetObjectChange` itself
does not count, `Finalise` passes such an account by, and a later `Commit` may not.
-/

namespace Geth.State

open Lib Function List Option

/-! ## What a journal leaves alone -/

section Concerns

variable {B : Backend} {L : Lawful B} {db : B.Db} {w w' : Ledger} {addr a : Address}

/-- The account that an entry changes when it is undone. -/
def JournalEntry.concerns : JournalEntry B → Option Address
  | .resetObjectChange prev => some prev.address
  | e => e.dirtied

theorem Ledger.accounts_modify {f : Acct → Acct} (h : w.modify addr f = some w')
    (hne : some addr ≠ some a) : w'.accounts a = w.accounts a := by
  obtain ⟨ac, -, rfl⟩ := map_eq_some_iff.mp h
  exact Ledger.accounts_set_of_ne (fun ha => hne (congrArg some ha.symm)) _

theorem accounts_undo {e : JournalEntry B} (h : undo L db w e = some w')
    (hne : e.concerns ≠ some a) : w'.accounts a = w.accounts a := by
  cases e with
  | createObjectChange account =>
    cases h
    exact Ledger.accounts_set_of_ne (fun ha => hne (congrArg some ha.symm)) _
  | resetObjectChange prev =>
    cases h
    exact Ledger.accounts_set_of_ne (fun ha => hne (congrArg some ha.symm)) _
  | suicideChange account prev prevbalance => exact Ledger.accounts_modify h hne
  | balanceChange account prev => exact Ledger.accounts_modify h hne
  | nonceChange account prev => exact Ledger.accounts_modify h hne
  | codeChange account prevcode prevhash => exact Ledger.accounts_modify h hne
  | storageChange account key prevalue => exact Ledger.accounts_modify h hne
  | addLogChange txhash =>
    rw [undo] at h
    split at h
    · cases h
    · cases h
      rfl
  | _ =>
    cases h
    rfl

theorem accounts_unwind {es : List (JournalEntry B)} (h : unwind L db w es = some w')
    (hne : ∀ e ∈ es, e.concerns ≠ some a) : w'.accounts a = w.accounts a := by
  induction es generalizing w with
  | nil =>
    cases h
    rfl
  | cons e es ih =>
    obtain ⟨w1, hundo, hrest⟩ := bind_eq_some_iff.mp h
    rw [ih hrest fun e' he' => hne e' (mem_cons_of_mem _ he')]
    exact accounts_undo hundo (hne e mem_cons_self)

end Concerns

theorem Session.base_step {keccak : Bytes → Hash} {σ σ' : Session} {op : Op}
    (hop : op.inTransaction = true) (hs : σ.step keccak op = some σ') : σ'.base = σ.base := by
  cases op with
  | revertToSnapshot revid =>
    obtain ⟨r, -, rfl⟩ := map_eq_some_iff.mp hs
    rfl
  | finalise d order => cases hop
  | intermediateRoot d order => cases hop
  | commit d order => cases hop
  | _ =>
    cases hs
    rfl

namespace StateDB

variable {B : Backend} {L : Lawful B} {d : Bool} {s s' : StateDB B} {n : Nat} {σ : Session}

/-- Every account that `CreateAccount` has reset is counted by the journal. -/
def ResetsCounted (s : StateDB B) : Prop :=
  ∀ prev, .resetObjectChange prev ∈ s.journal.entries → 0 < s.journal.dirties prev.address

theorem resetsCounted_of_new (hj : s.journal = .new) : s.ResetsCounted := by
  intro prev hmem
  rw [hj] at hmem
  exact absurd hmem not_mem_nil

/-- The journal has counted a change besides the reset, if the entry is one. -/
def resetCounted (s : StateDB B) : JournalEntry B → Bool
  | .resetObjectChange prev => 0 < s.journal.dirties prev.address
  | _ => true

instance (s : StateDB B) : Decidable s.ResetsCounted :=
  decidable_of_iff (s.journal.entries.all s.resetCounted = true) <| by
    rw [List.all_eq_true]
    constructor
    · exact fun h prev hmem => of_decide_eq_true (h _ hmem)
    · intro h e hmem
      cases e with
      | resetObjectChange prev => exact decide_eq_true (h prev hmem)
      | _ => rfl

variable {a : Address} {ac : Option Acct} {c : Option Bytes} {order : Order} {db : B.Db}

theorem Refines.account_eq_base (h : Refines L n s σ) (hreset : s.ResetsCounted)
    (ha : s.journal.dirties a = 0) : s.account L a = σ.base.accounts a := by
  have hnot : ∀ e ∈ s.journal.entries, e.concerns ≠ some a := by
    intro e he hc
    have hdirtied : e.dirtied ≠ some a := by
      intro hd
      have hcount := h.journaled.dirties a
      rw [ha] at hcount
      have hzero : touches s.journal.entries a = 0 := by omega
      have := countP_eq_zero.mp hzero e he
      exact this (decide_eq_true hd)
    cases e with
    | resetObjectChange prev =>
      have hpos := hreset prev he
      rw [Option.some.inj hc, ha] at hpos
      exact Nat.lt_irrefl 0 hpos
    | _ => exact hdirtied hc
  exact (accounts_unwind h.base hnot).symm

/-! ## Accounts in the trie -/

/-- The account trie has the account. If it is marked then the flag `d` does not delete it, and if
not then it is loaded as it is. -/
def InTrie (L : Lawful B) (d : Bool) (db : B.Db) (a : Address) (marked : Bool)
    (c : Option Bytes) : Option Acct → Prop
  | none => c = none
  | some ac => ∃ enc, c = some enc ∧ L.encodeAcct ac = some enc ∧ ac.suicided = false ∧
      (marked = true → ac.dies B.keccak d = false) ∧ (marked = false → loaded L db a c = some ac)

/-- The account trie has the accounts of the ledger `base`. -/
def Synced (L : Lawful B) (d : Bool) (s : StateDB B) (base : Ledger) : Prop :=
  ∀ a, InTrie L d s.db a (s.stateObjectsDirty a) (s.stored L a) (base.accounts a)

theorem InTrie.eq_none {m : Bool} (h : InTrie L d db a m none ac) : ac = none := by
  cases ac with
  | none => rfl
  | some ac =>
    obtain ⟨enc, hc, -⟩ := h
    cases hc

theorem inTrie_written {m : Bool} (hw : ¬ L.Unwritable d ac)
    (hload : m = false → loaded L db a (L.written d ac) = Acct.survivor B.keccak d ac) :
    InTrie L d db a m (L.written d ac) (Acct.survivor B.keccak d ac) := by
  cases ac with
  | none => rfl
  | some ac =>
    cases hdies : ac.dies B.keccak d with
    | true => simp [Lawful.written, Acct.survivor, Option.filter, hdies, InTrie]
    | false =>
      cases henc : L.encodeAcct ac with
      | none => exact absurd ⟨ac, rfl, hdies, henc⟩ hw
      | some enc =>
        have hsui : ac.suicided = false := (Bool.or_eq_false_iff.mp hdies).1
        have hwritten : L.written d (some ac) = some enc := by
          simp [Lawful.written, hdies, henc]
        have hsurvivor : Acct.survivor B.keccak d (some ac) = some ac := by
          simp [Acct.survivor, Option.filter, hdies]
        rw [hwritten, hsurvivor] at hload ⊢
        exact ⟨enc, rfl, henc, hsui, fun _ => hdies, hload⟩

theorem inTrie_loaded (h : Valid L db a c) : InTrie L d db a false c (loaded L db a c) := by
  cases hc : c with
  | none => rfl
  | some enc =>
    rw [hc] at h
    obtain ⟨data, -, -, -, hload, henc⟩ := h.loaded
    rw [hload]
    exact ⟨enc, rfl, henc, rfl, nofun, fun _ => hload⟩

theorem InTrie.loaded_eq (h : InTrie L d db a false c ac) : loaded L db a c = ac := by
  cases ac with
  | none =>
    rw [show c = none from h]
    rfl
  | some ac =>
    obtain ⟨-, -, -, -, -, hload⟩ := h
    exact hload rfl

theorem InTrie.mono {db' : B.Db} (h : InTrie L d db a false c ac) (hvalid : Valid L db a c)
    (hle : L.Le db db') :
    InTrie L d db' a false c ac := by
  cases ac with
  | none => exact h
  | some ac =>
    obtain ⟨enc, hst, henc, hsui, -, hload⟩ := h
    refine ⟨enc, hst, henc, hsui, nofun, fun _ => ?_⟩
    rw [(hvalid.mono hle).2]
    exact hload rfl

theorem Within.synced (h : Within L s s') {base : Ledger} (hsync : Synced L d s base) :
    Synced L d s' base := by
  intro a
  have hin := hsync a
  rw [h.stored, h.db]
  cases hst : s.stored L a with
  | none =>
    rw [hst] at hin
    rw [hin.eq_none]
    rfl
  | some enc =>
    rw [h.marks (by rw [hst]; nofun), ← hst]
    exact hin

theorem Opened.synced (h : Opened L s) : Synced L d s (s.ledger L) := by
  obtain ⟨root, db, hnew, -, hvalid⟩ := h
  simp only [StateDB.new] at hnew
  split at hnew
  · cases hnew
  · cases hnew
    exact fun a => inTrie_loaded (hvalid a)

theorem Finalised.synced {s1 : StateDB B} (h : Finalised L d s s1 order.accounts)
    (href : Refines L n s σ) (hsync : Synced L d s σ.base) (hreset : s.ResetsCounted)
    (horder : s.CoversDirties order) : Synced L d s1 (s1.ledger L) := by
  intro a
  have hdb : s1.db = s.db := by rw [h.rest]
  have hstored : s1.stored L a =
      if a ∈ order.accounts then L.written d (s.account L a) else s.stored L a := by
    have := congrFun h.content a.val
    rw [overlay_val] at this
    simp only [decide_eq_true_eq] at this
    exact this
  have hacct : (s1.ledger L).accounts a =
      if a ∈ order.accounts then Acct.survivor B.keccak d (s.account L a) else s.account L a :=
    h.account a
  rw [hdb, hstored, hacct, h.marked]
  by_cases ha : a ∈ order.accounts
  · rw [if_pos ha, if_pos ha]
    refine inTrie_written (h.writable a ha) fun hm => ?_
    -- without a mark there is no object, and the account is not in the trie
    have hnone : s.stateObjects a = none := by
      rw [decide_eq_true ha, Bool.true_and] at hm
      exact not_isSome_iff_eq_none.mp (Bool.eq_false_iff.mp (Bool.or_eq_false_iff.mp hm).2)
    rcases href.journaled.live ((horder.1.2 a).mp ha) with ⟨o, ho, -⟩ | ⟨-, hst⟩
    · cases hnone.symm.trans ho
    · rw [account_of_absent hnone, hst]
      rfl
  · have hzero : s.journal.dirties a = 0 := Nat.eq_zero_of_not_pos (mt (horder.1.2 a).mpr ha)
    rw [if_neg ha, if_neg ha, href.account_eq_base hreset hzero, decide_eq_false ha,
      Bool.false_and, Bool.or_false]
    exact hsync a

theorem Commits.synced (h : Commits L d s s') (href : Refines L n s σ)
    (hsync : Synced L d s σ.base) (hreset : s.ResetsCounted)
    (hw : ∀ a, s.mergeDirties.commits a = true → ¬ L.Unwritable d (s.account L a)) :
    Synced L d s' (s'.ledger L) := by
  intro a
  have hacct : (s'.ledger L).accounts a = if s.mergeDirties.commits a = true
      then Acct.survivor B.keccak d (s.account L a) else s.account L a := h.account a
  have hstored : s'.stored L a = if s.mergeDirties.commits a = true
      then L.written d (s.account L a) else s.stored L a := by
    have := congrFun h.content a.val
    rw [committed, overlay_val] at this
    exact this
  cases hm' : s'.stateObjectsDirty a with
  | true =>
    -- a mark without an object
    have hst := h.objects.fresh hm' (h.marks hm')
    have hnone : (s'.ledger L).accounts a = none := by
      have := account_of_absent (L := L) (h.marks hm')
      rwa [hst] at this
    rw [hst, hnone]
    rfl
  | false =>
    cases hc : s.mergeDirties.commits a with
    | true =>
      have hload := h.loaded a hc
      have hself : s'.account L a = (s'.ledger L).accounts a := rfl
      rw [hc, if_pos rfl] at hacct hstored
      rw [hself, hacct, hstored] at hload
      rw [hacct, hstored]
      exact inTrie_written (hw a hc) fun _ => hload
    | false =>
      rw [hc, if_neg Bool.false_ne_true] at hacct hstored
      rw [hacct, hstored]
      have hclean : s.stateObjectsDirty a = false → InTrie L d s'.db a false (s.stored L a)
          (s.account L a) := by
        intro hm
        have hvalid := href.objects.clean hm
        cases ho : s.stateObjects a with
        | none =>
          rw [account_of_absent ho, ← (hvalid.mono h.le).2]
          exact inTrie_loaded (hvalid.mono h.le).1
        | some o =>
          have hmark : s.mergeDirties.stateObjectsDirty a = false := by
            have := hc
            simp only [commits, StateDB.mergeDirties, ho] at this
            exact (Bool.or_eq_false_iff.mp this).1
          have hz : ¬ 0 < s.journal.dirties a :=
            of_decide_eq_false (Bool.or_eq_false_iff.mp hmark).2
          have hin := hsync a
          rw [hm] at hin
          rw [href.account_eq_base hreset (Nat.eq_zero_of_not_pos hz)]
          exact hin.mono hvalid h.le
      cases hm : s.stateObjectsDirty a with
      | false => exact hclean hm
      | true =>
        have ho : s.stateObjects a = none := by
          by_contra ho
          obtain ⟨o, ho⟩ := ne_none_iff_exists'.mp ho
          simp [commits, StateDB.mergeDirties, ho, hm] at hc
        have hst := href.objects.fresh hm ho
        rw [account_of_absent ho, hst]
        rfl

/-! ## Runs -/

/-- The invariant of runs without uncounted resets: the state stands for a session, the trie has the
accounts that the transaction has started with, and the deleted objects are dying. -/
structure InSync (L : Lawful B) (d : Bool) (s : StateDB B) (σ : Session) : Prop where
  refines : ∃ n, Refines L n s σ
  synced : Synced L d s σ.base
  dying : Dying L d s

theorem Opened.inSync (h : Opened L s) : InSync L d s (s.session L) :=
  ⟨⟨0, h.refines⟩, h.synced, h.dying⟩

theorem isSome_encodeAcct {o : StateObject B} (h : ObjOk L db a o) :
    (L.encodeAcct (o.acct L db)).isSome = o.data.encode.isSome := by
  have hcode := h.code.hash
  rw [← o.data.isSome_encode_root (L.root .storage (storageMap (o.acct L db).storage))]
  simp [Lawful.encodeAcct, StateObject.acct, h.address, hcode]

theorem dies_acct {o : StateObject B} (h : ObjOk L db a o) :
    (o.acct L db).dies B.keccak d = (o.suicided || d && o.empty) := by
  rw [o.empty_eq h]
  rfl

theorem Objects.keyed (h : Objects L s) : s.Keyed := fun _ _ ho => (h.obj ho).address

theorem Objects.commit_writable (h : Objects L s) {root : Hash} (horder : s.CoversObjects order)
    (hs : s.commit d order = some (.ok root, s')) (hc : s.mergeDirties.commits a = true) :
    ¬ L.Unwritable d (s.account L a) := by
  rintro ⟨x, hacct, hdies, henc⟩
  cases ho : s.stateObjects a with
  | none => simp [commits, StateDB.mergeDirties, ho] at hc
  | some o =>
    have hok := h.obj ho
    cases hdel : o.deleted with
    | true =>
      rw [account_of_deleted ho hdel] at hacct
      cases hacct
    | false =>
      rw [account_of_live ho hdel] at hacct
      cases hacct
      rw [dies_acct hok] at hdies
      have hmark : s.mergeDirties.stateObjectsDirty a = true := by
        have hsui := (Bool.or_eq_false_iff.mp hdies).1
        have hc' : (s.mergeDirties.stateObjectsDirty a || o.suicided) = true := by
          simpa [commits, StateDB.mergeDirties, ho] using hc
        rwa [hsui, Bool.or_false] at hc'
      have hw : writes d s.mergeDirties a o = true := by
        rw [writes, hmark, hdies]
        rfl
      have hsome := (h.keyed.commit_eq_ok horder hs ho hw).2
      rw [← isSome_encodeAcct hok, henc] at hsome
      cases hsome

/-- Accounts that the running transaction has not touched are settled already. -/
theorem Synced.settled (href : Refines L n s σ) (hsync : Synced L d s σ.base)
    (hreset : s.ResetsCounted) (hz : s.journal.dirties a = 0) :
    ¬ L.Unwritable d (s.account L a) ∧ (s.mergeDirties.commits a = true →
      L.written d (s.account L a) = s.stored L a ∧
      Acct.survivor B.keccak d (s.account L a) = s.account L a) := by
  have hin := hsync a
  rw [← href.account_eq_base hreset hz] at hin
  cases hacct : s.account L a with
  | none =>
    rw [hacct] at hin
    exact ⟨nofun, fun _ => ⟨hin.symm, rfl⟩⟩
  | some ac =>
    rw [hacct] at hin
    obtain ⟨enc, hst, henc, hsui, hdies, -⟩ := hin
    refine ⟨?_, fun hc => ?_⟩
    · rintro ⟨x, hx, -, hnone⟩
      cases hx
      cases henc.symm.trans hnone
    · -- the account is marked, since it has not destroyed itself
      have hm : s.stateObjectsDirty a = true := by
        cases ho : s.stateObjects a with
        | none => simp [commits, StateDB.mergeDirties, ho] at hc
        | some o =>
          have hdel : o.deleted = false := by
            by_contra hdel
            rw [account_of_deleted ho (Bool.not_eq_false _ ▸ hdel)] at hacct
            cases hacct
          rw [account_of_live ho hdel] at hacct
          cases hacct
          have hsui' : o.suicided = false := hsui
          simpa [commits, StateDB.mergeDirties, ho, hsui', hz] using hc
      simp [Lawful.written, Acct.survivor, Option.filter, hdies hm, henc, hst]

theorem Commits.session_eq (h : Commits L d s s') (href : Refines L n s σ)
    (hsync : Synced L d s σ.base) (hreset : s.ResetsCounted) :
    s'.session L = σ.finalise B.keccak d := by
  have hacct : s'.account L = fun a => if σ.world.touched a = true
      then Acct.survivor B.keccak d (σ.world.ledger.accounts a)
      else σ.world.ledger.accounts a := by
    funext a
    rw [← href.ledger, href.touched, h.account]
    change _ = if _ then Acct.survivor B.keccak d (s.account L a) else s.account L a
    simp only [decide_eq_true_eq]
    by_cases hpos : 0 < s.journal.dirties a
    · rw [if_pos hpos]
      rcases href.journaled.live hpos with ⟨o, ho, -⟩ | ⟨ho, hst⟩
      · have hc : s.mergeDirties.commits a = true := by
          simp [commits, StateDB.mergeDirties, ho, hpos]
        rw [if_pos hc]
      · have hnone : s.account L a = none := by
          rw [account_of_absent ho, hst, loaded_none]
        rw [hnone]
        exact ite_self none
    · rw [if_neg hpos]
      split
      · next hc =>
        exact ((hsync.settled href hreset (Nat.eq_zero_of_not_pos hpos)).2 hc).2
      · rfl
  have hledger : s'.ledger L = (σ.world.finalise B.keccak d).ledger := by
    have hw := href.ledger
    rw [StateDB.ledger, hacct, h.rest, World.finalise, ← hw]
    rfl
  obtain ⟨h1, h2, h3⟩ := href.tx
  rw [session, hledger, h.rest]
  rw [Session.finalise, ← h1, ← h2, ← h3, ← href.nextId]
  rfl

theorem InSync.step (h : InSync L d s σ) {op : Op} (horders : s.Orders op) (hk : op.Known L)
    (hflag : op.Flag d) (hreset : op.inTransaction = false → s.ResetsCounted)
    (hs : s.step op = some s')
    (hnc : ¬ L.Collided s'.db) : ∃ σ', σ.step B.keccak op = some σ' ∧ InSync L d s' σ' := by
  obtain ⟨⟨n, href⟩, hsync, hdy⟩ := h
  have hin : op.inTransaction = true → ∃ σ', σ.step B.keccak op = some σ' ∧ InSync L d s' σ' := by
    intro hop
    obtain ⟨n', σ', hσ', href'⟩ := href.step hop hk hs
    have hw := href.within hop hk hs
    refine ⟨σ', hσ', ⟨n', href'⟩, ?_, hw.dying hdy⟩
    rw [Session.base_step hop hσ']
    exact hw.synced hsync
  have hfinalise : ∀ {order : Order} {s1 : StateDB B}, s.CoversDirties order →
      s.ResetsCounted → s.finalise d order = some s1 →
        Synced L d s1 (σ.finalise B.keccak d).base ∧ Dying L d s1 := by
    intro order s1 horder hreset hfin
    obtain ⟨s2, hfin2, rfl, href1⟩ := href.finalise_eq horder hfin
    have hbase : s2.clearJournalAndRefund.ledger L = (σ.finalise B.keccak d).base := href1.ledger
    rw [← hbase]
    exact ⟨hfin2.synced href hsync hreset horder, hfin2.dying hdy⟩
  cases op with
  | finalise d' order =>
    obtain rfl : d' = d := hflag
    obtain ⟨-, -, -, href'⟩ := href.finalise_eq horders hs
    obtain ⟨hsync', hdy'⟩ := hfinalise horders (hreset rfl) hs
    exact ⟨_, rfl, ⟨0, href'⟩, hsync', hdy'⟩
  | intermediateRoot d' order =>
    obtain rfl : d' = d := hflag
    obtain ⟨⟨root, t⟩, hroot, rfl⟩ := map_eq_some_iff.mp hs
    obtain ⟨s1, hfin, hr, -, href'⟩ := href.intermediateRoot_eq horders hroot
    obtain ⟨hsync', hdy'⟩ := hfinalise horders (hreset rfl) hfin
    exact ⟨_, rfl, ⟨0, href'⟩, hr.toWithin.synced hsync', hr.toWithin.dying hdy'⟩
  | commit d' order =>
    obtain rfl : d' = d := hflag
    obtain ⟨⟨r, t⟩, hcommit, rfl⟩ := map_eq_some_iff.mp hs
    obtain ⟨rfl, hco⟩ := href.objects.commit href.journaled.live hdy horders hcommit hnc
    have href' := hco.refines
    have hsync' := hco.synced href hsync (hreset rfl) fun a =>
      href.objects.commit_writable horders hcommit
    have hsession := hco.session_eq href hsync (hreset rfl)
    rw [hsession] at href'
    have hbase : t.ledger L = (σ.finalise B.keccak d').base := href'.ledger
    rw [hbase] at hsync'
    exact ⟨_, rfl, ⟨0, href'⟩, hsync', hco.dying⟩
  | _ => exact hin rfl

/-- A run in which all calls use the flag `d` and keys without collisions, no collision occurs, and
no transaction ends with a reset that is not counted. -/
def CountedRun (L : Lawful B) (d : Bool) (s : StateDB B) (ops : List Op) (s' : StateDB B) : Prop :=
  Run (fun t op => op.Known L ∧ op.Flag d ∧ ¬ L.Collided t.db ∧
    (op.inTransaction = false → t.ResetsCounted)) s ops s'

theorem InSync.run {ops : List Op} (h : InSync L d s σ) (hrun : CountedRun L d s ops s')
    (hnc : ¬ L.Collided s'.db) : ∃ σ', σ.run B.keccak ops = some σ' ∧ InSync L d s' σ' := by
  induction hrun generalizing σ with
  | nil => exact ⟨σ, rfl, h⟩
  | @cons s t u op ops horders hC hstep hrest ih =>
    obtain ⟨hk, hflag, -, hreset⟩ := hC
    have hnc1 : ¬ L.Collided t.db := by
      cases hrest with
      | nil => exact hnc
      | cons _ hC' _ _ => exact hC'.2.2.1
    obtain ⟨σ1, hσ1, h1⟩ := h.step horders hk hflag hreset hstep hnc1
    obtain ⟨σ', hσ', h'⟩ := ih h1 hnc
    refine ⟨σ', ?_, h'⟩
    rw [Session.run, hσ1]
    exact hσ'

/-! ## Committing -/

/-- The accounts to be written have an encoding. -/
def Writable (L : Lawful B) (d : Bool) (s : StateDB B) : Prop :=
  ∀ a, 0 < s.journal.dirties a → ¬ L.Unwritable d (s.account L a)

theorem writable_of_new (hj : s.journal = .new) : Writable L d s := by
  rw [Writable, hj]
  exact fun a hpos => absurd hpos (Nat.lt_irrefl 0)

theorem InSync.commit (h : InSync L d s σ) (hreset : s.ResetsCounted) (hw : Writable L d s)
    (horder : s.CoversObjects order) : ∃ r s', s.commit d order = some (r, s') ∧
      (¬ L.Collided s'.db → r = .ok (L.root .accounts (committed L d s)) ∧ Commits L d s s' ∧
        InSync L d s' (σ.finalise B.keccak d)) := by
  obtain ⟨⟨n, href⟩, hsync, hdy⟩ := h
  cases hc : s.commit d order with
  | some p =>
    refine ⟨p.1, p.2, rfl, fun hnc => ?_⟩
    obtain ⟨hr, hco⟩ := href.objects.commit href.journaled.live hdy horder hc hnc
    have hstep : s.step (.commit d order) = some p.2 := by
      rw [StateDB.step, hc]
      rfl
    have hin : InSync L d s σ := ⟨⟨n, href⟩, hsync, hdy⟩
    have horders : s.Orders (.commit d order) := horder
    have hknown : Op.Known L (.commit d order) := trivial
    obtain ⟨σ', hσ', hin'⟩ := hin.step horders hknown rfl (fun _ => hreset) hstep hnc
    cases hσ'
    exact ⟨hr, hco, hin'⟩
  | none =>
    exfalso
    obtain ⟨a, o, ho, hwrites, henc⟩ := href.objects.keyed.commit_eq_none horder hc
    have hok := href.objects.obj ho
    have hdies : (o.acct L s.db).dies B.keccak d = false := by
      rw [dies_acct hok]
      exact (Bool.not_eq_true' _).mp (Bool.and_eq_true_iff.mp hwrites).2
    have hdel : o.deleted = false := by
      by_contra hdel
      rw [hdy ho (by simpa using hdel)] at hdies
      cases hdies
    have hun : L.Unwritable d (s.account L a) := by
      refine ⟨_, account_of_live ho hdel, hdies, ?_⟩
      have hiff := isSome_encodeAcct hok
      rw [henc] at hiff
      exact not_isSome_iff_eq_none.mp (Bool.eq_false_iff.mp hiff)
    by_cases hpos : 0 < s.journal.dirties a
    · exact hw a hpos hun
    · exact (hsync.settled href hreset (Nat.eq_zero_of_not_pos hpos)).1 hun

theorem InSync.committed_eq (h : InSync L d s σ) (hj : s.journal = .new) :
    committed L d s = L.content .accounts s.trie := by
  obtain ⟨⟨n, href⟩, hsync, -⟩ := h
  have hreset := resetsCounted_of_new hj
  funext key
  rw [committed, overlay]
  split
  · next hkey =>
    split
    · next hc =>
      have hz : s.journal.dirties ⟨key, hkey⟩ = 0 := by
        rw [hj]
        rfl
      exact ((hsync.settled href hreset hz).2 hc).1
    · rfl
  · rfl

theorem InSync.intermediateRoot (h : InSync L d s σ) (hreset : s.ResetsCounted)
    (hw : Writable L d s) (horder : s.CoversDirties order) (hnc : ¬ L.Collided s.db) : ∃ s1,
    s.intermediateRoot d order =
        some (L.root .accounts (L.content .accounts s1.trie), s1) ∧
      s1.journal = .new ∧ InSync L d s1 (σ.finalise B.keccak d) := by
  obtain ⟨n, href⟩ := h.refines
  rcases href.finalise (d := d) horder with ⟨-, a, ha, hun⟩ | ⟨s0, hfin, -, -⟩
  · exact absurd hun (hw a ((horder.1.2 a).mp ha))
  · obtain ⟨root, s1, hir⟩ : ∃ root s1, s.intermediateRoot d order = some (root, s1) := by
      rw [StateDB.intermediateRoot, hfin]
      exact ⟨_, _, rfl⟩
    obtain ⟨s2, hfin2, hr, rfl, -⟩ := href.intermediateRoot_eq horder hir
    cases hfin.symm.trans hfin2
    have hstep : s.step (.intermediateRoot d order) = some s1 := by
      rw [StateDB.step, hir]
      rfl
    have hnc1 : ¬ L.Collided s1.db := by
      obtain ⟨s3, hfin3, hs3, -⟩ := href.finalise_eq horder hfin
      rw [hr.db, hs3]
      have hdb : s3.db = s.db := by rw [hfin3.rest]
      exact hdb ▸ hnc
    have horders : s.Orders (.intermediateRoot d order) := horder
    have hknown : Op.Known L (.intermediateRoot d order) := trivial
    obtain ⟨σ', hσ', hin'⟩ := h.step horders hknown rfl (fun _ => hreset) hstep hnc1
    cases hσ'
    refine ⟨s1, ?_, ?_, hin'⟩
    · rw [hir, hr.content]
    · rw [hr.rest]
      rfl

theorem commit_intermediateRoot {s₀ : StateDB B} {ops : List Op} (hopen : Opened L s₀)
    (hrun : CountedRun L d s₀ ops s) (hnc : ¬ L.Collided s.db) (hreset : s.ResetsCounted)
    {order : Order} (horder : s.CoversDirties order) (hw : Writable L d s) :
    ∃ root s₁, s.intermediateRoot d order = some (root, s₁) ∧
      ∀ order₁, s₁.CoversObjects order₁ → ∃ r s₂, s₁.commit d order₁ = some (r, s₂) ∧
        (¬ L.Collided s₂.db → r = .ok root) := by
  obtain ⟨σ, -, hin⟩ := hopen.inSync.run hrun hnc
  obtain ⟨s₁, hir, hj, hin₁⟩ := hin.intermediateRoot hreset hw horder hnc
  refine ⟨_, s₁, hir, fun order₁ horder₁ => ?_⟩
  have hreset₁ := resetsCounted_of_new hj
  obtain ⟨r, s₂, hcommit, hr⟩ := hin₁.commit hreset₁ (writable_of_new hj) horder₁
  refine ⟨r, s₂, hcommit, fun hnc₂ => ?_⟩
  rw [(hr hnc₂).1, hin₁.committed_eq hj]

end StateDB

/-! ## In memory -/

namespace Memory

open StateDB

theorem ok_of_toOption {α ε : Type} {x : Except ε α} {a : α} (h : x.toOption = some a) :
    x = .ok a := by
  cases x with
  | ok b => exact congrArg _ (Option.some.inj h)
  | error err => cases h

/-- An account with a nonce has been written. -/
def written : StateDB backend :=
  ((opened.setNonce sampleAddr 5).finalise false (single sampleAddr)).getD opened

theorem written_stateObjects {a : Address} (ha : a ≠ sampleAddr) : written.stateObjects a = none :=
  (update_of_ne ha ..).trans <| (update_of_ne ha ..).trans <| update_of_ne ha ..

theorem run_written : CountedRun lawful false opened
    [.setNonce sampleAddr 5, .finalise false (single sampleAddr)] written := by
  have hdirties : (opened.setNonce sampleAddr 5).CoversDirties (single sampleAddr) :=
    coversDirties_single (fun a ha => (update_of_ne ha ..).trans (update_of_ne ha ..)) rfl
      (by decide) fun a ha => (update_of_ne ha ..).trans (update_of_ne ha ..)
  exact .cons trivial ⟨lawful_known _, trivial, not_not.mpr clean_empty, nofun⟩ rfl <|
    .cons hdirties ⟨trivial, rfl, not_not.mpr clean_empty, fun _ => by decide⟩ rfl .nil

/-- The account is created again, and gets another nonce. -/
def recreated : StateDB backend := (written.createAccount sampleAddr).setNonce sampleAddr 1

theorem recreated_stateObjects {a : Address} (ha : a ≠ sampleAddr) :
    recreated.stateObjects a = none :=
  (update_of_ne ha ..).trans <| (update_of_ne ha ..).trans <|
    (update_of_ne ha ..).trans (written_stateObjects ha)

theorem recreated_coversDirties : recreated.CoversDirties (single sampleAddr) :=
  coversDirties_single (fun _ => recreated_stateObjects) rfl (by decide)
    fun _ ha => update_of_ne ha ..

theorem stateObjects_intermediateRoot {s s0 s1 : StateDB backend} {d : Bool} {order : Order}
    {root : Hash} (hfin : s.finalise d order = some s0)
    (hroot : s.intermediateRoot d order = some (root, s1)) : s1.stateObjects = s0.stateObjects := by
  rw [intermediateRoot, hfin] at hroot
  cases hroot
  rfl

theorem run_recreated : CountedRun lawful false opened
    [.setNonce sampleAddr 5, .finalise false (single sampleAddr), .createAccount sampleAddr,
      .setNonce sampleAddr 1] recreated :=
  run_written.append <| .cons trivial ⟨lawful_known _, trivial, not_not.mpr clean_empty,
    nofun⟩ rfl <| .cons trivial ⟨lawful_known _, trivial, not_not.mpr clean_empty, nofun⟩ rfl .nil

theorem recreated_writable : Writable lawful false recreated := by
  obtain ⟨σ, -, hin⟩ := opened_opened.inSync.run run_recreated (not_not.mpr clean_empty)
  obtain ⟨n, href⟩ := hin.refines
  rintro a hpos ⟨x, hacct, -, henc⟩
  by_cases ha : a = sampleAddr
  · subst ha
    have hsome : (recreated.stateObjects sampleAddr).map
        (fun o => (o.deleted, o.data.encode.isSome)) = some (false, true) := by
      decide
    obtain ⟨o, ho, hdata⟩ := map_eq_some_iff.mp hsome
    obtain ⟨hdel, hdata⟩ := Prod.mk.inj hdata
    rw [account_of_live ho hdel] at hacct
    cases hacct
    rw [← isSome_encodeAcct (href.objects.obj ho), henc] at hdata
    cases hdata
  · have hzero : recreated.journal.dirties a = 0 := update_of_ne ha ..
    exact absurd hpos (hzero ▸ Nat.lt_irrefl 0)

theorem commit_recreated : ∃ root s₁ s₂,
    recreated.intermediateRoot false (single sampleAddr) = some (root, s₁) ∧
      s₁.commit false (single sampleAddr) = some (.ok root, s₂) := by
  obtain ⟨root, s₁, hroot, hcommit⟩ := commit_intermediateRoot opened_opened
    run_recreated (not_not.mpr clean_empty) (by decide) recreated_coversDirties
    recreated_writable
  have hfin : recreated.finalise false (single sampleAddr) =
      some ((recreated.finalise false (single sampleAddr)).getD opened) := rfl
  have hobj := stateObjects_intermediateRoot hfin hroot
  have hcovers : s₁.CoversObjects (single sampleAddr) := by
    refine coversObjects_single (fun a ha => ?_) ?_
    · rw [hobj]
      exact (Function.update_of_ne ha ..).trans (recreated_stateObjects ha)
    · rw [hobj]
      rfl
  obtain ⟨r, s₂, hcommit, hr⟩ := hcommit (single sampleAddr) hcovers
  have hclean : (((recreated.intermediateRoot false (single sampleAddr)).bind fun p =>
      p.2.commit false (single sampleAddr)).map fun p => p.2.db.check) = some true := by
    decide +kernel
  rw [hroot, Option.bind_some, hcommit] at hclean
  rw [hr (not_not.mpr (clean_of_check (Option.some.inj hclean)))] at hcommit
  exact ⟨root, s₁, s₂, hroot, hcommit⟩

/-- The reset alone is not counted: `IntermediateRoot` leaves the old nonce in the trie, `Commit`
writes the new account. -/
theorem commit_uncounted_reset : Run (fun _ op => op.Flag false) opened
      [.setNonce sampleAddr 5, .finalise false (single sampleAddr), .createAccount sampleAddr]
      (written.createAccount sampleAddr) ∧
    (written.createAccount sampleAddr).CoversDirties ⟨[], fun _ => []⟩ ∧
    ∃ root s₁ root₂ s₂,
      (written.createAccount sampleAddr).intermediateRoot false ⟨[], fun _ => []⟩ =
        some (root, s₁) ∧
      s₁.CoversObjects (single sampleAddr) ∧
      s₁.commit false (single sampleAddr) = some (.ok root₂, s₂) ∧ Clean s₂.db ∧
      root₂ ≠ root := by
  have hrun : Run (fun _ op => op.Flag false) opened
      [.setNonce sampleAddr 5, .finalise false (single sampleAddr), .createAccount sampleAddr]
      (written.createAccount sampleAddr) :=
    (run_written.mono fun _ _ hC => hC.2.1).append (.cons trivial trivial rfl .nil)
  have hothers : ∀ a, a ≠ sampleAddr →
      (written.createAccount sampleAddr).stateObjects a = none := fun a ha =>
    (Function.update_of_ne ha ..).trans <| (Function.update_of_ne ha ..).trans
      (written_stateObjects ha)
  have hdirties : (written.createAccount sampleAddr).CoversDirties ⟨[], fun _ => []⟩ := by
    refine ⟨⟨List.nodup_nil, fun a => ?_⟩, coversStorage_single hothers rfl⟩
    exact ⟨nofun, fun hpos => absurd hpos (Nat.lt_irrefl 0)⟩
  have hroots : (((written.createAccount sampleAddr).intermediateRoot false ⟨[], fun _ => []⟩).bind
      fun p => (p.2.commit false (single sampleAddr)).map fun q =>
        (q.1.toOption.map fun r => decide (r ≠ p.1), q.2.db.check)) = some (some true, true) := by
    decide +kernel
  obtain ⟨⟨root, s₁⟩, hroot, hcommit⟩ := Option.bind_eq_some_iff.mp hroots
  obtain ⟨⟨r, s₂⟩, hcommit, hne⟩ := Option.map_eq_some_iff.mp hcommit
  obtain ⟨hne, hcheck⟩ := Prod.mk.inj hne
  obtain ⟨root₂, hr, hne⟩ := Option.map_eq_some_iff.mp hne
  have hcovers : s₁.CoversObjects (single sampleAddr) := by
    have hobj := stateObjects_intermediateRoot rfl hroot
    refine coversObjects_single (fun a ha => ?_) ?_
    · rw [hobj]
      exact hothers a ha
    · rw [hobj]
      rfl
  exact ⟨hrun, hdirties, root, s₁, root₂, s₂, hroot, hcovers, ok_of_toOption hr ▸ hcommit,
    clean_of_check hcheck, of_decide_eq_true hne⟩

end Memory

end Geth.State
