import Geth.State.Verify.Revert

/-!
# The state database refines its abstract model

`Refines` relates a state to a session: the ledger is that of the session, an account is touched if
the journal counts it, and unwinding the journal to a revision gives the world that the session has
saved. Every operation inside a transaction keeps the relation.
-/

namespace Geth.State

open Lib Function List Option

section Lists

variable {α : Type}

theorem take_append_sub (xs ys : List α) {i : Nat} (hi : i ≤ ys.length) :
    (xs ++ ys).take ((xs ++ ys).length - i) = xs ++ ys.take (ys.length - i) := by
  have hlen : (xs ++ ys).length - i = xs.length + (ys.length - i) := by
    rw [length_append]
    omega
  rw [hlen, take_length_add_append]

theorem drop_append_sub (xs ys : List α) {i : Nat} (hi : i ≤ ys.length) :
    (xs ++ ys).drop ((xs ++ ys).length - i) = ys.drop (ys.length - i) := by
  have hlen : (xs ++ ys).length - i = xs.length + (ys.length - i) := by
    rw [length_append]
    omega
  rw [hlen, drop_length_add_append]

theorem forall₂_take {β : Type} {R S : α → β → Prop} {xs : List α} {ys : List β}
    (h : List.Forall₂ R xs ys) {m : Nat}
    (hS : ∀ j < m, ∀ x y, xs[j]? = some x → ys[j]? = some y → R x y → S x y) :
    List.Forall₂ S (xs.take m) (ys.take m) := by
  induction h generalizing m with
  | nil => simp
  | cons hxy _ ih =>
    cases m with
    | zero => simp
    | succ m =>
      refine .cons (hS 0 (Nat.succ_pos m) _ _ rfl rfl hxy) (ih fun j hj x y hx hy => ?_)
      exact hS (j + 1) (by omega) x y hx hy

end Lists

namespace StateDB

variable {B : Backend}

/-- The revision leads back to the world that was saved for it. -/
structure Saved (L : Lawful B) (n : Nat) (s : StateDB B) (r : Revision) (p : Nat × World) :
    Prop where
  id : r.id = p.1
  index : r.journalIndex ≤ s.journal.entries.length
  ledger : unwind L s.db (s.ledger L)
    (s.journal.entries.take (s.journal.entries.length - r.journalIndex)) = some p.2.ledger
  touched : ∀ a, (p.2.settle (decide (0 < n))).touched a = decide (0 <
    touches (s.journal.entries.drop (s.journal.entries.length - r.journalIndex)) a +
      if a = ripemd then n else 0)

/-- The state stands for the session; `n` counts the touches of the ripemd precompile that a revert
does not take back. -/
structure Refines (L : Lawful B) (n : Nat) (s : StateDB B) (σ : Session) : Prop where
  objects : Objects L s
  journaled : Journaled L n s.journal.entries s
  ledger : s.ledger L = σ.world.ledger
  base : unwind L s.db (s.ledger L) s.journal.entries = some σ.base
  touched : ∀ a, σ.world.touched a = decide (0 < s.journal.dirties a)
  tx : s.thash = σ.thash ∧ s.bhash = σ.bhash ∧ s.txIndex = σ.txIndex
  ripemd : σ.ripemdTouched = decide (0 < n)
  saved : List.Forall₂ (Saved L n s) s.validRevisions σ.saved
  ordered : Ordered s.validRevisions
  below : ∀ r ∈ s.validRevisions, r.id < s.nextRevisionId ∧
    r.journalIndex ≤ s.journal.entries.length
  nextId : s.nextRevisionId = σ.nextId

variable {L : Lawful B} {s s' : StateDB B} {n k : Nat} {es : List (JournalEntry B)}
  {σ : Session}

theorem settle_touched (w : World) (b : Bool) (a : Address) :
    (w.settle b).touched a = (w.touched a || (decide (a = State.ripemd) && b)) := rfl

variable {r : Revision} {p : Nat × World}

theorem Saved.extends (h : Saved L n s r p) (hext : Extends L s s' es k) :
    Saved L (n + k) s' r p := by
  refine ⟨h.id, ?_, ?_, fun a => ?_⟩
  · have hle := h.index
    rw [hext.entries, length_append]
    omega
  · rw [hext.entries, take_append_sub _ _ h.index, unwind_append, hext.db, hext.unwinds]
    exact h.ledger
  · have ht := h.touched a
    rw [hext.entries, drop_append_sub _ _ h.index]
    rw [settle_touched] at ht ⊢
    by_cases ha : a = State.ripemd
    · rw [if_pos ha, decide_eq_true ha, Bool.true_and] at ht ⊢
      -- once a touch stays, it stays
      by_cases hn : 0 < n
      · rw [decide_eq_true (show 0 < n + k by omega), Bool.or_true]
        exact (decide_eq_true (by omega)).symm
      · obtain rfl : n = 0 := by omega
        rw [decide_eq_false (lt_irrefl 0), Bool.or_false, Nat.add_zero] at ht
        rw [ht, Nat.zero_add, ← Bool.decide_or, decide_eq_decide]
        omega
    · rw [if_neg ha, decide_eq_false ha, Bool.false_and, Bool.or_false] at ht ⊢
      exact ht

theorem Refines.extends {σ' : Session} (h : Refines L n s σ) (hext : Extends L s s' es k)
    (hledger : s'.ledger L = σ'.world.ledger)
    (htouched : ∀ a, σ'.world.touched a = (σ.world.touched a || decide (0 < touches es a)))
    (hk : ∀ a, a = State.ripemd → 0 < k → 0 < touches es a)
    (hripemd : σ'.ripemdTouched = (σ.ripemdTouched || decide (0 < k)))
    (hrest : σ'.thash = σ.thash ∧ σ'.bhash = σ.bhash ∧ σ'.txIndex = σ.txIndex ∧
      σ'.saved = σ.saved ∧ σ'.nextId = σ.nextId ∧ σ'.base = σ.base) :
    Refines L (n + k) s' σ' := by
  obtain ⟨h1, h2, h3, h4, h5, h6⟩ := hrest
  obtain ⟨g1, g2, g3, g4, g5⟩ := hext.session
  refine ⟨hext.objects, ?_, hledger, ?_, fun a => ?_, ?_, ?_, ?_, ?_, ?_, ?_⟩
  · rw [hext.entries]
    exact h.journaled.extends hext
  · rw [hext.entries, unwind_append, hext.db, hext.unwinds, h6]
    exact h.base
  · rw [htouched, h.touched, hext.dirties, ← Bool.decide_or, decide_eq_decide]
    by_cases ha : a = State.ripemd
    · have := hk a ha
      rw [if_pos ha]
      omega
    · rw [if_neg ha]
      omega
  · rw [g1, g2, g3, h1, h2, h3]
    exact h.tx
  · rw [hripemd, h.ripemd, ← Bool.decide_or, decide_eq_decide]
    omega
  · rw [g4, h4]
    exact h.saved.imp fun _ _ hs => hs.extends hext
  · rw [g4]
    exact h.ordered
  · rw [g4, g5, hext.entries]
    intro r hr
    have hb := h.below r hr
    rw [length_append]
    exact ⟨hb.1, by omega⟩
  · rw [g5, h5]
    exact h.nextId

theorem Refines.reads (h : Refines L n s σ) (hr : Reads L s s') : Refines L n s' σ := by
  apply h.extends hr.extends
  · rw [hr.ledger]
    exact h.ledger
  · intro a
    rw [touches_nil, decide_eq_false (lt_irrefl 0), Bool.or_false]
  · exact fun _ _ hk => absurd hk (lt_irrefl 0)
  · rw [decide_eq_false (lt_irrefl 0), Bool.or_false]
  · exact ⟨rfl, rfl, rfl, rfl, rfl, rfl⟩

variable {addr : Address}

section

variable (h : Refines L n s σ)

include h

theorem Refines.changes {f : Acct → Acct}
    (hch : Changes L s s' addr f k) (hk : 0 < k → addr = State.ripemd) {b : Bool}
    (hb : b = (σ.ripemdTouched || decide (0 < k))) :
    Refines L (n + k) s' { σ with world := σ.world.change addr f, ripemdTouched := b } := by
  obtain ⟨es, hext, hledger, htouch⟩ := hch
  have hacct : s.account L addr = σ.world.ledger.accounts addr :=
    congrFun (congrArg Ledger.accounts h.ledger) addr
  apply h.extends hext
  · rw [hledger, hacct, h.ledger]
    rfl
  · intro a
    by_cases ha : a = addr
    · rw [decide_eq_true ((htouch a).mpr ha), Bool.or_true, ha]
      exact update_self ..
    · rw [decide_eq_false (mt (htouch a).mp ha), Bool.or_false]
      exact update_of_ne ha ..
  · intro a ha hpos
    rw [htouch a, ha, hk hpos]
  · exact hb
  · exact ⟨rfl, rfl, rfl, rfl, rfl, rfl⟩

theorem Refines.changes_zero {f : Acct → Acct}
    (hch : Changes L s s' addr f 0) :
    Refines L n s' { σ with world := σ.world.change addr f } :=
  h.changes hch (fun h0 => absurd h0 (lt_irrefl 0))
    (by rw [decide_eq_false (lt_irrefl 0), Bool.or_false])

theorem Refines.account (addr : Address) :
    s.account L addr = σ.world.ledger.accounts addr :=
  congrFun (congrArg Ledger.accounts h.ledger) addr

theorem Refines.addBalance (hk : L.Known addr) (amount : Int) : ∃ n',
    Refines L n' (s.addBalance addr amount) { σ with
      world := σ.world.addBalance B.keccak addr amount
      ripemdTouched := σ.ripemdTouched || Session.touchesRipemd B.keccak σ.world addr amount } := by
  have hacct := h.account addr
  rcases h.objects.addBalance hk amount with ⟨hz, he, hr⟩ | ⟨hz, he, hch⟩ | ⟨hz, hch⟩
  · rw [hacct] at he
    refine ⟨n, ?_⟩
    simp only [World.addBalance, Session.touchesRipemd, if_pos hz, he, Bool.false_eq_true, if_false,
      Bool.and_false, Bool.or_false]
    exact h.reads hr
  · rw [hacct] at he
    refine ⟨n + if addr = State.ripemd then 1 else 0, ?_⟩
    simp only [World.addBalance, Session.touchesRipemd, if_pos hz, he, if_true, Bool.and_true,
      decide_eq_true hz]
    apply h.changes hch
    · intro hpos
      by_contra hne
      rw [if_neg hne] at hpos
      exact absurd hpos (lt_irrefl 0)
    · congr 1
      split <;> simp_all
  · refine ⟨n, ?_⟩
    simp only [World.addBalance, Session.touchesRipemd, if_neg hz, decide_eq_false hz,
      Bool.and_false, Bool.false_and, Bool.or_false]
    exact h.changes_zero hch

theorem Refines.subBalance (hk : L.Known addr) (amount : Int) :
    Refines L n (s.subBalance addr amount) { σ with world := σ.world.subBalance addr amount } := by
  have hacct := h.account addr
  rcases h.objects.subBalance hk amount with ⟨hz, he, hr⟩ | ⟨hz, he, hch⟩ | ⟨hz, hch⟩
  · rw [hacct] at he
    obtain ⟨ac, hac⟩ := ne_none_iff_exists'.mp he
    simp only [World.subBalance, if_pos hz, hac]
    exact h.reads hr
  · rw [hacct] at he
    simp only [World.subBalance, if_pos hz, he]
    exact h.changes_zero hch
  · simp only [World.subBalance, if_neg hz]
    exact h.changes_zero hch

theorem Refines.createAccount (hk : L.Known addr) :
    Refines L n (s.createAccount addr) { σ with world := σ.world.createAccount addr } := by
  have hacct := h.account addr
  obtain ⟨es, hext, hledger, htouch⟩ := h.objects.createAccount hk
  rw [hacct] at hledger htouch
  cases hac : σ.world.ledger.accounts addr with
  | none =>
    simp only [World.createAccount, hac]
    apply h.changes_zero
    refine ⟨es, hext, ?_, fun a => ?_⟩
    · rw [hledger, hacct, hac]
      rfl
    · rw [htouch, hac]
      by_cases ha : addr = a
      · simp [ha]
      · simp [ha, Ne.symm ha]
  | some ac =>
    simp only [World.createAccount, hac]
    apply h.extends hext
    · rw [hledger, hac, h.ledger]
      rfl
    · intro a
      rw [htouch, hac, if_neg (fun hn => nomatch hn.1), decide_eq_false (lt_irrefl 0),
        Bool.or_false]
    · exact fun _ _ hk => absurd hk (lt_irrefl 0)
    · rw [decide_eq_false (lt_irrefl 0), Bool.or_false]
    · exact ⟨rfl, rfl, rfl, rfl, rfl, rfl⟩

theorem Refines.suicide (hk : L.Known addr) :
    Refines L n (s.suicide addr).2 { σ with world := σ.world.suicide addr } := by
  have hacct := h.account addr
  rcases h.objects.suicide hk with ⟨hnone, hr⟩ | ⟨ac, hsome, hch⟩
  · rw [hacct] at hnone
    simp only [World.suicide, hnone]
    exact h.reads hr
  · rw [hacct] at hsome
    simp only [World.suicide, hsome]
    exact h.changes_zero hch

theorem Refines.untouched {σ' : Session}
    (hext : ∃ es, Extends L s s' es 0 ∧ ∀ a, touches es a = 0)
    (hledger : s'.ledger L = σ'.world.ledger)
    (hrest : σ' = { σ with world := { σ.world with ledger := σ'.world.ledger } }) :
    Refines L n s' σ' := by
  obtain ⟨es, hext, htouch⟩ := hext
  apply h.extends hext hledger
  · intro a
    rw [htouch, decide_eq_false (lt_irrefl 0), Bool.or_false, hrest]
  · exact fun _ _ hk => absurd hk (lt_irrefl 0)
  · rw [decide_eq_false (lt_irrefl 0), Bool.or_false, hrest]
  · rw [hrest]
    exact ⟨rfl, rfl, rfl, rfl, rfl, rfl⟩

theorem Refines.addRefund (gas : UInt64) :
    Refines L n (s.addRefund gas) { σ with world := { σ.world with
      ledger := { σ.world.ledger with refund := σ.world.ledger.refund + gas } } } := by
  apply h.untouched (h.objects.addRefund gas) _ rfl
  rw [← h.ledger]
  rfl

theorem Refines.addLog (log : Log) :
    Refines L n (s.addLog log) (σ.addLog log) := by
  obtain ⟨h1, h2, h3⟩ := h.tx
  apply h.untouched (h.objects.addLog log) _ rfl
  simp only [Session.addLog, ← h.ledger, ← h1, ← h2, ← h3]
  rfl

theorem Refines.addPreimage (hash : Hash) (preimage : Bytes) :
    Refines L n (s.addPreimage hash preimage) (σ.addPreimage hash preimage) := by
  apply h.untouched (h.objects.addPreimage hash preimage) _ rfl
  simp only [Session.addPreimage, ← h.ledger]
  cases hp : s.preimages hash with
  | none =>
    simp only [StateDB.addPreimage, hp, StateDB.ledger, getD_none]
    rfl
  | some p =>
    have hsame : update s.preimages hash (some p) = s.preimages :=
      update_eq_self_iff.mpr hp.symm
    simp [StateDB.addPreimage, hp, StateDB.ledger, hsame]

end

/-! ## Snapshots -/

theorem Refines.prepare (h : Refines L n s σ) (thash bhash : Hash) (ti : UInt64) :
    Refines L n (s.prepare thash bhash ti)
      { σ with thash := thash, bhash := bhash, txIndex := ti } := by
  have ho := h.objects
  have hj := h.journaled
  exact ⟨⟨ho.trie, ho.obj, ho.clean, ho.fresh, ho.gone⟩, ⟨hj.entriesOk, hj.dirties, hj.live⟩,
    h.ledger, h.base, h.touched, ⟨rfl, rfl, rfl⟩, h.ripemd,
    h.saved.imp fun _ _ hs => ⟨hs.id, hs.index, hs.ledger, hs.touched⟩, h.ordered, h.below,
      h.nextId⟩

theorem Refines.snapshot (h : Refines L n s σ) : Refines L n s.snapshot.2 { σ with
    saved := σ.saved ++ [(σ.nextId, σ.world)]
    nextId := σ.nextId + 1 } := by
  have ho := h.objects
  have hj := h.journaled
  refine ⟨⟨ho.trie, ho.obj, ho.clean, ho.fresh, ho.gone⟩, ⟨hj.entriesOk, hj.dirties, hj.live⟩,
    h.ledger, h.base, h.touched, h.tx, h.ripemd, ?_, ?_, ?_, ?_⟩
  · apply rel_append
    · exact h.saved.imp fun _ _ hs => ⟨hs.id, hs.index, hs.ledger, hs.touched⟩
    · refine .cons ⟨h.nextId, le_rfl, ?_, fun a => ?_⟩ .nil
      · simp only [StateDB.snapshot, Nat.sub_self, take_zero, unwind]
        exact congrArg some h.ledger
      · simp only [StateDB.snapshot, Nat.sub_self, drop_zero]
        rw [settle_touched, h.touched, hj.dirties, ← Bool.decide_and, ← Bool.decide_or,
          decide_eq_decide]
        split <;> simp_all
  · simp only [StateDB.snapshot, Ordered, pairwise_append]
    refine ⟨h.ordered, pairwise_singleton .., fun r hr r' hr' => ?_⟩
    rw [mem_singleton.mp hr']
    exact h.below r hr
  · simp only [StateDB.snapshot]
    intro r hr
    rcases mem_append.mp hr with hr | hr
    · have hb := h.below r hr
      exact ⟨by omega, hb.2⟩
    · rw [mem_singleton.mp hr]
      exact ⟨Nat.lt_succ_self _, le_rfl⟩
  · exact congrArg (· + 1) h.nextId

theorem find?_saved {saved : List (Nat × World)} {m : Nat} (hp : saved[m]? = some p)
    (hne : ∀ j < m, ∀ q, saved[j]? = some q → q.1 ≠ p.1) :
    saved.find? (fun r => r.1 = p.1) = some p ∧
      saved.takeWhile (fun r => r.1 ≠ p.1) = saved.take m := by
  induction saved generalizing m with
  | nil => cases hp
  | cons q qs ih =>
    cases m with
    | zero =>
      cases hp
      simp
    | succ m =>
      have hq : q.1 ≠ p.1 := hne 0 (Nat.succ_pos m) q rfl
      have hqs := ih (m := m) hp fun j hj q' hq' => hne (j + 1) (by omega) q' hq'
      constructor
      · rw [List.find?_cons_of_neg (by simpa using hq)]
        exact hqs.1
      · rw [takeWhile_cons_of_pos (by simpa using hq), take_succ_cons, hqs.2]

theorem Saved.revert (h : Saved L n s r p) (hentries : s.journal.entries = es ++ s'.journal.entries)
    (hdb : s'.db = s.db) (hledger : unwind L s.db (s.ledger L) es = some (s'.ledger L))
    (hindex : r.journalIndex ≤ s'.journal.entries.length) : Saved L n s' r p := by
  have hl := h.ledger
  have ht := h.touched
  rw [hentries, take_append_sub _ _ hindex, unwind_append, hledger] at hl
  rw [hentries, drop_append_sub _ _ hindex] at ht
  rw [← hdb] at hl
  exact ⟨h.id, hindex, hl, ht⟩

theorem Refines.revertToSnapshot (h : Refines L n s σ) {m : Nat}
    (hr : s.validRevisions[m]? = some r) : ∃ s' σ', s.revertToSnapshot r.id = some s' ∧
      σ.revertToSnapshot r.id = some σ' ∧ Refines L n s' σ' := by
  -- the world saved for the revision
  have hlen := h.saved.length_eq
  have hm := (List.getElem?_eq_some_iff.mp hr).1
  obtain ⟨p, hp⟩ : ∃ p, σ.saved[m]? = some p := ⟨_, List.getElem?_eq_getElem (hlen ▸ hm)⟩
  have hget : ∀ {j : Nat} {r' p'}, s.validRevisions[j]? = some r' → σ.saved[j]? = some p' →
      Saved L n s r' p' := by
    intro j r' p' hr' hp'
    obtain ⟨hj, rfl⟩ := List.getElem?_eq_some_iff.mp hr'
    obtain ⟨hj', rfl⟩ := List.getElem?_eq_some_iff.mp hp'
    exact h.saved.get hj hj'
  have hs := hget hr hp
  obtain ⟨s1, hrev, hw, hledger, hj, hentries, h1, h2, h3, h4, h5⟩ :=
    h.objects.revertJournal h.journaled hs.ledger
  have hfind : σ.revertToSnapshot r.id = some { σ with
      world := p.2.settle σ.ripemdTouched, saved := σ.saved.take m } := by
    have hne : ∀ j < m, ∀ q, σ.saved[j]? = some q → q.1 ≠ p.1 := by
      intro j hj q hq
      obtain ⟨r', hr'⟩ : ∃ r', s.validRevisions[j]? = some r' :=
        ⟨_, List.getElem?_eq_getElem (by omega)⟩
      have hlt := (h.ordered.getElem hr' hr hj).1
      rw [← (hget hr' hq).id, ← hs.id]
      omega
    obtain ⟨hf, ht⟩ := find?_saved hp hne
    rw [Session.revertToSnapshot, hs.id, hf, ht]
    rfl
  refine ⟨{ s1 with validRevisions := s1.validRevisions.take m }, _, ?_, hfind, ?_⟩
  · rw [revertToSnapshot_of_valid h.ordered hr, hrev]
    rfl
  · have hlength : (s.journal.entries.drop (s.journal.entries.length - r.journalIndex)).length =
        r.journalIndex := by
      have := hs.index
      rw [length_drop]
      omega
    have hsplit : s.journal.entries = s.journal.entries.take
        (s.journal.entries.length - r.journalIndex) ++ s1.journal.entries := by
      rw [hentries, take_append_drop]
    have hunwind := hs.ledger
    rw [← hledger] at hunwind
    have hindex : ∀ j < m, ∀ r', s.validRevisions[j]? = some r' →
        r'.journalIndex ≤ s1.journal.entries.length := by
      intro j hj r' hr'
      rw [hentries, hlength]
      exact (h.ordered.getElem hr' hr hj).2
    have hsaved : List.Forall₂ (Saved L n s1) (s.validRevisions.take m) (σ.saved.take m) :=
      forall₂_take h.saved fun j hj r' p' hr' _ hs' =>
        hs'.revert hsplit hw.db hunwind (hindex j hj r' hr')
    have ho := hw.objects
    refine ⟨⟨ho.trie, ho.obj, ho.clean, ho.fresh, ho.gone⟩,
      ⟨hj.entriesOk, hj.dirties, hj.live⟩, hledger, ?_, fun a => ?_, ?_, h.ripemd, ?_, ?_, ?_, ?_⟩
    · have hbase := h.base
      rw [hsplit, unwind_append, hunwind, ← hw.db] at hbase
      exact hbase
    · rw [h.ripemd, hs.touched a, hj.dirties, hentries]
    · rw [h1, h2, h3]
      exact h.tx
    · rw [h4]
      exact hsaved.imp fun _ _ hs' => ⟨hs'.id, hs'.index, hs'.ledger, hs'.touched⟩
    · rw [h4]
      exact h.ordered.sublist (take_sublist ..)
    · rw [h4, h5]
      intro r' hr'
      obtain ⟨j, hj', hjr⟩ := getElem_of_mem hr'
      rw [length_take] at hj'
      rw [getElem_take] at hjr
      have hget' : s.validRevisions[j]? = some r' := by
        rw [List.getElem?_eq_getElem (by omega), hjr]
      exact ⟨(h.below r' (mem_of_getElem? hget')).1, hindex j (by omega) r' hget'⟩
    · rw [h5]
      exact h.nextId

/-! ## Steps -/

theorem Refines.step (h : Refines L n s σ) {op : Op} (hop : op.inTransaction = true)
    (hk : op.Known L) (hs : s.step op = some s') :
    ∃ n' σ', σ.step B.keccak op = some σ' ∧ Refines L n' s' σ' := by
  cases op with
  | query q =>
    cases hs
    exact ⟨n, σ, rfl, h.reads (h.objects.query hk)⟩
  | addBalance addr amount =>
    cases hs
    obtain ⟨n', h'⟩ := h.addBalance hk amount
    exact ⟨n', _, rfl, h'⟩
  | subBalance addr amount =>
    cases hs
    exact ⟨n, _, rfl, h.subBalance hk amount⟩
  | setBalance addr amount =>
    cases hs
    exact ⟨n, _, rfl, h.changes_zero (h.objects.setBalance hk amount)⟩
  | setNonce addr nonce =>
    cases hs
    exact ⟨n, _, rfl, h.changes_zero (h.objects.setNonce hk nonce)⟩
  | setCode addr code =>
    cases hs
    exact ⟨n, _, rfl, h.changes_zero (h.objects.setCode hk code)⟩
  | setState addr key value =>
    cases hs
    exact ⟨n, _, rfl, h.changes_zero (h.objects.setState hk.1 hk.2 value)⟩
  | createAccount addr =>
    cases hs
    exact ⟨n, _, rfl, h.createAccount hk⟩
  | suicide addr =>
    cases hs
    exact ⟨n, _, rfl, h.suicide hk⟩
  | addRefund gas =>
    cases hs
    exact ⟨n, _, rfl, h.addRefund gas⟩
  | addLog log =>
    cases hs
    exact ⟨n, _, rfl, h.addLog log⟩
  | addPreimage hash preimage =>
    cases hs
    exact ⟨n, _, rfl, h.addPreimage hash preimage⟩
  | prepare thash bhash ti =>
    cases hs
    exact ⟨n, _, rfl, h.prepare thash bhash ti⟩
  | snapshot =>
    cases hs
    exact ⟨n, _, rfl, h.snapshot⟩
  | revertToSnapshot revid =>
    obtain ⟨m, r, hr, rfl⟩ := valid_of_revertToSnapshot hs
    obtain ⟨s1, σ', hs1, hσ', h'⟩ := h.revertToSnapshot hr
    cases hs1.symm.trans hs
    exact ⟨n, σ', hσ', h'⟩
  | finalise d order => cases hop
  | intermediateRoot d order => cases hop
  | commit d order => cases hop

end StateDB

end Geth.State
