import Geth.Core.TxPool
import Geth.Core.Verify.TxList

/-!
# Transactions that the pool refuses

In a full pool, `add` discards the cheapest remote transactions before it looks whether the new one
replaces another of its sender. If that fails, the transactions that have been discarded are gone.
All other refusals leave the pool as it was.
-/

namespace Geth.Core

open Lib Function List Option

/-! ## Sweeps over the heap -/

namespace TxPricedList

variable {pooled isLocal : TxData → Bool}

/-- The entries of transactions that are in the pool. -/
def live (pooled : TxData → Bool) (l : TxPricedList) : List TxData := l.items.toList.filter pooled

theorem prune_live (fuel : Nat) (l : TxPricedList) :
    ((prune pooled fuel l).live pooled).Perm (l.live pooled) := by
  induction fuel generalizing l with
  | zero => exact Perm.refl _
  | succ fuel ih =>
    rw [prune]
    split
    · exact Perm.refl _
    · next head hhead =>
      split
      · exact Perm.refl _
      · next hstale =>
        split
        · exact Perm.refl _
        · next tx items hpop =>
          have htx : head = tx := by
            rw [Heap.pop_head hpop] at hhead
            exact (Option.some.inj hhead).symm
          subst htx
          have hperm := (Heap.pop_perm priceLess hpop).filter pooled
          rw [filter_cons_of_neg hstale] at hperm
          exact (ih _).trans hperm.symm

theorem underpriced_live (l : TxPricedList) (tx : TxData) :
    ((l.underpriced pooled isLocal tx).2.live pooled).Perm (l.live pooled) := by
  unfold underpriced
  split
  · exact Perm.refl _
  · dsimp only
    split <;> exact prune_live _ l

/-- What the loop of `Discard` makes of the live entries: it drops remote ones, puts local ones
aside, and if it drops none it has been through the whole heap. -/
structure Swept (pooled isLocal : TxData → Bool) (l : TxPricedList) (count : Nat)
    (r : TxPricedList × List TxData × List TxData) : Prop where
  perm : (l.live pooled).Perm (r.2.1 ++ (r.2.2 ++ r.1.live pooled))
  drop : ∀ y ∈ r.2.1, isLocal y = false
  save : ∀ y ∈ r.2.2, pooled y = true ∧ isLocal y = true
  rest : r.2.1 = [] → 0 < count → r.1.items.toList = []

theorem discardLoop_swept (pooled isLocal : TxData → Bool) (fuel count : Nat) (l : TxPricedList)
    (hfuel : l.items.size ≤ fuel) :
    Swept pooled isLocal l count (discardLoop pooled isLocal fuel count l) := by
  induction fuel generalizing count l with
  | zero =>
    have hempty : l.items.toList = [] := by simpa using hfuel
    exact ⟨Perm.refl _, nofun, nofun, fun _ _ => hempty⟩
  | succ fuel ih =>
    cases count with
    | zero => exact ⟨Perm.refl _, nofun, nofun, fun _ h => absurd h (Nat.lt_irrefl 0)⟩
    | succ count =>
      rw [discardLoop]
      split
      · next hpop =>
        refine ⟨Perm.refl _, nofun, nofun, fun _ _ => ?_⟩
        by_contra hne
        obtain ⟨x, h', hsome⟩ := Heap.pop_isSome priceLess (h := l.items)
          fun h => hne (length_eq_zero_iff.1 (by simpa using h))
        rw [hsome] at hpop
        cases hpop
      · next tx items hpop =>
        have hitems := Heap.pop_perm priceLess hpop
        have hlive := hitems.filter pooled
        have hsize : items.size ≤ fuel := by
          have := hitems.length_eq
          simp only [Array.length_toList, length_cons] at this
          omega
        split
        · next hstale =>
          obtain ⟨hperm, hdrop, hsave, hrest⟩ := ih (count + 1) ⟨items, l.stales - 1⟩ hsize
          rw [filter_cons_of_neg (by simpa using hstale)] at hlive
          exact ⟨hlive.trans hperm, hdrop, hsave, hrest⟩
        · next hpooled =>
          rw [filter_cons_of_pos (by simpa using hpooled)] at hlive
          split
          · next hlocal =>
            obtain ⟨hperm, hdrop, hsave, hrest⟩ := ih (count + 1) ⟨items, l.stales⟩ hsize
            refine ⟨(hlive.trans (hperm.cons tx)).trans perm_middle.symm, hdrop, fun y hy => ?_,
              hrest⟩
            rcases mem_cons.1 hy with rfl | hy
            · exact ⟨by simpa using hpooled, hlocal⟩
            · exact hsave y hy
          · next hremote =>
            obtain ⟨hperm, hdrop, hsave, -⟩ := ih count ⟨items, l.stales⟩ hsize
            refine ⟨hlive.trans (hperm.cons tx), fun y hy => ?_, hsave, nofun⟩
            rcases mem_cons.1 hy with rfl | hy
            · simpa using hremote
            · exact hdrop y hy

theorem putBack_perm (l : TxPricedList) (save : List TxData) :
    (l.putBack save).items.toList.Perm (save ++ l.items.toList) := by
  induction save generalizing l with
  | nil => exact Perm.refl _
  | cons tx save ih =>
    refine (ih (l.put tx)).trans ?_
    exact ((Heap.push_perm priceLess l.items tx).append_left save).trans perm_middle

theorem discard_live (pooled isLocal : TxData → Bool) (l : TxPricedList) (count : Nat) :
    (l.live pooled).Perm ((l.discard pooled isLocal count).1 ++
      (l.discard pooled isLocal count).2.live pooled) := by
  obtain ⟨hperm, -, hsave, -⟩ :=
    discardLoop_swept pooled isLocal _ count l (Nat.le_refl _)
  refine hperm.trans (Perm.append_left _ ?_)
  have hback := (putBack_perm (discardLoop pooled isLocal l.items.size count l).1
    (discardLoop pooled isLocal l.items.size count l).2.2).filter pooled
  rw [filter_append, filter_eq_self.2 fun y hy => (hsave y hy).1] at hback
  exact hback.symm

theorem discard_eq_nil_iff (pooled isLocal : TxData → Bool) (l : TxPricedList) {count : Nat}
    (hcount : 0 < count) :
    (l.discard pooled isLocal count).1 = [] ↔ ∀ y ∈ l.live pooled, isLocal y = true := by
  obtain ⟨hperm, hdrop, hsave, hrest⟩ :=
    discardLoop_swept pooled isLocal _ count l (Nat.le_refl _)
  constructor
  · intro hnil y hy
    have hnil' : (discardLoop pooled isLocal l.items.size count l).2.1 = [] := hnil
    rw [hperm.mem_iff, hnil', nil_append, live, hrest hnil' hcount] at hy
    exact (hsave y (by simpa using hy)).2
  · intro hall
    refine eq_nil_iff_forall_not_mem.2 fun y hy => ?_
    have hy' := hall y (hperm.mem_iff.2 (mem_append_left _ hy))
    rw [hdrop y hy] at hy'
    cases hy'

end TxPricedList

/-! ## Refusals -/

theorem TxList.eq_of_add_false {l l' : TxList} {tx : TxData} {bump : UInt64} {old : Option TxData}
    (h : l.add tx bump = (false, old, l')) : l' = l ∧ l.overlaps tx = true := by
  unfold TxList.add at h
  dsimp only at h
  split at h
  · next hany =>
    cases h
    refine ⟨rfl, ?_⟩
    exact ((any_eq_true_iff_get _ _).1 hany).1
  · cases h

namespace TxPool

variable {env : PoolEnv} {pool pool' : TxPool env} {tx : TxData} {fromLocal : Bool} {err : PoolErr}

/-- The entries of the heap for transactions in the pool. -/
def live (pool : TxPool env) : List TxData := pool.priced.live pool.pooled

/-- What a refusal should leave alone. -/
structure Unchanged (pool pool' : TxPool env) : Prop where
  pending : pool'.pending = pool.pending
  queue : pool'.queue = pool.queue
  all : ∀ h, pool'.all.get h = pool.all.get h
  priced : pool'.live.Perm pool.live
  nonces : pool'.pendingState = pool.pendingState

theorem Unchanged.refl (pool : TxPool env) : Unchanged pool pool :=
  ⟨rfl, rfl, fun _ => rfl, Perm.refl _, rfl⟩

/-- The pool is full, and some transaction in the heap may be discarded. -/
def Evicts (pool : TxPool env) : Prop :=
  slots env ≤ pool.all.count.toUInt64 ∧ ∃ y ∈ pool.live, pool.isLocal y = false

theorem validateTx_ne (h : pool.validateTx tx fromLocal = .error err) :
    err ≠ .replaceUnderpriced := by
  unfold validateTx at h
  rintro rfl
  repeat' split at h
  all_goals cases h

theorem enqueueTx_error (h : pool.enqueueTx tx = (.error err, pool')) :
    err = .replaceUnderpriced ∧ pool' = pool := by
  unfold enqueueTx at h
  dsimp only at h
  split at h
  · next hadd =>
    cases h
    obtain ⟨rfl, hover⟩ := TxList.eq_of_add_false hadd
    refine ⟨rfl, ?_⟩
    cases hq : pool.queue (env.origin tx) with
    | none =>
      rw [hq] at hover
      cases hover
    | some list => rw [getD_some, setQueue, ← hq, update_eq_self]
  · cases h

theorem addQueued_error (h : pool.addQueued tx fromLocal = (.error err, pool')) :
    err = .replaceUnderpriced ∧ pool' = pool := by
  unfold addQueued at h
  split at h
  · next henqueue =>
    cases h
    exact enqueueTx_error henqueue
  · cases h

theorem replacePending_error {list : TxList} (hlist : pool.pending (env.origin tx) = some list)
    (h : pool.replacePending tx list = (.error err, pool')) :
    err = .replaceUnderpriced ∧ pool' = pool := by
  unfold replacePending at h
  split at h
  · next hadd =>
    cases h
    obtain ⟨rfl, -⟩ := TxList.eq_of_add_false hadd
    exact ⟨rfl, by rw [setPending, ← hlist, update_eq_self]⟩
  · cases h

theorem underpriced_live (pool : TxPool env) (tx : TxData) (fromLocal : Bool) :
    ((pool.underpriced tx fromLocal).2.live pool.pooled).Perm pool.live := by
  unfold underpriced
  split
  · exact Perm.refl _
  · exact TxPricedList.underpriced_live _ tx

theorem discarded_pos {n : Nat} {s : UInt64} (h : s ≤ n.toUInt64) :
    0 < ((n : Int) - (s - 1).toInt64.toInt).toNat := by
  have hle : s.toNat ≤ n % 2 ^ 64 := by simpa using UInt64.le_iff_toNat_le.1 h
  have hint : (s - 1).toInt64.toInt = if 2 * (s - 1).toNat < 2 ^ 64 then ((s - 1).toNat : Int)
      else ((s - 1).toNat : Int) - (2 ^ 64 : Nat) := BitVec.toInt_eq_toNat_cond _
  have hsub : (s - 1).toNat = (2 ^ 64 - 1 + s.toNat) % 2 ^ 64 := UInt64.toNat_sub s 1
  split at hint <;> omega

theorem makeRoom_error (h : pool.makeRoom tx fromLocal = (.error err, pool')) :
    err ≠ .replaceUnderpriced ∧ Unchanged pool pool' := by
  unfold makeRoom at h
  split at h
  · cases h
  · have hlive := pool.underpriced_live tx fromLocal
    split at h
    · next priced hunder =>
      cases h
      rw [hunder] at hlive
      exact ⟨nofun, rfl, rfl, fun _ => rfl, hlive, rfl⟩
    · cases h

theorem makeRoom_ok (h : pool.makeRoom tx fromLocal = (.ok (), pool')) :
    (¬ pool.Evicts ∧ Unchanged pool pool') ∨ ∃ priced drop d, pool.Evicts ∧ d ∈ pool.live ∧
        pool' = { pool with priced := priced }.removeAll (drop ++ [d]) := by
  unfold makeRoom at h
  split at h
  · next hroom =>
    cases h
    exact .inl ⟨fun he => absurd hroom (UInt64.not_lt.2 he.1), Unchanged.refl pool⟩
  · next hfull =>
    have hlive := pool.underpriced_live tx fromLocal
    split at h
    · cases h
    · next priced hunder =>
      rw [hunder] at hlive
      have hcount := discarded_pos (UInt64.not_lt.1 hfull)
      obtain ⟨drop, q, hdiscard⟩ : ∃ drop q, priced.discard pool.pooled pool.isLocal
          ((pool.all.count : Int) - (slots env - 1).toInt64.toInt).toNat = (drop, q) := ⟨_, _, rfl⟩
      have hperm := TxPricedList.discard_live pool.pooled pool.isLocal priced
        ((pool.all.count : Int) - (slots env - 1).toInt64.toInt).toNat
      have hnil := TxPricedList.discard_eq_nil_iff pool.pooled pool.isLocal priced hcount
      simp only [hdiscard] at h hperm hnil
      cases h
      rcases drop.eq_nil_or_concat' with rfl | ⟨front, d, rfl⟩
      · have hlocal := hnil.1 rfl
        refine .inl ⟨fun ⟨_, y, hy, hremote⟩ => ?_, rfl, rfl, fun _ => rfl, ?_, rfl⟩
        · rw [hlocal y (hlive.mem_iff.2 hy)] at hremote
          cases hremote
        · exact hperm.symm.trans hlive
      · have hne : ¬ ∀ y ∈ priced.live pool.pooled, pool.isLocal y = true :=
          fun hall => by simpa using hnil.2 hall
        push Not at hne
        obtain ⟨y, hy, hremote⟩ := hne
        refine .inr ⟨q, front, d, ⟨UInt64.not_lt.1 hfull, y, hlive.mem_iff.1 hy,
          by simpa using hremote⟩, ?_, rfl⟩
        refine hlive.mem_iff.1 (hperm.mem_iff.2 (mem_append_left _ ?_))
        exact mem_append_right _ mem_cons_self

/-- An addition that is refused ends before room is made, or at a better transaction of the same
sender and nonce. -/
theorem add_error (h : pool.add tx fromLocal = (.error err, pool')) :
    (err ≠ .replaceUnderpriced ∧ Unchanged pool pool') ∨
      err = .replaceUnderpriced ∧ pool.makeRoom tx fromLocal = (.ok (), pool') := by
  unfold add at h
  split at h
  · cases h
    exact .inl ⟨nofun, Unchanged.refl pool⟩
  · split at h
    · next hvalid =>
      cases h
      exact .inl ⟨validateTx_ne hvalid, Unchanged.refl pool⟩
    · split at h
      · next hroom =>
        cases h
        exact .inl (makeRoom_error hroom)
      · next room hroom =>
        have hlast : err = .replaceUnderpriced ∧ pool' = room := by
          split at h
          · exact addQueued_error h
          · next list hlist =>
            split at h
            · exact replacePending_error hlist h
            · exact addQueued_error h
        obtain ⟨rfl, rfl⟩ := hlast
        exact .inr ⟨rfl, hroom⟩

/-! ## Transactions that are gone -/

/-- A transaction is known, or pending. -/
def Holds (pool : TxPool env) (x : TxData) : Prop :=
  pool.all.get (env.hash x) = some x ∨ ∃ a list, pool.pending a = some list ∧ x ∈ list.flatten

/-- No two transactions of the pool have the same hash. -/
def CollisionFree (pool : TxPool env) : Prop :=
  ∀ x y, pool.Holds x → pool.Holds y → env.hash x = env.hash y → x = y

variable {h hash : Hash} {x : TxData}

theorem holds_of_get (hx : pool.all.get h = some x) : pool.Holds x := by
  have hkey : env.hash x = h := pool.all.keyed h x hx
  exact .inl (hkey ▸ hx)

theorem get_remove {t : TxLookup env} (hx : (t.remove hash).get h = some x) :
    h ≠ hash ∧ t.get h = some x := by
  have hne : h ≠ hash := by
    rintro rfl
    cases (AList.lookup_erase h t.all).symm.trans hx
  exact ⟨hne, (AList.lookup_erase_ne hne).symm.trans hx⟩

theorem get_forgetOld (pool : TxPool env) (old : Option TxData) ⦃h : Hash⦄ ⦃x : TxData⦄
    (hx : (pool.forgetOld old).all.get h = some x) : pool.all.get h = some x := by
  cases old with
  | none => exact hx
  | some old => exact (get_remove hx).2

theorem get_enter (hx : (pool.enter tx).all.get h = some x) : pool.all.get h = some x ∨ x = tx := by
  by_cases hh : h = env.hash tx
  · subst hh
    exact .inr (Option.some.inj ((AList.lookup_insert pool.all.all).symm.trans hx)).symm
  · exact .inl ((AList.lookup_insert_ne hh).symm.trans hx)

theorem pending_forgetOld (pool : TxPool env) (old : Option TxData) :
    (pool.forgetOld old).pending = pool.pending := by
  cases old <;> rfl

theorem enqueueTx_frame (pool : TxPool env) (tx : TxData) :
    (pool.enqueueTx tx).2.pending = pool.pending ∧
      ∀ h x, (pool.enqueueTx tx).2.all.get h = some x → pool.all.get h = some x ∨ x = tx := by
  unfold enqueueTx
  dsimp only
  split
  · exact ⟨rfl, fun _ _ => .inl⟩
  · next old list _ =>
    have hold := get_forgetOld (pool.setQueue (env.origin tx) (some list)) old
    split
    · exact ⟨pending_forgetOld _ old, fun _ _ hx => .inl (hold hx)⟩
    · exact ⟨pending_forgetOld _ old, fun _ _ hx => (get_enter hx).imp_left fun hx => hold hx⟩

theorem enqueueAll_frame (pool : TxPool env) (txs : List TxData) :
    (pool.enqueueAll txs).pending = pool.pending ∧
      ∀ h x, (pool.enqueueAll txs).all.get h = some x → pool.all.get h = some x ∨ x ∈ txs := by
  induction txs generalizing pool with
  | nil => exact ⟨rfl, fun _ _ => .inl⟩
  | cons tx txs ih =>
    obtain ⟨hpending, hall⟩ := ih (pool.enqueueTx tx).2
    obtain ⟨hpending', hall'⟩ := pool.enqueueTx_frame tx
    refine ⟨hpending.trans hpending', fun h x hx => ?_⟩
    rcases hall h x hx with hx | hx
    · refine (hall' h x hx).imp_right ?_
      rintro rfl
      exact mem_cons_self
    · exact .inr (mem_cons_of_mem tx hx)

theorem removeQueued_frame (pool : TxPool env) (addr : Address) (tx : TxData) :
    (pool.removeQueued addr tx).pending = pool.pending ∧
      (pool.removeQueued addr tx).all = pool.all := by
  unfold removeQueued
  split <;> exact ⟨rfl, rfl⟩

/-- What `removeTx` leaves: the hash is free, except for pending transactions with a higher nonce
that are put back. -/
structure Removed (pool : TxPool env) (hash : Hash) (pool' : TxPool env) : Prop where
  pending : ∀ a list', pool'.pending a = some list' →
    ∃ list, pool.pending a = some list ∧ ∀ x ∈ list'.flatten, x ∈ list.flatten
  all : ∀ h x, pool'.all.get h = some x → (h ≠ hash ∧ pool.all.get h = some x) ∨
    ∃ t a list, pool.all.get hash = some t ∧ pool.pending a = some list ∧ x ∈ list.flatten ∧
      t.accountNonce < x.accountNonce

theorem removePending_removed {pending list : TxList} {invalids : List TxData} {addr : Address}
    (htx : pool.all.get hash = some tx) (hlist : pool.pending addr = some list)
    (hrem : list.remove tx = (true, invalids, pending)) :
    Removed pool hash
      ({ pool with all := pool.all.remove hash }.removePending addr tx invalids pending) := by
  have hspec := (list.remove_spec tx).2
  rw [hrem] at hspec
  -- the pool with the shortened list, before the invalid transactions are put back
  obtain ⟨cut, hcut⟩ : ∃ cut,
      { pool with all := pool.all.remove hash }.cutPending addr pending = cut := ⟨_, rfl⟩
  have hcutAll : cut.all = pool.all.remove hash := hcut ▸ rfl
  have hcutPending : cut.pending =
      update pool.pending addr (if pending.empty then none else some pending) := hcut ▸ rfl
  obtain ⟨hpending, hall⟩ := enqueueAll_frame
    { cut with choices := (shuffle cut.choices invalids).2 } (shuffle cut.choices invalids).1
  have hback :
    Removed pool hash ({ cut with choices := (shuffle cut.choices invalids).2 }.enqueueAll
      (shuffle cut.choices invalids).1) := by
    refine ⟨fun a list' hl => ?_, fun h x hx => ?_⟩
    · rw [hpending, hcutPending] at hl
      by_cases ha : a = addr
      · subst ha
        rw [update_self] at hl
        split at hl
        · cases hl
        · cases hl
          exact ⟨list, hlist, fun x hx => ((hspec x).2.1 hx).1⟩
      · rw [update_of_ne ha] at hl
        exact ⟨list', hl, fun _ => id⟩
    · rcases hall h x hx with hx | hx
      · rw [hcutAll] at hx
        exact .inl (get_remove hx)
      · obtain ⟨-, -, hmem, hlt⟩ := (hspec x).1.1 ((mem_shuffle _ _ x).1 hx)
        exact .inr ⟨tx, addr, list, htx, hlist, hmem, hlt⟩
  unfold removePending
  rw [hcut]
  dsimp only
  split
  · exact ⟨hback.pending, hback.all⟩
  · exact hback

theorem removeTx_removed (pool : TxPool env) (hash : Hash) :
    Removed pool hash (pool.removeTx hash false) := by
  have hqueued : ∀ addr t, Removed pool hash
      ({ pool with all := pool.all.remove hash }.removeQueued addr t) := by
    intro addr t
    obtain ⟨hpending, hall⟩ := removeQueued_frame { pool with all := pool.all.remove hash } addr t
    refine ⟨fun a list hl => ⟨list, ?_, fun _ => id⟩, fun h x hx => .inl ?_⟩
    · rwa [hpending] at hl
    · rw [hall] at hx
      exact get_remove hx
  unfold removeTx
  split
  · next hnone =>
    refine ⟨fun a list hl => ⟨list, hl, fun _ => id⟩, fun h x hx => .inl ⟨?_, hx⟩⟩
    rintro rfl
    rw [hnone] at hx
    cases hx
  · next t ht =>
    dsimp only
    split
    · exact hqueued _ t
    · next list hlist =>
      split
      · next invalids pending hrem => exact removePending_removed ht hlist hrem
      · exact hqueued _ t

theorem Removed.holds (r : Removed pool hash pool') (h : pool'.Holds x) : pool.Holds x := by
  rcases h with hx | ⟨a, list', hl, hx⟩
  · rcases r.all _ x hx with ⟨-, hx⟩ | ⟨-, a, list, -, hl, hx, -⟩
    · exact .inl hx
    · exact .inr ⟨a, list, hl, hx⟩
  · obtain ⟨list, hl', hsub⟩ := r.pending a list' hl
    exact .inr ⟨a, list, hl', hsub x hx⟩

theorem CollisionFree.removed (c : CollisionFree pool) (r : Removed pool hash pool') :
    CollisionFree pool' ∧ pool'.all.get hash = none := by
  refine ⟨fun x y hx hy => c x y (r.holds hx) (r.holds hy), ?_⟩
  refine eq_none_iff_forall_ne_some.2 fun x hx => ?_
  rcases r.all hash x hx with ⟨hne, -⟩ | ⟨t, a, list, ht, hl, hmem, hlt⟩
  · exact hne rfl
  · have hkey : env.hash x = env.hash t :=
      (pool'.all.keyed hash x hx).trans (pool.all.keyed hash t ht).symm
    have heq := c x t (.inr ⟨a, list, hl, hmem⟩) (holds_of_get ht) hkey
    exact absurd (heq ▸ hlt) (UInt64.lt_irrefl _)

theorem removeAll_concat (pool : TxPool env) (txs : List TxData) (tx : TxData) :
    pool.removeAll (txs ++ [tx]) = (pool.removeAll txs).removeTx (env.hash tx) false := by
  rw [removeAll, foldl_append]
  rfl

theorem CollisionFree.removeAll (c : CollisionFree pool) (txs : List TxData) :
    CollisionFree (pool.removeAll txs) := by
  induction txs generalizing pool with
  | nil => exact c
  | cons tx txs ih => exact ih (c.removed (pool.removeTx_removed (env.hash tx))).1

/-- A transaction that is refused leaves the pool as it was, unless it is refused as a replacement
after other transactions have been discarded; those are gone then. -/
theorem add_refused (h : pool.add tx fromLocal = (.error err, pool')) :
    (¬ (err = .replaceUnderpriced ∧ pool.Evicts) → Unchanged pool pool') ∧
      (pool.CollisionFree → Unchanged pool pool' →
        ¬ (err = .replaceUnderpriced ∧ pool.Evicts)) := by
  rcases add_error h with ⟨hne, hsame⟩ | ⟨rfl, hroom⟩
  · exact ⟨fun _ => hsame, fun _ _ he => hne he.1⟩
  · rcases makeRoom_ok hroom with ⟨hkeep, hsame⟩ | ⟨priced, drop, d, hevicts, hd, rfl⟩
    · exact ⟨fun _ => hsame, fun _ _ he => hkeep he.2⟩
    · refine ⟨fun hnot => absurd ⟨rfl, hevicts⟩ hnot, fun c hsame _ => ?_⟩
      -- the last transaction that was discarded is known before and not after
      have c' : CollisionFree { pool with priced := priced } := c
      have hgone := ((c'.removeAll drop).removed (removeTx_removed _ (env.hash d))).2
      have hknown : (pool.all.get (env.hash d)).isSome = true := (List.mem_filter.1 hd).2
      rw [← hsame.all, removeAll_concat, hgone] at hknown
      cases hknown

namespace Sample

/-- A curve on which the public key of a signature is `r`, which is also the address. -/
def curve : Ecdsa where
  PrivateKey := Unit
  sign _ _ := none
  ecrecover _ sig := some (4 :: sig.take 32)
  fromECDSAPub _ := []
  keccak := bytesToHash

def node : PoolEnv := ⟨curve, ⟨10, 1, 1⟩, .eip155 1⟩

def empty : TxPool node where
  gasPrice := 1
  currentState := ⟨fun _ => 0, fun _ => 10 ^ 9⟩
  pendingState _ := 0
  currentMaxGas := 8000000
  locals := []
  journal := none
  pending _ := none
  queue _ := none
  beats _ := 0
  all := .new
  priced := .new
  homestead := true
  choices := []

/-- A transaction behind a gap, so that it stays in the queue. -/
def offer (sender : UInt8) (price : Int) : TxData :=
  ⟨1, price, 60000, none, 0, [], 27, sender.toNat, 1⟩

/-- One account has a transaction in the pool. -/
def half : TxPool node := (empty.add (offer 1 100) false).2

/-- Two accounts fill the pool. -/
def full : TxPool node := (half.add (offer 2 1) false).2

/-- The first account offers too little to replace its transaction, and that of the second account
is lost. -/
theorem add_loses_other : (full.add (offer 1 101) false).1 = .error .replaceUnderpriced ∧
    full.all.get (node.hash (offer 2 1)) = some (offer 2 1) ∧
    (full.add (offer 1 101) false).2.all.get (node.hash (offer 2 1)) = none := by
  decide

theorem full_collisionFree : full.CollisionFree := by
  have hentries : full.all.all.entries.map Sigma.snd = [offer 2 1, offer 1 100] := by decide
  have hall : ∀ x, full.Holds x → x ∈ [offer 2 1, offer 1 100] := by
    rintro x (hx | ⟨a, list, hl, -⟩)
    · exact hentries ▸ mem_map.2 ⟨_, AList.mem_lookup_iff.1 hx, rfl⟩
    · cases hl
  have hinj : ∀ x ∈ [offer 2 1, offer 1 100], ∀ y ∈ [offer 2 1, offer 1 100],
      node.hash x = node.hash y → x = y := by decide
  exact fun x y hx hy => hinj x (hall x hx) y (hall y hy)

/-- The same offer changes nothing in a pool that has room for it. -/
theorem add_refused_full : full.CollisionFree ∧ full.Evicts ∧
    ¬ Unchanged full (full.add (offer 1 101) false).2 ∧
    (half.add (offer 1 101) false).1 = .error .replaceUnderpriced ∧
    Unchanged half (half.add (offer 1 101) false).2 := by
  have hevicts : full.Evicts := ⟨by decide, offer 2 1, by decide, by decide⟩
  have hroom : ¬ half.Evicts := fun h => absurd h.1 (by decide)
  have hfull : (full.add (offer 1 101) false).1 = .error .replaceUnderpriced := by decide
  have hhalf : (half.add (offer 1 101) false).1 = .error .replaceUnderpriced := by decide
  exact ⟨full_collisionFree, hevicts, fun hsame =>
    (add_refused (Prod.ext hfull rfl)).2 full_collisionFree hsame ⟨rfl, hevicts⟩, hhalf,
    (add_refused (Prod.ext hhalf rfl)).1 fun h => hroom h.2⟩

end Sample

end TxPool

end Geth.Core
