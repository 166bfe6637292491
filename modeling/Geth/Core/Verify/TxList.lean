import Geth.Core.TxList

/-!
# What a list of transactions removes

The caps of a list are not below the cost and the gas of a transaction in it, after any sequence of
operations, so that `Filter` may rely on them instead of looking at every transaction.
-/

namespace Geth.Core

open Lib Option UInt64

namespace TxSortedMap

variable {m : TxSortedMap} {x : TxData}

theorem get_isSome {nonce : UInt64} :
    (m.get nonce).isSome ↔ ∃ tx ∈ m.items, tx.accountNonce = nonce := by
  simp [get, List.find?_isSome]

theorem mem_put {tx : TxData} (h : x ∈ (m.put tx).items) : x = tx ∨ x ∈ m.items := by
  simp only [put, List.mem_append, List.mem_cons, List.mem_filter] at h
  tauto

theorem mem_of_mem_cap {m' : TxSortedMap} {threshold : Int} {drops : List TxData}
    (h : m.cap threshold = some (drops, m')) (hx : x ∈ m'.items) : x ∈ m.items := by
  unfold cap at h
  split at h
  · cases h
    exact hx
  · split at h
    · cases h
    · cases h
      exact List.mem_of_mem_take hx

theorem mem_of_mem_ready {start : UInt64} (hx : x ∈ (m.ready start).2.items) : x ∈ m.items := by
  unfold ready at hx
  split at hx
  · exact hx
  · split at hx
    · exact hx
    · exact List.mem_of_mem_drop hx

theorem mem_of_mem_remove {nonce : UInt64} (hx : x ∈ (m.remove nonce).2.items) : x ∈ m.items := by
  unfold remove at hx
  split at hx
  · exact (List.mem_filter.1 hx).1
  · exact hx

end TxSortedMap

namespace TxList

/-! ## The caps -/

/-- The caps are not below the cost and the gas of a transaction of the list. -/
def Capped (l : TxList) : Prop :=
  ∀ tx ∈ l.flatten, tx.cost ≤ l.costcap ∧ tx.gasLimit ≤ l.gascap

variable {l l' : TxList}

theorem Capped.of_subset (w : l.Capped) (hc : l'.costcap = l.costcap) (hg : l'.gascap = l.gascap)
    (h : ∀ tx ∈ l'.txs.items, tx ∈ l.txs.items) : l'.Capped := by
  intro tx ht
  rw [hc, hg]
  exact w tx (h tx ht)

theorem Capped.add (w : l.Capped) (tx : TxData) (priceBump : UInt64) :
    (l.add tx priceBump).2.2.Capped := by
  unfold TxList.add
  dsimp only
  split
  · exact w
  · intro x hx
    rw [le_iff_toNat_le, toNat_max]
    rcases TxSortedMap.mem_put hx with rfl | hm
    · exact ⟨Int.le_max_right _ _, Nat.le_max_right _ _⟩
    · obtain ⟨hcost, hgas⟩ := w x hm
      exact ⟨hcost.trans (Int.le_max_left _ _), hgas.trans (Nat.le_max_left _ _)⟩

theorem Capped.remove (w : l.Capped) (tx : TxData) : (l.remove tx).2.2.Capped := by
  unfold TxList.remove
  dsimp only
  split
  · exact w
  · split
    · exact w.of_subset rfl rfl fun x hx =>
        TxSortedMap.mem_of_mem_remove (List.mem_filter.1 hx).1
    · exact w.of_subset rfl rfl fun x hx => TxSortedMap.mem_of_mem_remove hx

/-! ## Filter -/

theorem exceeds_eq_false {costLimit : Int} {gasLimit : UInt64} {tx : TxData} :
    exceeds costLimit gasLimit tx = false ↔ tx.cost ≤ costLimit ∧ tx.gasLimit ≤ gasLimit := by
  rw [exceeds, decide_eq_false_iff_not, not_or, UInt64.not_lt, Int.not_lt]

/-- A transaction with the least nonce. -/
def Lowest (txs : List TxData) (low : TxData) : Prop :=
  low ∈ txs ∧ ∀ tx ∈ txs, low.accountNonce ≤ tx.accountNonce

theorem foldl_min (txs : List TxData) (bound : UInt64) :
    (txs.foldl (fun lowest tx => min lowest tx.accountNonce) bound = bound ∧
        ∀ tx ∈ txs, bound ≤ tx.accountNonce) ∨
      ∃ low, Lowest txs low ∧ low.accountNonce < bound ∧
        txs.foldl (fun lowest tx => min lowest tx.accountNonce) bound = low.accountNonce := by
  induction txs generalizing bound with
  | nil => exact .inl ⟨rfl, fun _ h => nomatch h⟩
  | cons tx txs ih =>
    rw [List.foldl_cons]
    by_cases hb : bound ≤ tx.accountNonce
    · have hmin : min bound tx.accountNonce = bound := by
        rw [le_iff_toNat_le] at hb
        rw [← UInt64.toNat_inj, UInt64.toNat_min]
        omega
      rw [hmin]
      rcases ih bound with ⟨he, hall⟩ | ⟨low, ⟨hm, hall⟩, hlt, he⟩
      · exact .inl ⟨he, List.forall_mem_cons.2 ⟨hb, hall⟩⟩
      · refine .inr ⟨low, ⟨List.mem_cons_of_mem tx hm, List.forall_mem_cons.2 ⟨?_, hall⟩⟩, hlt, he⟩
        exact UInt64.le_trans (UInt64.le_of_lt hlt) hb
    · rw [UInt64.not_le] at hb
      have hmin : min bound tx.accountNonce = tx.accountNonce := by
        rw [lt_iff_toNat_lt] at hb
        rw [← UInt64.toNat_inj, UInt64.toNat_min]
        omega
      rw [hmin]
      rcases ih tx.accountNonce with ⟨he, hall⟩ | ⟨low, ⟨hm, hall⟩, hlt, he⟩
      · exact .inr ⟨tx, ⟨List.mem_cons_self,
          List.forall_mem_cons.2 ⟨UInt64.le_refl _, hall⟩⟩, hb, he⟩
      · refine .inr ⟨low, ⟨List.mem_cons_of_mem tx hm,
          List.forall_mem_cons.2 ⟨UInt64.le_of_lt hlt, hall⟩⟩, UInt64.lt_trans hlt hb, he⟩

theorem foldl_min_lowest {txs : List TxData} (h : txs ≠ []) : ∃ low, Lowest txs low ∧
      txs.foldl (fun lowest tx => min lowest tx.accountNonce) 0xffffffffffffffff =
        low.accountNonce := by
  rcases foldl_min txs 0xffffffffffffffff with ⟨he, hall⟩ | ⟨low, hlow, -, he⟩
  · -- all nonces are the greatest one
    obtain ⟨low, hlow⟩ := List.exists_mem_of_ne_nil _ h
    have htop : ∀ nonce : UInt64, nonce ≤ 0xffffffffffffffff := fun nonce =>
      le_iff_toNat_le.2 (Nat.le_of_lt_succ nonce.toNat_lt)
    refine ⟨low, ⟨hlow, fun tx ht => UInt64.le_trans (htop _) (hall tx ht)⟩, he.trans ?_⟩
    exact UInt64.le_antisymm (hall low hlow) (htop _)
  · exact ⟨low, hlow, he⟩

theorem mem_scan (l : TxList) (costLimit : Int) (gasLimit : UInt64) (tx : TxData) :
    (tx ∈ (l.scan costLimit gasLimit).1 ↔ tx ∈ l.flatten ∧ exceeds costLimit gasLimit tx = true) ∧
    (tx ∈ (l.scan costLimit gasLimit).2.1 ↔ l.strict = true ∧ tx ∈ l.flatten ∧
      exceeds costLimit gasLimit tx = false ∧ ∃ low, Lowest (l.scan costLimit gasLimit).1 low ∧
        low.accountNonce < tx.accountNonce) ∧
    (tx ∈ (l.scan costLimit gasLimit).2.2.flatten ↔ tx ∈ l.flatten ∧
      tx ∉ (l.scan costLimit gasLimit).1 ∧ tx ∉ (l.scan costLimit gasLimit).2.1) := by
  unfold scan
  dsimp only
  have hrest : tx ∈ (l.txs.filter (exceeds costLimit gasLimit)).2.items ↔
      tx ∈ l.flatten ∧ exceeds costLimit gasLimit tx = false := by
    change tx ∈ l.txs.items.filter _ ↔ _
    rw [List.mem_filter, Bool.not_eq_true']
    rfl
  have hremoved : tx ∈ (l.txs.filter (exceeds costLimit gasLimit)).1 ↔
      tx ∈ l.flatten ∧ exceeds costLimit gasLimit tx = true := List.mem_filter
  generalize l.txs.filter (exceeds costLimit gasLimit) = found at hrest hremoved ⊢
  split
  · next hstrict =>
    rw [Bool.and_eq_true, Bool.not_eq_true', List.isEmpty_eq_false_iff] at hstrict
    obtain ⟨low, hlow, he⟩ := foldl_min_lowest hstrict.2
    have hinvalid : tx ∈ (found.2.filter fun tx => low.accountNonce < tx.accountNonce).1 ↔
        (tx ∈ l.flatten ∧ exceeds costLimit gasLimit tx = false) ∧
          low.accountNonce < tx.accountNonce := by
      change tx ∈ List.filter _ found.2.items ↔ _
      rw [List.mem_filter, hrest, decide_eq_true_eq]
    have hleft : tx ∈ (found.2.filter fun tx => low.accountNonce < tx.accountNonce).2.items ↔
        (tx ∈ l.flatten ∧ exceeds costLimit gasLimit tx = false) ∧
          ¬ low.accountNonce < tx.accountNonce := by
      change tx ∈ List.filter _ found.2.items ↔ _
      rw [List.mem_filter, hrest, Bool.not_eq_true', decide_eq_false_iff_not]
    have hlowest : ∀ low', Lowest found.1 low' →
        low'.accountNonce = low.accountNonce := fun low' h' =>
      UInt64.le_antisymm (h'.2 low hlow.1) (hlow.2 low' h'.1)
    rw [he, hinvalid]
    refine ⟨hremoved, ?_, ?_⟩
    · constructor
      · exact fun ⟨⟨hm, hx⟩, hlt⟩ => ⟨hstrict.1, hm, hx, low, hlow, hlt⟩
      · rintro ⟨-, hm, hx, low', h', hlt⟩
        exact ⟨⟨hm, hx⟩, hlowest low' h' ▸ hlt⟩
    · refine hleft.trans ?_
      rw [hremoved]
      cases exceeds costLimit gasLimit tx <;> simp +contextual
  · next hstrict =>
    refine ⟨hremoved, ⟨fun h => absurd h List.not_mem_nil, ?_⟩, hrest.trans ?_⟩
    · rintro ⟨hs, -, -, low, ⟨hlow, -⟩, -⟩
      rw [hs, Bool.true_and, Bool.not_eq_true, Bool.not_eq_false', List.isEmpty_iff] at hstrict
      rw [hstrict] at hlow
      cases hlow
    · rw [hremoved]
      cases exceeds costLimit gasLimit tx <;> simp

theorem Capped.filter_eq_scan (w : l.Capped) (costLimit : Int) (gasLimit : UInt64) :
    (l.filter costLimit gasLimit).1 = (l.scan costLimit gasLimit).1 ∧
      (l.filter costLimit gasLimit).2.1 = (l.scan costLimit gasLimit).2.1 ∧
      (l.filter costLimit gasLimit).2.2.flatten = (l.scan costLimit gasLimit).2.2.flatten := by
  rw [TxList.filter]
  split
  · next hcaps =>
    have hnone : ∀ tx ∈ l.txs.items, exceeds costLimit gasLimit tx = false := fun tx ht =>
      exceeds_eq_false.2 ⟨(w tx ht).1.trans hcaps.1, UInt64.le_trans (w tx ht).2 hcaps.2⟩
    have hremoved : (l.txs.filter (exceeds costLimit gasLimit)).1 = [] :=
      List.filter_eq_nil_iff.2 fun tx ht => by rw [hnone tx ht]; exact Bool.false_ne_true
    have hleft : (l.txs.filter (exceeds costLimit gasLimit)).2.items = l.txs.items :=
      List.filter_eq_self.2 fun tx ht => by rw [hnone tx ht]; rfl
    unfold scan
    dsimp only
    rw [hremoved, List.isEmpty_nil, Bool.not_true, Bool.and_false]
    exact ⟨rfl, rfl, hleft.symm⟩
  · exact ⟨rfl, rfl, rfl⟩

theorem Capped.filter (w : l.Capped) (costLimit : Int) (gasLimit : UInt64) :
    (l.filter costLimit gasLimit).2.2.Capped := by
  rw [TxList.filter]
  split
  · exact w
  · have hcaps : (l.scan costLimit gasLimit).2.2.costcap = costLimit ∧
        (l.scan costLimit gasLimit).2.2.gascap = gasLimit := by
      unfold scan
      dsimp only
      split <;> exact ⟨rfl, rfl⟩
    intro tx ht
    obtain ⟨hremoved, -, hleft⟩ := l.mem_scan costLimit gasLimit tx
    obtain ⟨hm, hkept, -⟩ := hleft.1 ht
    rw [hcaps.1, hcaps.2]
    refine exceeds_eq_false.1 ?_
    rw [hremoved, not_and, Bool.not_eq_true] at hkept
    exact hkept hm

/-! ## Runs -/

/-- The operations that change a list. -/
inductive Op where
  | add (tx : TxData) (priceBump : UInt64)
  | forward (threshold : UInt64)
  | filter (costLimit : Int) (gasLimit : UInt64)
  | cap (threshold : Int)
  | remove (tx : TxData)
  | ready (start : UInt64)

def step (l : TxList) : Op → Option TxList
  | .add tx priceBump => some (l.add tx priceBump).2.2
  | .forward threshold => some (l.forward threshold).2
  | .filter costLimit gasLimit => some (l.filter costLimit gasLimit).2.2
  | .cap threshold => (l.cap threshold).map Prod.snd
  | .remove tx => some (l.remove tx).2.2
  | .ready start => some (l.ready start).2

theorem Capped.step (w : l.Capped) {op : Op} (h : l.step op = some l') : l'.Capped := by
  cases op with
  | add tx priceBump => exact Option.some.inj h ▸ w.add tx priceBump
  | forward threshold =>
    cases h
    exact w.of_subset rfl rfl fun x hx => (List.mem_filter.1 hx).1
  | filter costLimit gasLimit => exact Option.some.inj h ▸ w.filter costLimit gasLimit
  | cap threshold =>
    simp only [TxList.step, TxList.cap, map_map, map_eq_some_iff] at h
    obtain ⟨⟨drops, txs⟩, hcap, rfl⟩ := h
    exact w.of_subset rfl rfl fun x hx => TxSortedMap.mem_of_mem_cap hcap hx
  | remove tx => exact Option.some.inj h ▸ w.remove tx
  | ready start =>
    cases h
    exact w.of_subset rfl rfl fun x hx => TxSortedMap.mem_of_mem_ready hx

theorem Capped.run (w : l.Capped) {ops : List Op} (h : ops.foldlM TxList.step l = some l') :
    l'.Capped := by
  induction ops generalizing l with
  | nil => exact Option.some.inj h ▸ w
  | cons op ops ih =>
    rw [List.foldlM_cons, bind_eq_bind, bind_eq_some_iff] at h
    obtain ⟨l1, h1, h2⟩ := h
    exact ih (w.step h1) h2

theorem remove_spec (l : TxList) (tx : TxData) :
    ((l.remove tx).1 = true ↔ ∃ x ∈ l.flatten, x.accountNonce = tx.accountNonce) ∧
    ∀ x, (x ∈ (l.remove tx).2.1 ↔ (l.remove tx).1 = true ∧ l.strict = true ∧ x ∈ l.flatten ∧
        tx.accountNonce < x.accountNonce) ∧
      (x ∈ (l.remove tx).2.2.flatten ↔ x ∈ l.flatten ∧ x.accountNonce ≠ tx.accountNonce ∧
        x ∉ (l.remove tx).2.1) := by
  have hfound := @TxSortedMap.get_isSome l.txs tx.accountNonce
  have hne : ∀ x : TxData, tx.accountNonce < x.accountNonce → x.accountNonce ≠ tx.accountNonce :=
    fun x h => (UInt64.ne_of_lt h).symm
  unfold remove TxSortedMap.remove flatten
  by_cases h : (l.txs.get tx.accountNonce).isSome = true
  · rw [if_pos h]
    by_cases hs : l.strict = true
    · simp only [hs, Bool.not_true, Bool.false_eq_true, if_false, if_true, TxSortedMap.filter,
        TxSortedMap.keep, List.mem_filter, decide_eq_true_eq, Bool.not_eq_true',
        decide_eq_false_iff_not, true_and]
      refine ⟨iff_of_true trivial (hfound.1 h), fun x => ⟨?_, ?_⟩⟩
      · exact ⟨fun hx => ⟨hx.1.1, hx.2⟩, fun hx => ⟨⟨hx.1, hne x hx.2⟩, hx.2⟩⟩
      · tauto
    · simp only [hs, Bool.not_true, Bool.false_eq_true, if_false, TxSortedMap.keep,
        List.mem_filter, decide_eq_true_eq, false_and, and_false, List.not_mem_nil,
        not_false_eq_true, and_true, true_iff]
      exact ⟨hfound.1 h, fun x => trivial⟩
  · rw [if_neg h]
    have hnone : ∀ x ∈ l.txs.items, x.accountNonce ≠ tx.accountNonce :=
      fun x hx e => h (hfound.2 ⟨x, hx, e⟩)
    simp only [Bool.not_false, if_true, Bool.false_eq_true, false_and, List.not_mem_nil,
      false_iff, not_false_eq_true, and_true, not_exists, not_and, true_and]
    exact ⟨hnone, fun x => ⟨fun hx => ⟨hx, hnone x hx⟩, And.left⟩⟩

/-- After any sequence of operations the caps bound the list, so that `Filter` does what a full scan
does: it removes what exceeds a limit and, if the list is strict, what comes after the lowest nonce
removed. `Remove` from a strict list invalidates the higher nonces. -/
theorem filter_exact (strict : Bool) (ops : List Op) (l : TxList)
    (h : ops.foldlM step (new strict) = some l) :
    l.Capped ∧ (∀ costLimit gasLimit,
        ((l.filter costLimit gasLimit).1 = (l.scan costLimit gasLimit).1 ∧
          (l.filter costLimit gasLimit).2.1 = (l.scan costLimit gasLimit).2.1 ∧
          (l.filter costLimit gasLimit).2.2.flatten = (l.scan costLimit gasLimit).2.2.flatten) ∧
        ∀ tx, (tx ∈ (l.filter costLimit gasLimit).1 ↔
            tx ∈ l.flatten ∧ (costLimit < tx.cost ∨ gasLimit < tx.gasLimit)) ∧
          (tx ∈ (l.filter costLimit gasLimit).2.1 ↔ l.strict = true ∧ tx ∈ l.flatten ∧
            tx ∉ (l.filter costLimit gasLimit).1 ∧
            ∃ low, Lowest (l.filter costLimit gasLimit).1 low ∧
              low.accountNonce < tx.accountNonce) ∧
          (tx ∈ (l.filter costLimit gasLimit).2.2.flatten ↔ tx ∈ l.flatten ∧
            tx ∉ (l.filter costLimit gasLimit).1 ∧ tx ∉ (l.filter costLimit gasLimit).2.1)) ∧
      ∀ tx, ((l.remove tx).1 = true ↔ ∃ x ∈ l.flatten, x.accountNonce = tx.accountNonce) ∧
        ∀ x, (x ∈ (l.remove tx).2.1 ↔ (l.remove tx).1 = true ∧ l.strict = true ∧ x ∈ l.flatten ∧
            tx.accountNonce < x.accountNonce) ∧
          (x ∈ (l.remove tx).2.2.flatten ↔ x ∈ l.flatten ∧ x.accountNonce ≠ tx.accountNonce ∧
            x ∉ (l.remove tx).2.1) := by
  have w : l.Capped := Capped.run (fun _ hx => absurd hx List.not_mem_nil) h
  refine ⟨w, fun costLimit gasLimit => ?_, l.remove_spec⟩
  obtain ⟨h₁, h₂, h₃⟩ := w.filter_eq_scan costLimit gasLimit
  refine ⟨⟨h₁, h₂, h₃⟩, fun tx => ?_⟩
  obtain ⟨hremoved, hinvalid, hleft⟩ := l.mem_scan costLimit gasLimit tx
  rw [h₁, h₂, h₃, hleft, hinvalid, hremoved, exceeds, decide_eq_true_eq, decide_eq_false_iff_not]
  refine ⟨Iff.rfl, and_congr_right fun _ => and_congr_right fun hm => ?_, Iff.rfl⟩
  rw [not_and]
  exact and_congr_left' ⟨fun hx _ => hx, fun hx => hx hm⟩

/-- A transfer of some value, as the list sees it. -/
def transfer (nonce : UInt64) (amount : Int) : TxData :=
  ⟨nonce, 1, 21000, none, amount, [], 27, 1, 1⟩

def transfers : List Op :=
  [.add (transfer 0 5) 10, .add (transfer 1 900) 10, .add (transfer 2 7) 10]

/-- The second of three transactions is too expensive, so that the third is invalid. -/
theorem filter_exact_strict : ∃ l : TxList, transfers.foldlM step (new true) = some l ∧
    l.Capped ∧ transfer 2 7 ∈ (l.filter 21100 21000).2.1 :=
  ⟨_, rfl, (filter_exact true transfers _ rfl).1, by decide⟩

end TxList

end Geth.Core
