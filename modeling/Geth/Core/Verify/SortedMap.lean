import Geth.Core.SortedMap

/-!
# The stored map is the sorted map

The map, the heap of its nonces and the cache describe the same sorted list of transactions after
every sequence of calls, and a slice that was returned keeps its transactions.
-/

namespace Geth.Core.TxSortedMap

open Lib List

/-! ## Sorted maps by their lookups -/

variable {tx : TxData} {nonce : UInt64} {rest : List TxData}

theorem nonce_inj (m : TxSortedMap) {tx' : TxData} (h : tx ∈ m.items) (h' : tx' ∈ m.items)
    (e : tx.accountNonce = tx'.accountNonce) : tx = tx' :=
  inj_on_of_nodup_map (pairwise_map.2 (m.sorted.imp fun h => UInt64.ne_of_lt h) :
      (m.items.map TxData.accountNonce).Nodup) h h' e

theorem get_eq_some {m : TxSortedMap} :
    m.get nonce = some tx ↔ tx ∈ m.items ∧ tx.accountNonce = nonce := by
  constructor
  · intro h
    exact ⟨mem_of_find?_eq_some h, by simpa using List.find?_some h⟩
  · rintro ⟨hm, rfl⟩
    obtain ⟨tx', h'⟩ : ∃ tx', m.get tx.accountNonce = some tx' :=
      Option.isSome_iff_exists.1 (List.find?_isSome.2 ⟨tx, hm, by simp⟩)
    have hn : tx'.accountNonce = tx.accountNonce := by simpa using List.find?_some h'
    rw [h', m.nonce_inj (mem_of_find?_eq_some h') hm hn]

theorem get_congr {m m' : TxSortedMap}
    (h : ∀ tx : TxData, tx.accountNonce = nonce → (tx ∈ m.items ↔ tx ∈ m'.items)) :
    m.get nonce = m'.get nonce := by
  refine Option.ext fun tx => ?_
  rw [get_eq_some, get_eq_some]
  exact ⟨fun ⟨hm, hn⟩ => ⟨(h tx hn).1 hm, hn⟩, fun ⟨hm, hn⟩ => ⟨(h tx hn).2 hm, hn⟩⟩

theorem get_eq_none {m : TxSortedMap} :
    m.get nonce = none ↔ ∀ tx ∈ m.items, tx.accountNonce ≠ nonce := by
  simp [get, List.find?_eq_none]

theorem get_keep (m : TxSortedMap) (p : TxData → Bool) (nonce : UInt64) :
    (m.keep p).get nonce = (m.get nonce).filter p := by
  refine Option.ext fun tx => ?_
  rw [get_eq_some, Option.filter_eq_some_iff, get_eq_some, keep, mem_filter]
  tauto

theorem ne_nonce_iff (a b : UInt64) : a ≠ b ↔ a < b ∨ b < a := by
  rw [ne_eq, ← UInt64.toNat_inj, UInt64.lt_iff_toNat_lt, UInt64.lt_iff_toNat_lt]
  omega

theorem get_put (m : TxSortedMap) (tx : TxData) (nonce : UInt64) :
    (m.put tx).get nonce = if nonce = tx.accountNonce then some tx else m.get nonce := by
  have hmem : ∀ x, x ∈ (m.put tx).items ↔ x = tx ∨ (x ∈ m.items ∧
      x.accountNonce ≠ tx.accountNonce) := by
    simp only [put, mem_append, mem_cons, mem_filter, decide_eq_true_eq, ne_nonce_iff]
    tauto
  split
  · next e => exact get_eq_some.2 ⟨(hmem tx).2 (.inl rfl), e.symm⟩
  · next hne =>
    refine get_congr fun x hx => (hmem x).trans ⟨?_, fun h => .inr ⟨h, hx ▸ hne⟩⟩
    rintro (rfl | h)
    · exact absurd hx.symm hne
    · exact h.1

/-- The first transactions. -/
def take (m : TxSortedMap) (k : Nat) : TxSortedMap :=
  ⟨m.items.take k, m.sorted.sublist (List.take_sublist _ _)⟩

/-- The transactions after the first ones. -/
def drop (m : TxSortedMap) (k : Nat) : TxSortedMap :=
  ⟨m.items.drop k, m.sorted.sublist (List.drop_sublist _ _)⟩

theorem ext_items {m m' : TxSortedMap} (h : m.items = m'.items) : m = m' := by
  cases m
  cases m'
  cases h
  rfl

theorem keep_first {m : TxSortedMap} (h : m.items = tx :: rest) :
    (m.keep fun x => x.accountNonce ≠ tx.accountNonce) = m.drop 1 := by
  have hlt := (pairwise_cons.1 (h ▸ m.sorted)).1
  refine ext_items ?_
  simp only [keep, drop, h, filter_cons, ne_eq, not_true_eq_false, decide_false,
    Bool.false_eq_true, if_false, drop_succ_cons, drop_zero]
  exact filter_eq_self.2 fun x hx => decide_eq_true (UInt64.ne_of_lt (hlt x hx)).symm

/-! ## Slices -/

/-- The slice has been given out and holds these transactions. -/
structure Slice.Holds (h : Arrays) (c : Slice) (txs : List TxData) : Prop where
  lt : c.array < h.next
  read : c.read h = txs
  len : c.len = txs.length

variable {h h' : Arrays} {c : Slice} {txs : List TxData}

theorem Slice.Holds.extend (w : c.Holds h txs) (e : h.Extends h') : c.Holds h' txs := by
  refine ⟨Nat.lt_of_lt_of_le w.lt e.next_le, ?_, w.len⟩
  rw [Slice.read, e.cell_eq _ w.lt]
  exact w.read

theorem newSlice_holds (h : Arrays) (txs : List TxData) :
    (newSlice h txs).1.Holds (newSlice h txs).2 txs ∧ h.Extends (newSlice h txs).2 := by
  refine ⟨⟨Nat.lt_succ_self _, ?_, rfl⟩, h.extends_alloc txs⟩
  simp [newSlice, Slice.read]

theorem Slice.Holds.from_ {txs' : List TxData} (w : c.Holds h (txs ++ txs')) :
    ∃ c', c.from_ txs.length = some c' ∧ c'.Holds h txs' := by
  have hlen := w.len
  rw [length_append] at hlen
  refine ⟨⟨c.array, c.off + txs.length, c.len - txs.length⟩, if_pos (by omega), w.lt, ?_, ?_⟩
  · have hread := congrArg (List.drop txs.length) w.read
    rw [drop_left, Slice.read, drop_take, drop_drop] at hread
    exact hread
  · exact Nat.sub_eq_of_eq_add' hlen

theorem Slice.Holds.dropLast {txs' : List TxData} (w : c.Holds h (txs ++ txs')) :
    ∃ c', c.dropLast txs'.length = some c' ∧ c'.Holds h txs := by
  have hlen := w.len
  rw [length_append] at hlen
  have hfront : c.len - txs'.length = txs.length := by omega
  refine ⟨⟨c.array, c.off, c.len - txs'.length⟩, if_pos (by omega), w.lt, ?_, hfront⟩
  have hread := congrArg (List.take txs.length) w.read
  rw [take_left, Slice.read, take_take, Nat.min_eq_left (by omega)] at hread
  rw [Slice.read, hfront]
  exact hread

theorem ready_of_nil (m : TxSortedMap) {start : UInt64} (h : m.items = []) :
    m.ready start = ([], m) := by
  rw [ready, show m.items.head? = none by rw [h]; rfl]

theorem ready_of_cons (m : TxSortedMap) {start : UInt64} (h : m.items = tx :: rest) :
    m.ready start = if start < tx.accountNonce then ([], m)
      else (m.items.take (consecutive tx.accountNonce m.items),
        m.drop (consecutive tx.accountNonce m.items)) := by
  rw [ready, show m.items.head? = some tx by rw [h]; rfl]
  rfl

theorem forward_append (m : TxSortedMap) (threshold : UInt64) :
    (m.forward threshold).1 ++ (m.forward threshold).2.items = m.items := by
  have hlist : ∀ txs : List TxData,
      (txs.Pairwise fun tx tx' => tx.accountNonce < tx'.accountNonce) →
      txs.filter (fun tx => tx.accountNonce < threshold) ++
        txs.filter (fun tx => !decide (tx.accountNonce < threshold)) = txs := by
    intro txs
    induction txs with
    | nil => exact fun _ => rfl
    | cons tx rest ih =>
      intro hsorted
      obtain ⟨hlt, hrest⟩ := pairwise_cons.1 hsorted
      by_cases htx : tx.accountNonce < threshold
      · simpa [htx] using ih hrest
      · have hnone : rest.filter (fun tx => tx.accountNonce < threshold) = [] :=
          filter_eq_nil_iff.2 fun x hx h =>
            htx (UInt64.lt_trans (hlt x hx) (of_decide_eq_true h))
        have hih := ih hrest
        rw [hnone, nil_append] at hih
        simp [htx, hnone, hih]
  exact hlist m.items m.sorted

theorem mergeSort_eq {α : Type} (key : α → UInt64) {xs ys : List α} (hperm : xs.Perm ys)
    (hys : ys.Pairwise fun x y => key x < key y) :
    xs.mergeSort (fun x y => decide (key x ≤ key y)) = ys := by
  have hinj : ∀ x ∈ ys, ∀ y ∈ ys, key x = key y → x = y := fun x hx y hy =>
    inj_on_of_nodup_map (pairwise_map.2 (hys.imp fun h => UInt64.ne_of_lt h)) hx hy
  refine Perm.eq_of_pairwise (fun x y hx hy (hxy : key x ≤ key y) (hyx : key y ≤ key x) => hinj x
      (hperm.mem_iff.1 ((mergeSort_perm _ _).mem_iff.1 hx)) y hy (UInt64.le_antisymm hxy hyx))
    ?_ (hys.imp fun h => UInt64.le_of_lt h) ((mergeSort_perm _ _).trans hperm)
  refine (pairwise_mergeSort (fun x y z hxy hyz => ?_) (fun x y => ?_) _).imp of_decide_eq_true
  · exact decide_eq_true (UInt64.le_trans (of_decide_eq_true hxy) (of_decide_eq_true hyz))
  · rw [Bool.or_eq_true, decide_eq_true_eq, decide_eq_true_eq]
    exact UInt64.le_total _ _

namespace Store

/-! ## The map and the heap -/

theorem nonceLess_weakOrder : Heap.WeakOrder nonceLess where
  asymm x y h := by
    rw [nonceLess, decide_eq_true_eq] at h
    rw [nonceLess, decide_eq_false_iff_not]
    exact UInt64.lt_asymm h
  trans x y z h h' := by
    rw [nonceLess, decide_eq_false_iff_not, UInt64.not_lt] at *
    exact UInt64.le_trans h' h

/-- The map and the heap hold the transactions of a sorted map. -/
structure Rep (s : Store) (m : TxSortedMap) : Prop where
  lookup : ∀ nonce, s.items.lookup nonce = m.get nonce
  nodup : s.index.toList.Nodup
  index : ∀ nonce, nonce ∈ s.index.toList ↔ (m.get nonce).isSome
  ordered : Heap.Ordered nonceLess s.index

variable {s : Store} {m : TxSortedMap} {h : Arrays}

theorem Rep.index_perm (r : s.Rep m) : s.index.toList.Perm (m.items.map TxData.accountNonce) := by
  refine (perm_ext_iff_of_nodup r.nodup
    (pairwise_map.2 (m.sorted.imp fun h => UInt64.ne_of_lt h))).2 fun nonce => ?_
  rw [r.index, Option.isSome_iff_exists, mem_map]
  simp [get_eq_some]

theorem Rep.size_eq (r : s.Rep m) : s.index.size = m.items.length := by
  simpa using r.index_perm.length_eq

theorem Rep.values_perm (r : s.Rep m) : (s.items.entries.map Sigma.snd).Perm m.items := by
  have hmem : ∀ e, e ∈ s.items.entries ↔ e.2 ∈ m.items ∧ e.2.accountNonce = e.1 := by
    intro e
    rw [← get_eq_some, ← r.lookup]
    exact AList.mem_lookup_iff.symm
  have hnodup : (s.items.entries.map Sigma.snd).Nodup := by
    refine Nodup.map_on (fun e he e' he' h => ?_) (NodupKeys.nodup s.items.nodupKeys)
    refine Sigma.ext ?_ (heq_of_eq h)
    rw [← ((hmem e).1 he).2, ← ((hmem e').1 he').2, h]
  refine (perm_ext_iff_of_nodup hnodup
    (m.sorted.imp fun h e => UInt64.ne_of_lt h (congrArg _ e))).2 fun tx => ?_
  rw [mem_map]
  constructor
  · rintro ⟨e, he, rfl⟩
    exact ((hmem e).1 he).1
  · exact fun h => ⟨⟨tx.accountNonce, tx⟩, (hmem _).2 ⟨h, rfl⟩, rfl⟩

theorem Rep.len_eq (r : s.Rep m) : s.len = m.items.length := by
  simpa [len] using r.values_perm.length_eq

theorem Rep.of_perm (hlook : ∀ nonce, s.items.lookup nonce = m.get nonce)
    (hperm : s.index.toList.Perm (m.items.map TxData.accountNonce))
    (hordered : Heap.Ordered nonceLess s.index) : s.Rep m where
  lookup := hlook
  nodup := hperm.nodup_iff.2 (pairwise_map.2 (m.sorted.imp fun h => UInt64.ne_of_lt h))
  index nonce := by
    rw [hperm.mem_iff, Option.isSome_iff_exists, mem_map]
    simp [get_eq_some]
  ordered := hordered

theorem Rep.put (r : s.Rep m) (tx : TxData) : (s.put tx).Rep (m.put tx) := by
  have hindex : (s.put tx).index.toList.Nodup ∧ (∀ nonce, nonce ∈ (s.put tx).index.toList ↔
        nonce = tx.accountNonce ∨ nonce ∈ s.index.toList) ∧
      Heap.Ordered nonceLess (s.put tx).index := by
    unfold Store.put
    split
    · next h =>
      rw [r.lookup, Option.isNone_iff_eq_none] at h
      have hnew : tx.accountNonce ∉ s.index.toList := by
        rw [r.index, h]
        exact Bool.false_ne_true
      have hperm := Heap.push_perm nonceLess s.index tx.accountNonce
      exact ⟨hperm.nodup_iff.2 (nodup_cons.2 ⟨hnew, r.nodup⟩),
        fun nonce => by rw [hperm.mem_iff, mem_cons],
        Heap.push_ordered nonceLess_weakOrder r.ordered _⟩
    · next h =>
      refine ⟨r.nodup, fun nonce => ⟨.inr, ?_⟩, r.ordered⟩
      rintro (rfl | hm)
      · rw [r.index, ← r.lookup]
        exact Option.isSome_iff_ne_none.2 (by simpa using h)
      · exact hm
  refine ⟨fun nonce => ?_, hindex.1, fun nonce => ?_, hindex.2.2⟩
  · rw [get_put, ← r.lookup]
    split
    · next e =>
      subst e
      exact AList.lookup_insert _
    · next hne => exact AList.lookup_insert_ne hne
  · rw [hindex.2.1, r.index, get_put]
    split <;> simp_all

theorem Rep.erase (r : s.Rep m) {nonce : UInt64} {index : Array UInt64}
    (hperm : s.index.toList.Perm (nonce :: index.toList)) (ho : Heap.Ordered nonceLess index)
    (cache : Option Slice) :
    Rep ⟨s.items.erase nonce, index, cache⟩ (m.keep fun tx => tx.accountNonce ≠ nonce) := by
  have hkeep : ∀ n, (m.keep fun tx => tx.accountNonce ≠ nonce).get n =
      if n = nonce then none else m.get n := by
    intro n
    rw [get_keep]
    cases hn : m.get n with
    | none => simp
    | some x => simp [Option.filter, (get_eq_some.1 hn).2]
  have hnodup := nodup_cons.1 (hperm.nodup_iff.1 r.nodup)
  refine ⟨fun n => ?_, hnodup.2, fun n => ?_, ho⟩
  · rw [hkeep, ← r.lookup]
    split
    · next e =>
      subst e
      exact AList.lookup_erase _ _
    · next hne => exact AList.lookup_erase_ne hne
  · have hmem := r.index n
    rw [hperm.mem_iff, mem_cons] at hmem
    rw [hkeep]
    split
    · next e => simpa [e] using hnodup.1
    · next hne => simpa [hne] using hmem

theorem Rep.first (r : s.Rep m) {tx : TxData} (h : m.items = tx :: rest) :
    s.index[0]? = some tx.accountNonce ∧ s.items.lookup tx.accountNonce = some tx ∧
      ∃ index, Heap.pop nonceLess s.index = some (tx.accountNonce, index) ∧
        Rep { s with items := s.items.erase tx.accountNonce, index := index } (m.drop 1) := by
  have hget : m.get tx.accountNonce = some tx :=
    get_eq_some.2 ⟨by rw [h]; exact mem_cons_self, rfl⟩
  have hpos : s.index.size ≠ 0 := by
    rw [r.size_eq, h]
    exact Nat.succ_ne_zero _
  obtain ⟨nonce, index, hpop⟩ := Heap.pop_isSome nonceLess hpos
  have hperm := Heap.pop_perm nonceLess hpop
  -- the least nonce of the heap is the least one of the list
  obtain rfl : nonce = tx.accountNonce := by
    have hin : nonce ∈ s.index.toList := hperm.mem_iff.2 mem_cons_self
    obtain ⟨x, hx⟩ := Option.isSome_iff_exists.1 ((r.index nonce).1 hin)
    obtain ⟨hxm, rfl⟩ := get_eq_some.1 hx
    have hle := r.ordered.le_head nonceLess_weakOrder (Heap.pop_head hpop)
      ((r.index tx.accountNonce).2 (by rw [hget]; rfl))
    rw [nonceLess, decide_eq_false_iff_not, UInt64.not_lt] at hle
    rcases mem_cons.1 (h ▸ hxm) with rfl | hxr
    · rfl
    · exact absurd ((pairwise_cons.1 (h ▸ m.sorted)).1 x hxr) (UInt64.not_lt.2 hle)
  refine ⟨Heap.pop_head hpop, (r.lookup _).trans hget, index, hpop, ?_⟩
  rw [← keep_first h]
  exact r.erase hperm (Heap.pop_ordered nonceLess_weakOrder r.ordered hpop) s.cache

theorem Rep.first_none (r : s.Rep m) (h : m.items = []) : s.index[0]? = none := by
  rw [Array.getElem?_eq_none_iff, r.size_eq, h]
  exact Nat.le_refl _

/-! ## The calls on the map and the heap -/

theorem Rep.forwardLoop (threshold : UInt64) {fuel : Nat} (r : s.Rep m)
    (hfuel : m.items.length ≤ fuel) :
    (s.forwardLoop threshold fuel).1 = (m.forward threshold).1 ∧
      (s.forwardLoop threshold fuel).2.Rep (m.forward threshold).2 ∧
      (s.forwardLoop threshold fuel).2.cache = s.cache := by
  induction fuel generalizing s m with
  | zero =>
    have hnil : m.items = [] := eq_nil_of_length_eq_zero (Nat.le_zero.1 hfuel)
    have hm : (m.forward threshold).2 = m := ext_items (by simp [TxSortedMap.forward, keep, hnil])
    refine ⟨by simp [Store.forwardLoop, TxSortedMap.forward, hnil], ?_, rfl⟩
    rw [hm]
    exact r
  | succ fuel ih =>
    rw [Store.forwardLoop]
    cases hitems : m.items with
    | nil =>
      have hm : (m.forward threshold).2 = m :=
        ext_items (by simp [TxSortedMap.forward, keep, hitems])
      rw [r.first_none hitems, hm]
      exact ⟨by simp [TxSortedMap.forward, hitems], r, rfl⟩
    | cons tx rest =>
      obtain ⟨hfirst, hlook, index, hpop, r'⟩ := r.first hitems
      have htail : (m.drop 1).items = rest := congrArg (List.drop 1) hitems
      rw [hfirst]
      dsimp only
      by_cases hlt : tx.accountNonce < threshold
      · have hm : (m.forward threshold).2 = ((m.drop 1).forward threshold).2 :=
          ext_items (by simp [TxSortedMap.forward, keep, hitems, htail, hlt])
        obtain ⟨h1, h2, h3⟩ := ih r' (by rw [htail]; rw [hitems] at hfuel; simpa using hfuel)
        rw [if_pos hlt, hpop, hm]
        refine ⟨?_, h2, h3⟩
        dsimp only
        rw [hlook, h1]
        simp [TxSortedMap.forward, hitems, htail, hlt]
      · -- the nonces that follow are larger
        have hall : ∀ x ∈ m.items, ¬ x.accountNonce < threshold := by
          rw [hitems]
          refine forall_mem_cons.2 ⟨hlt, fun x hx hlt' => hlt ?_⟩
          exact UInt64.lt_trans ((pairwise_cons.1 (hitems ▸ m.sorted)).1 x hx) hlt'
        have hm : (m.forward threshold).2 = m :=
          ext_items (filter_eq_self.2 fun x hx => by simpa using hall x hx)
        rw [if_neg hlt, hm]
        exact ⟨(filter_eq_nil_iff.2 fun x hx => by simpa using hall x hx).symm, r, rfl⟩

theorem Rep.readyLoop {fuel : Nat} (next : UInt64) (r : s.Rep m) (hfuel : m.items.length ≤ fuel) :
    (s.readyLoop fuel next).1 = m.items.take (consecutive next m.items) ∧
      (s.readyLoop fuel next).2.Rep (m.drop (consecutive next m.items)) := by
  induction fuel generalizing s m next with
  | zero =>
    have hnil : m.items = [] := eq_nil_of_length_eq_zero (Nat.le_zero.1 hfuel)
    rw [hnil]
    exact ⟨rfl, r⟩
  | succ fuel ih =>
    rw [Store.readyLoop]
    cases hitems : m.items with
    | nil =>
      rw [r.first_none hitems, if_neg (nomatch ·)]
      exact ⟨rfl, r⟩
    | cons tx rest =>
      obtain ⟨hfirst, hlook, index, hpop, r'⟩ := r.first hitems
      have htail : (m.drop 1).items = rest := congrArg (List.drop 1) hitems
      rw [hfirst, consecutive]
      by_cases he : tx.accountNonce = next
      · subst he
        obtain ⟨h1, h2⟩ := ih (tx.accountNonce + 1) r'
          (by rw [htail]; rw [hitems] at hfuel; simpa using hfuel)
        have hm : m.drop (consecutive (tx.accountNonce + 1) rest + 1) =
            (m.drop 1).drop (consecutive (tx.accountNonce + 1) rest) :=
          ext_items (by simp [drop, hitems])
        rw [htail] at h1 h2
        rw [if_pos rfl, if_pos rfl, hpop, hm]
        refine ⟨?_, h2⟩
        dsimp only
        rw [hlook, h1]
        rfl
      · rw [if_neg fun e => he (Option.some.inj e), if_neg he]
        exact ⟨rfl, r⟩

theorem capLoop_spec (m : TxSortedMap) (threshold : Int) {size : Nat}
    {items : AList fun _ : UInt64 => TxData} (hsize : size ≤ m.items.length)
    (hlook : ∀ nonce, items.lookup nonce = (m.take size).get nonce) :
    (threshold < 0 ∧ capLoop (m.items.map TxData.accountNonce) threshold size items = none) ∨
      (0 ≤ threshold ∧ ∃ items', capLoop (m.items.map TxData.accountNonce) threshold size items =
          some (((m.items.take size).drop threshold.toNat).reverse, items') ∧
        ∀ nonce, items'.lookup nonce = (m.take (min size threshold.toNat)).get nonce) := by
  induction size generalizing items with
  | zero =>
    by_cases h : 0 ≤ threshold
    · refine .inr ⟨h, items, by simp [capLoop, h], fun nonce => ?_⟩
      rw [hlook, Nat.zero_min]
    · exact .inl ⟨by omega, by simp [capLoop, h]⟩
  | succ size ih =>
    rw [capLoop]
    by_cases hle : ((size + 1 : Nat) : Int) ≤ threshold
    · refine .inr ⟨by omega, items, ?_, fun nonce => ?_⟩
      · rw [if_pos hle, drop_of_length_le (by rw [length_take]; omega)]
        rfl
      · rw [hlook, Nat.min_eq_left (by omega)]
    · obtain ⟨tx, htx⟩ : ∃ tx, m.items[size]? = some tx :=
        ⟨_, List.getElem?_eq_getElem (Nat.lt_of_succ_le hsize)⟩
      have htake : m.items.take (size + 1) = m.items.take size ++ [tx] := by
        rw [take_add_one, htx]
        rfl
      have hsorted : (m.items.take (size + 1)).Pairwise fun tx tx' =>
          tx.accountNonce < tx'.accountNonce := (m.take (size + 1)).sorted
      rw [htake] at hsorted
      have hlast : ∀ x ∈ m.items.take size, x.accountNonce < tx.accountNonce := fun x hx =>
        (pairwise_append.1 hsorted).2.2 x hx tx mem_cons_self
      have hget : (m.take (size + 1)).get tx.accountNonce = some tx :=
        get_eq_some.2 ⟨by simp [take, htake], rfl⟩
      have hrest : ∀ nonce, (items.erase tx.accountNonce).lookup nonce =
          (m.take size).get nonce := by
        intro nonce
        by_cases hn : nonce = tx.accountNonce
        · subst hn
          rw [AList.lookup_erase, eq_comm, get_eq_none]
          exact fun x hx => UInt64.ne_of_lt (hlast x hx)
        · rw [AList.lookup_erase_ne hn, hlook]
          refine get_congr fun x hx => ?_
          simp only [take, htake, mem_append, mem_singleton]
          refine ⟨fun h => h.resolve_right ?_, .inl⟩
          rintro rfl
          exact hn hx.symm
      rw [if_neg hle, List.getElem?_map, htx, Option.map_some, Option.bind_eq_bind,
        Option.bind_some]
      rcases ih (Nat.le_of_succ_le hsize) hrest with ⟨hneg, hnone⟩ | ⟨hpos, items', hsome, hlook'⟩
      · exact .inl ⟨hneg, by rw [hnone]; rfl⟩
      · refine .inr ⟨hpos, items', ?_, fun nonce => ?_⟩
        · rw [hsome, Option.bind_eq_bind, Option.bind_some, hlook, hget, htake,
            drop_append_of_le_length (by rw [length_take]; omega), reverse_append]
          rfl
        · rw [hlook', show min (size + 1) threshold.toNat = min size threshold.toNat by omega]

theorem Rep.sorted_index (r : s.Rep m) :
    s.index.toList.mergeSort (fun a b => decide (a ≤ b)) = m.items.map TxData.accountNonce :=
  mergeSort_eq id r.index_perm (pairwise_map.2 m.sorted)

theorem Rep.remove (r : s.Rep m) (nonce : UInt64) :
    (s.remove nonce).1 = (m.remove nonce).1 ∧ (s.remove nonce).2.Rep (m.remove nonce).2 ∧
      ((s.remove nonce).2.cache = none ∨
        (s.remove nonce).2.cache = s.cache ∧ (m.remove nonce).2 = m) := by
  unfold Store.remove TxSortedMap.remove
  rw [r.lookup]
  cases hget : m.get nonce with
  | none => exact ⟨rfl, r, .inr ⟨rfl, rfl⟩⟩
  | some tx =>
    have hin : nonce ∈ s.index := Array.mem_toList_iff.1 ((r.index nonce).2 (by rw [hget]; rfl))
    obtain ⟨i, hi⟩ : ∃ i, s.index.findIdx? (· == nonce) = some i := by
      refine Option.isSome_iff_exists.1 ?_
      rw [Array.findIdx?_isSome, Array.any_eq_true']
      exact ⟨nonce, hin, beq_self_eq_true nonce⟩
    have hat : s.index[i]? = some nonce := by
      obtain ⟨hlt, heq, -⟩ := Array.findIdx?_eq_some_iff_getElem.1 hi
      rw [Array.getElem?_eq_getElem hlt, eq_of_beq heq]
    obtain ⟨index, hremove, hperm, hordered⟩ :=
      Heap.remove_ordered nonceLess_weakOrder r.ordered hat
    simp only [Option.isNone_some, Bool.false_eq_true, if_false, Option.isSome_some, if_true, hi,
      hremove, Option.map_some, Option.getD_some, true_and]
    exact ⟨r.erase hperm hordered none, .inl trivial⟩

theorem lookup_foldl_erase (p : TxData → Bool) (walk : List (Sigma fun _ : UInt64 => TxData))
    (items : AList fun _ : UInt64 => TxData) (nonce : UInt64) :
    (walk.foldl (fun items e => if p e.2 then items.erase e.1 else items) items).lookup nonce =
      if ∃ e ∈ walk, e.1 = nonce ∧ p e.2 = true then none else items.lookup nonce := by
  induction walk generalizing items with
  | nil => simp
  | cons e walk ih =>
    rw [foldl_cons, ih]
    by_cases hp : p e.2 = true
    · by_cases he : e.1 = nonce
      · simp [hp, he]
      · simp only [hp, if_true, AList.lookup_erase_ne (Ne.symm he), exists_mem_cons_iff, he,
          false_and, false_or]
    · simp only [hp, Bool.false_eq_true, if_false, exists_mem_cons_iff, and_false, false_or]

theorem Rep.filter (r : s.Rep m) (p : TxData → Bool) (choices : List Nat) :
    (s.filter p choices).1.Perm (m.filter p).1 ∧ (s.filter p choices).2.Rep (m.filter p).2 ∧
      ((s.filter p choices).2.cache = none ∨
        (s.filter p choices).2.cache = s.cache ∧ (m.filter p).2 = m) := by
  obtain ⟨walk, rest, hshuffle⟩ : ∃ walk rest, shuffle choices s.items.entries = (walk, rest) :=
    ⟨_, _, rfl⟩
  have hwalk : walk.Perm s.items.entries := by
    have := shuffle_perm choices s.items.entries
    rwa [hshuffle] at this
  have hremoved : ((walk.map Sigma.snd).filter p).Perm (m.filter p).1 :=
    ((hwalk.map Sigma.snd).trans r.values_perm).filter p
  have hlook : ∀ nonce, (walk.foldl (fun items e => if p e.2 then items.erase e.1 else items)
      s.items).lookup nonce = (m.filter p).2.get nonce := by
    intro nonce
    rw [lookup_foldl_erase, TxSortedMap.filter, get_keep, ← r.lookup]
    cases hl : s.items.lookup nonce with
    | none => simp
    | some tx =>
      have hex : (∃ e ∈ walk, e.1 = nonce ∧ p e.2 = true) ↔ p tx = true := by
        constructor
        · rintro ⟨e, he, rfl, hp⟩
          have := AList.mem_lookup_iff.2 (hwalk.mem_iff.1 he)
          rw [hl] at this
          rwa [Option.some.inj this]
        · exact fun hp => ⟨⟨nonce, tx⟩, hwalk.mem_iff.2 (AList.mem_lookup_iff.1 hl), rfl, hp⟩
      by_cases hp : p tx = true <;> simp [hex, Option.filter, hp]
  unfold Store.filter
  rw [hshuffle]
  dsimp only
  split
  · next hempty =>
    have hm : (m.filter p).2 = m := by
      refine ext_items (filter_eq_self.2 fun tx htx => ?_)
      have hnil : (m.filter p).1 = [] := (isEmpty_iff.1 hempty ▸ hremoved).nil_eq.symm
      simpa using filter_eq_nil_iff.1 hnil tx htx
    rw [hm] at hlook ⊢
    exact ⟨hremoved, ⟨hlook, r.nodup, r.index, r.ordered⟩, .inr ⟨rfl, rfl⟩⟩
  · refine ⟨hremoved, Rep.of_perm hlook ?_ (Heap.init_ordered nonceLess_weakOrder _), .inl rfl⟩
    refine (Heap.init_perm nonceLess _).trans ?_
    refine (shuffle_perm _ _).trans ((perm_ext_iff_of_nodup (AList.keys_nodup _)
      (pairwise_map.2 ((m.filter p).2.sorted.imp fun h => UInt64.ne_of_lt h))).2 fun nonce => ?_)
    rw [← AList.mem_keys, ← AList.lookup_isSome, hlook, Option.isSome_iff_exists, mem_map]
    simp [get_eq_some]

/-! ## The cache -/

/-- The map, the heap and the cache hold the transactions of a sorted map. -/
structure Stores (h : Arrays) (s : Store) (m : TxSortedMap) : Prop extends s.Rep m where
  cache : ∀ c, s.cache = some c → c.Holds h m.items

variable {m' : TxSortedMap}

theorem Stores.of_rep {s' : Store} (w : Stores h s m) (r : s'.Rep m')
    (hc : s'.cache = none ∨ s'.cache = s.cache ∧ m' = m) : Stores h s' m' := by
  refine ⟨r, fun c e => ?_⟩
  rcases hc with hc | ⟨hc, rfl⟩
  · rw [hc] at e
    cases e
  · exact w.cache c (hc ▸ e)

theorem Rep.recache (r : s.Rep m') {cut : Slice → Option Slice}
    (hcut : ∀ c, s.cache = some c → ∃ c', cut c = some c' ∧ c'.Holds h m'.items) :
    ∃ s', s.recache cut = some s' ∧ Stores h s' m' := by
  unfold Store.recache
  cases hs : s.cache with
  | none => exact ⟨s, rfl, r, fun c e => by rw [hs] at e; cases e⟩
  | some c =>
    obtain ⟨c', hc', hh⟩ := hcut c hs
    refine ⟨{ s with cache := some c' }, congrArg (Option.map _) hc',
      ⟨r.lookup, r.nodup, r.index, r.ordered⟩, fun c e => ?_⟩
    cases e
    exact hh

theorem Stores.forward (w : Stores h s m) (threshold : UInt64) :
    ∃ s', s.forward threshold = some ((m.forward threshold).1, s') ∧
      Stores h s' (m.forward threshold).2 := by
  obtain ⟨h1, h2, h3⟩ := w.toRep.forwardLoop threshold (Nat.le_of_eq w.size_eq.symm)
  obtain ⟨s', hs', w'⟩ := h2.recache fun c e =>
    Slice.Holds.from_ ((m.forward_append threshold).symm ▸ w.cache c (h3 ▸ e))
  refine ⟨s', ?_, w'⟩
  rw [← h1] at hs' ⊢
  simp [Store.forward, hs']

theorem Stores.cap (w : Stores h s m) (threshold : Int) :
    (threshold < 0 ∧ s.cap threshold = none) ∨ (0 ≤ threshold ∧
      ∃ drops m' s', m.cap threshold = some (drops, m') ∧ s.cap threshold = some (drops, s') ∧
        Stores h s' m') := by
  have hlen : s.items.entries.length = m.items.length := w.len_eq
  rw [Store.cap, TxSortedMap.cap, hlen]
  by_cases hle : (m.items.length : Int) ≤ threshold
  · exact .inr ⟨by omega, [], m, s, if_pos hle, if_pos hle, w⟩
  · rw [if_neg hle, if_neg hle, w.sorted_index]
    have hall : m.take m.items.length = m := ext_items take_length
    rcases capLoop_spec m threshold (Nat.le_refl _) (fun nonce => by rw [hall, w.lookup]) with
      ⟨hneg, hnone⟩ | ⟨hpos, items, hsome, hlook⟩
    · refine .inl ⟨hneg, ?_⟩
      simp only [hnone, Option.bind_eq_bind, Option.bind_none]
    · rw [take_length] at hsome
      rw [Nat.min_eq_right (by omega)] at hlook
      have hindex := Heap.init_perm nonceLess
        ((m.items.map TxData.accountNonce).take threshold.toNat).toArray
      have r : Rep ⟨items, Heap.init nonceLess
          ((m.items.map TxData.accountNonce).take threshold.toNat).toArray, s.cache⟩
          (m.take threshold.toNat) := by
        refine Rep.of_perm hlook (hindex.trans (Perm.of_eq ?_))
          (Heap.init_ordered nonceLess_weakOrder _)
        rw [toList_toArray, ← map_take]
        rfl
      obtain ⟨s', hs', w'⟩ := r.recache fun c e => by
        have hc := w.cache c e
        rw [← take_append_drop threshold.toNat m.items] at hc
        have := hc.dropLast
        rwa [← length_reverse] at this
      refine .inr ⟨hpos, _, _, s', if_neg (Int.not_lt.2 hpos), ?_, w'⟩
      simp only [hsome, hs', Option.bind_eq_bind, Option.bind_some]

theorem Stores.ready (w : Stores h s m) (start : UInt64) :
    (s.ready start).1 = (m.ready start).1 ∧ Stores h (s.ready start).2 (m.ready start).2 := by
  unfold Store.ready
  cases hitems : m.items with
  | nil =>
    rw [w.first_none hitems, m.ready_of_nil hitems]
    exact ⟨rfl, w⟩
  | cons tx rest =>
    rw [(w.first hitems).1, m.ready_of_cons hitems]
    dsimp only
    split
    · exact ⟨rfl, w⟩
    · obtain ⟨h1, h2⟩ := w.toRep.readyLoop tx.accountNonce (Nat.le_of_eq w.size_eq.symm)
      exact ⟨h1, ⟨h2.lookup, h2.nodup, h2.index, h2.ordered⟩, fun c e => nomatch e⟩

theorem Stores.fill (w : Stores h s m) (choices : List Nat) :
    (s.fill h choices).1.Holds (s.fill h choices).2 m.items ∧ h.Extends (s.fill h choices).2 := by
  unfold Store.fill
  cases hc : s.cache with
  | some c => exact ⟨w.cache c hc, Arena.Extends.refl h⟩
  | none =>
    have hperm := ((shuffle_perm choices s.items.entries).map Sigma.snd).trans w.values_perm
    have hsort := mergeSort_eq TxData.accountNonce hperm m.sorted
    refine ⟨⟨Nat.lt_succ_self _, ?_, hperm.length_eq⟩, ?_⟩
    · simp [newSlice, Slice.read, hsort, hperm.length_eq]
    · exact (h.extends_alloc _).set ((Arena.Extends.refl h).since_alloc _) _

theorem Stores.flatten (w : Stores h s m) (choices : List Nat) :
    (s.flatten h choices).1.Holds (s.flatten h choices).2.2 m.items ∧
      Stores (s.flatten h choices).2.2 (s.flatten h choices).2.1 m ∧
      h.Extends (s.flatten h choices).2.2 := by
  obtain ⟨hc, hext⟩ := w.fill choices
  obtain ⟨hnew, hext'⟩ := newSlice_holds (s.fill h choices).2 ((s.fill h choices).1.read
    (s.fill h choices).2)
  rw [hc.read] at hnew hext'
  unfold Store.flatten
  dsimp only
  rw [hc.read]
  refine ⟨hnew, ⟨⟨w.lookup, w.nodup, w.index, w.ordered⟩, fun c e => ?_⟩, hext.trans hext'⟩
  cases e
  exact hc.extend hext'

/-! ## Runs -/

/-- What a call on a sorted map does, with the transactions of a slice that it returns. -/
def Exact (h : Arrays) (m : TxSortedMap) : Call → Result → TxSortedMap → Prop
  | .get nonce, .tx tx, m' => tx = m.get nonce ∧ m' = m
  | .put tx, .none, m' => m' = m.put tx
  | .forward threshold, .slice c, m' => (c.read h, m') = m.forward threshold
  | .filter p _, .slice c, m' => (c.read h).Perm (m.filter p).1 ∧ m' = (m.filter p).2
  | .cap threshold, .slice c, m' => m.cap threshold = some (c.read h, m')
  | .remove nonce, .flag b, m' => (b, m') = m.remove nonce
  | .ready start, .slice c, m' => (c.read h, m') = m.ready start
  | .len, .number n, m' => n = m.len ∧ m' = m
  | .flatten _, .slice c, m' => c.read h = m.items ∧ m' = m
  | _, _, _ => False

/-- Calls one after the other, with the arrays as they are at the end. -/
inductive Behaves (h : Arrays) : TxSortedMap → List (Call × Result) → Prop
  | nil (m : TxSortedMap) : Behaves h m []
  | cons {m m' : TxSortedMap} {c : Call} {r : Result} {log : List (Call × Result)} :
    Exact h m c r m' → Behaves h m' log → Behaves h m ((c, r) :: log)

/-- A slice that is returned has been given out. -/
def Result.Given (h : Arrays) : Result → Prop
  | .slice c => c.array < h.next
  | _ => True

theorem Exact.extend {h h' : Arrays} {c : Call} {r : Result} (he : Exact h m c r m')
    (hr : r.Given h) (hext : h.Extends h') : Exact h' m c r m' := by
  cases r with
  | slice sl =>
    have hread : sl.read h' = sl.read h := by rw [Slice.read, Slice.read, hext.cell_eq _ hr]
    cases c <;> simp only [Exact, hread] at he ⊢ <;> exact he
  | _ => cases c <;> exact he

theorem sliced_spec (c : Call) (txs : List TxData) {s' : Store} (w : Stores h s' m')
    (he : ∀ h' sl, sl.read h' = txs → Exact h' m c (.slice sl) m') :
    ∃ r h', sliced h (txs, s') = (r, s', h') ∧ Stores h' s' m' ∧ h.Extends h' ∧ r.Given h' ∧
      Exact h' m c r m' := by
  obtain ⟨hnew, hext⟩ := newSlice_holds h txs
  exact ⟨_, _, rfl, ⟨w.toRep, fun c hc => (w.cache c hc).extend hext⟩, hext, hnew.lt,
    he _ _ hnew.read⟩

theorem Stores.call (w : Stores h s m) (c : Call) :
    ((∃ n : Int, n < 0 ∧ c = .cap n) ∧ s.call h c = none) ∨
      ((∀ n : Int, c = .cap n → 0 ≤ n) ∧ ∃ r s' h' m', s.call h c = some (r, s', h') ∧
        Stores h' s' m' ∧ h.Extends h' ∧ r.Given h' ∧ Exact h' m c r m') := by
  cases c with
  | get nonce =>
    exact .inr ⟨nofun, _, s, h, m, rfl, w, Arena.Extends.refl h, trivial, w.lookup nonce, rfl⟩
  | put tx =>
    exact .inr ⟨nofun, _, _, h, _, rfl, ⟨w.put tx, nofun⟩, Arena.Extends.refl h, trivial, rfl⟩
  | forward threshold =>
    obtain ⟨s', hs', w'⟩ := w.forward threshold
    obtain ⟨r, h', hr, hres⟩ := sliced_spec (.forward threshold) (m.forward threshold).1 w'
      fun _ _ e => by rw [Exact, e]
    exact .inr ⟨nofun, r, s', h', _, by rw [Store.call, hs', Option.map_some, hr], hres⟩
  | filter p choices =>
    obtain ⟨hperm, hrep, hcache⟩ := w.toRep.filter p choices
    obtain ⟨r, h', hr, hres⟩ := sliced_spec (.filter p choices) (s.filter p choices).1
      (w.of_rep hrep hcache) fun _ _ e => ⟨e ▸ hperm, rfl⟩
    exact .inr ⟨nofun, r, _, h', _, congrArg some hr, hres⟩
  | cap threshold =>
    rcases w.cap threshold with ⟨hneg, hnone⟩ | ⟨hpos, drops, m', s', hm, hs', w'⟩
    · exact .inl ⟨⟨threshold, hneg, rfl⟩, by rw [Store.call, hnone, Option.map_none]⟩
    · obtain ⟨r, h', hr, hres⟩ := sliced_spec (.cap threshold) drops w'
        fun _ _ e => by rw [Exact, e, hm]
      refine .inr ⟨fun n e => ?_, r, s', h', _, by rw [Store.call, hs', Option.map_some, hr], hres⟩
      cases e
      exact hpos
  | remove nonce =>
    obtain ⟨hb, hrep, hcache⟩ := w.toRep.remove nonce
    refine .inr ⟨nofun, _, _, h, _, rfl, w.of_rep hrep hcache, Arena.Extends.refl h, trivial, ?_⟩
    rw [Exact, hb]
  | ready start =>
    obtain ⟨hready, w'⟩ := w.ready start
    obtain ⟨r, h', hr, hres⟩ := sliced_spec (.ready start) (s.ready start).1 w'
      fun _ _ e => by rw [Exact, e, hready]
    exact .inr ⟨nofun, r, _, h', _, congrArg some hr, hres⟩
  | len =>
    exact .inr ⟨nofun, _, s, h, m, rfl, w, Arena.Extends.refl h, trivial, w.len_eq, rfl⟩
  | flatten choices =>
    obtain ⟨hnew, w', hext⟩ := w.flatten choices
    exact .inr ⟨nofun, _, _, _, m, rfl, w', hext, hnew.lt, hnew.read, rfl⟩

theorem Stores.run (w : Stores h s m) (calls : List Call) :
    (s.run h calls = none ↔ ∃ n : Int, n < 0 ∧ .cap n ∈ calls) ∧
      ∀ log last, s.run h calls = some (log, last) → h.Extends last ∧ Behaves last m log := by
  induction calls generalizing s h m with
  | nil =>
    refine ⟨by simp [Store.run], fun log last e => ?_⟩
    cases e
    exact ⟨Arena.Extends.refl h, .nil m⟩
  | cons c calls ih =>
    rw [Store.run]
    rcases w.call c with ⟨⟨n, hn, rfl⟩, hnone⟩ | ⟨hc, r, s', h', m', hsome, w', hext, hr, hexact⟩
    · rw [hnone]
      exact ⟨iff_of_true rfl ⟨n, hn, mem_cons_self⟩, fun log last e => nomatch e⟩
    · obtain ⟨hnone, hlog⟩ := ih w'
      rw [hsome, Option.bind_eq_bind, Option.bind_some]
      dsimp only
      constructor
      · rw [Option.bind_eq_bind, Option.bind_eq_none_iff]
        constructor
        · intro hall
          have hrest : s'.run h' calls = none := by
            cases hrun : s'.run h' calls with
            | none => rfl
            | some res => exact absurd (hall res hrun) (by simp)
          obtain ⟨n, hn, hm⟩ := hnone.1 hrest
          exact ⟨n, hn, mem_cons_of_mem c hm⟩
        · rintro ⟨n, hn, hm⟩
          rcases mem_cons.1 hm with e | hm
          · exact absurd hn (Int.not_lt.2 (hc n e.symm))
          · rw [hnone.2 ⟨n, hn, hm⟩]
            exact nofun
      · intro log last e
        rw [Option.bind_eq_bind, Option.bind_eq_some_iff] at e
        obtain ⟨⟨log', last'⟩, hrun, e⟩ := e
        cases e
        obtain ⟨hext', hb⟩ := hlog log' last' hrun
        exact ⟨hext.trans hext', .cons (hexact.extend hr hext') hb⟩

end Store

theorem consecutive_spec (next : UInt64) (txs : List TxData) :
    (∀ (i : Nat) x, (txs.take (consecutive next txs))[i]? = some x →
        x.accountNonce = next + UInt64.ofNat i) ∧
      ∀ x, (txs.drop (consecutive next txs)).head? = some x →
        x.accountNonce ≠ next + UInt64.ofNat (consecutive next txs) := by
  have hnext : ∀ (next : UInt64) (i : Nat),
      next + 1 + UInt64.ofNat i = next + UInt64.ofNat (i + 1) := fun next i => by
    rw [UInt64.ofNat_add, UInt64.add_assoc, UInt64.add_comm 1]
    rfl
  induction txs generalizing next with
  | nil => exact ⟨by simp [consecutive], by simp [consecutive]⟩
  | cons tx rest ih =>
    rw [consecutive]
    split
    · next e =>
      obtain ⟨hrun, hstop⟩ := ih (next + 1)
      refine ⟨fun i x hx => ?_, fun x hx => ?_⟩
      · cases i with
        | zero =>
          obtain rfl : tx = x := by simpa using hx
          simpa using e
        | succ i =>
          rw [hrun i x hx, hnext]
      · rw [← hnext]
        exact hstop x hx
    · next hne =>
      refine ⟨by simp, fun x hx => ?_⟩
      obtain rfl : tx = x := by simpa using hx
      simpa using hne

/-- The stored map behaves as the sorted map in every sequence of calls: it panics only in `Cap`
with a negative limit, the slices it has returned keep what they held, and what it returns as ready
is the longest run of consecutive nonces from the lowest one on, if that is not above the one asked
for. -/
theorem behaves_as_sortedMap (h : Arrays) (calls : List Store.Call) :
    (Store.new.run h calls = none ↔ ∃ n : Int, n < 0 ∧ .cap n ∈ calls) ∧
      (∀ log last, Store.new.run h calls = some (log, last) → Store.Behaves last new log) ∧
      ∀ (m : TxSortedMap) (start : UInt64), (m.ready start).1 ++ (m.ready start).2.items = m.items ∧
        ∀ tx, m.items.head? = some tx → (start < tx.accountNonce → (m.ready start).1 = []) ∧
          (tx.accountNonce ≤ start → (∀ (i : Nat) x, (m.ready start).1[i]? = some x →
              x.accountNonce = tx.accountNonce + UInt64.ofNat i) ∧
            ∀ x, (m.ready start).2.items.head? = some x →
              x.accountNonce ≠ tx.accountNonce + UInt64.ofNat (m.ready start).1.length) := by
  have w : Store.Stores h Store.new new :=
    ⟨⟨fun _ => rfl, List.nodup_nil, by simp [Store.new, new, get], fun j _ hj => nomatch hj⟩, nofun⟩
  obtain ⟨hnone, hlog⟩ := w.run calls
  refine ⟨hnone, fun log last e => (hlog log last e).2, fun m start => ?_⟩
  cases hitems : m.items with
  | nil =>
    rw [m.ready_of_nil hitems]
    exact ⟨hitems, nofun⟩
  | cons tx rest =>
    rw [m.ready_of_cons hitems, ← hitems]
    obtain ⟨hrun, hstop⟩ := consecutive_spec tx.accountNonce m.items
    split
    · next hlt =>
      refine ⟨rfl, fun x hx => ⟨fun _ => rfl, fun hle => ?_⟩⟩
      rw [hitems, List.head?_cons, Option.some.injEq] at hx
      exact absurd hlt (UInt64.not_lt.2 (hx ▸ hle))
    · next hge =>
      refine ⟨List.take_append_drop _ _, fun x hx => ?_⟩
      rw [hitems, List.head?_cons, Option.some.injEq] at hx
      subst hx
      refine ⟨fun hlt => absurd hlt hge, fun _ => ⟨hrun, fun x hx => ?_⟩⟩
      have hle : consecutive tx.accountNonce m.items ≤ m.items.length := by
        by_contra hgt
        change (m.items.drop _).head? = some x at hx
        rw [List.drop_of_length_le (Nat.le_of_not_le hgt)] at hx
        cases hx
      rw [List.length_take, Nat.min_eq_left hle]
      exact hstop x hx

end Geth.Core.TxSortedMap
