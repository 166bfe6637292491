import Geth.Core.TxOrder
import Mathlib.Algebra.Order.BigOperators.Group.Finset

/-!
# The order in which transactions are presented

What is left of an account is described by the calls made so far: nothing after a `Pop` on it, and
otherwise what its `Shift`s have not passed.  The heads are the first ones of what is left.
-/

namespace Geth.Core

open Lib Function List Option

theorem txByPrice_weakOrder : Heap.WeakOrder txByPrice where
  asymm x y h := by
    rw [txByPrice, decide_eq_true_eq] at h
    rw [txByPrice, decide_eq_false_iff_not]
    omega
  trans x y z h h' := by
    rw [txByPrice, decide_eq_false_iff_not] at *
    omega

namespace TransactionsByPriceAndNonce

variable {E : Ecdsa}

section Left

variable (E) (acc : TxData → Address)

/-- `tx` is the next one of its account, and no account has a next one of a higher price. -/
structure Best (left : Address → List TxData) (tx : TxData) : Prop where
  next : (left (acc tx)).head? = some tx
  highest : ∀ a tx', (left a).head? = some tx' → tx'.price ≤ tx.price

/-- The set holds the next transaction of every account and those that come after it. -/
structure Holds (t : TransactionsByPriceAndNonce) (left : Address → List TxData) : Prop where
  account : t.signer.account E = acc
  own : ∀ a, ∀ tx ∈ left a, acc tx = a
  nodup : (t.heads.toList.map acc).Nodup
  head : ∀ tx, tx ∈ t.heads.toList ↔ (left (acc tx)).head? = some tx
  tail : ∀ tx ∈ t.heads.toList, t.txs.lookup (acc tx) = some (left (acc tx)).tail
  ordered : Heap.Ordered txByPrice t.heads

/-- What is left of the accounts after a call, with the transaction that it found. -/
def after (left : Address → List TxData) : Call × Option TxData → Address → List TxData
  | (.shift, some tx) => Function.update left (acc tx) (left (acc tx)).tail
  | (.pop, some tx) => Function.update left (acc tx) []
  | _ => left

end Left

variable {acc : TxData → Address} {t : TransactionsByPriceAndNonce} {left : Address → List TxData}

variable {calls : List Call} {log : List (Call × Option TxData)} {t' : TransactionsByPriceAndNonce}

theorem run_cons {c : Call} (h : t.run E (c :: calls) = some (log, t')) :
    ∃ t1 log', t.call E c = some t1 ∧ t1.run E calls = some (log', t') ∧
      log = (c, t.peek) :: log' := by
  simp only [run, bind_eq_bind, bind_eq_some_iff, Option.some.injEq, Prod.mk.injEq] at h
  obtain ⟨t1, h1, ⟨log', last⟩, h2, rfl, rfl⟩ := h
  exact ⟨t1, log', h1, h2, rfl⟩

namespace Holds

variable {tx : TxData}

section

variable (s : t.Holds E acc left)

include s

theorem mem_of_head {a : Address}
    (h : (left a).head? = some tx) : tx ∈ t.heads.toList := by
  rw [s.head, s.own a tx (mem_of_mem_head? h), h]

theorem peek_best (h : t.peek = some tx) : Best acc left tx where
  next := (s.head tx).1 (Array.mem_toList_iff.2 (Array.mem_of_getElem? h))
  highest a tx' h' := by
    have := s.ordered.le_head txByPrice_weakOrder h (s.mem_of_head h')
    rw [txByPrice, decide_eq_false_iff_not] at this
    omega

theorem peek_eq_none : t.peek = none ↔ ∀ a, left a = [] := by
  rw [peek, Array.getElem?_eq_none_iff]
  constructor
  · intro h a
    by_contra hne
    obtain ⟨tx, htx⟩ := isSome_iff_exists.1 (isSome_head?.2 hne)
    have := length_pos_of_mem (s.mem_of_head htx)
    rw [Array.length_toList] at this
    omega
  · intro h
    by_contra hpos
    have hx := Array.getElem?_eq_getElem (Nat.lt_of_not_le hpos)
    have := (s.head _).1 (Array.mem_toList_iff.2 (Array.mem_of_getElem? hx))
    rw [h] at this
    cases this

theorem popped (h : t.peek = some tx) : ∃ t', t.pop = some t' ∧
      t'.Holds E acc (update left (acc tx) []) := by
  obtain ⟨hpos, -⟩ := Array.getElem?_eq_some_iff.1 h
  obtain ⟨x, heads, hpop⟩ := Heap.pop_isSome txByPrice (Nat.ne_of_gt hpos)
  obtain rfl : tx = x := Option.some.inj (h.symm.trans (Heap.pop_head hpop))
  have hperm := Heap.pop_perm txByPrice hpop
  have hnodup := (hperm.map acc).nodup_iff.1 s.nodup
  rw [map_cons, nodup_cons] at hnodup
  have hother : ∀ y ∈ heads.toList, acc y ≠ acc tx :=
    fun y hy e => hnodup.1 (e ▸ mem_map_of_mem hy)
  refine ⟨{ t with heads := heads }, by rw [pop, hpop]; rfl, s.account, ?_, hnodup.2, ?_, ?_,
    Heap.pop_ordered txByPrice_weakOrder s.ordered hpop⟩
  · intro a y hy
    by_cases ha : a = acc tx
    · subst ha
      rw [update_self] at hy
      cases hy
    · rw [update_of_ne ha] at hy
      exact s.own a y hy
  · intro y
    by_cases ha : acc y = acc tx
    · rw [ha, update_self]
      exact ⟨fun hy => absurd ha (hother y hy), fun hy => nomatch hy⟩
    · rw [update_of_ne ha, ← s.head, hperm.mem_iff, mem_cons]
      refine ⟨.inr, fun hy => hy.resolve_left ?_⟩
      rintro rfl
      exact ha rfl
  · intro y hy
    rw [update_of_ne (hother y hy)]
    exact s.tail y (hperm.mem_iff.2 (mem_cons_of_mem tx hy))

theorem replaced {next : TxData} {rest : List TxData}
    (h : t.peek = some tx) (hleft : left (acc tx) = tx :: next :: rest) : ({ t with
      txs := t.txs.insert (acc tx) rest
      heads := Heap.fix txByPrice (t.heads.setIfInBounds 0 next) 0 } :
        TransactionsByPriceAndNonce).Holds E acc
      (update left (acc tx) (next :: rest)) := by
  have hnext : acc next = acc tx := by
    refine s.own _ next ?_
    rw [hleft]
    simp
  obtain ⟨heads, hheads⟩ : ∃ heads, t.heads.toList = tx :: heads := by
    cases hl : t.heads.toList with
    | nil =>
      rw [peek, ← Array.getElem?_toList, hl] at h
      cases h
    | cons x heads =>
      rw [peek, ← Array.getElem?_toList, hl] at h
      exact ⟨heads, by rw [Option.some.inj h]⟩
  have hperm :
      (Heap.fix txByPrice (t.heads.setIfInBounds 0 next) 0).toList.Perm (next :: heads) := by
    refine (Heap.fix_perm _ _).trans (Perm.of_eq ?_)
    rw [Array.toList_setIfInBounds, hheads, set_cons_zero]
  have hnodup := s.nodup
  rw [hheads, map_cons, nodup_cons] at hnodup
  have hother : ∀ y ∈ heads, acc y ≠ acc tx :=
    fun y hy e => hnodup.1 (e ▸ mem_map_of_mem hy)
  obtain ⟨hpos, -⟩ := Array.getElem?_eq_some_iff.1 h
  refine ⟨s.account, ?_, ?_, ?_, ?_, Heap.fix_ordered txByPrice_weakOrder s.ordered hpos next⟩
  · intro a y hy
    by_cases ha : a = acc tx
    · subst ha
      rw [update_self] at hy
      refine s.own _ y ?_
      rw [hleft]
      exact mem_cons_of_mem tx hy
    · rw [update_of_ne ha] at hy
      exact s.own a y hy
  · rw [(hperm.map _).nodup_iff, map_cons, hnext]
    exact nodup_cons.2 hnodup
  · intro y
    rw [hperm.mem_iff, mem_cons]
    by_cases ha : acc y = acc tx
    · rw [ha, update_self, List.head?_cons, Option.some.injEq, eq_comm]
      exact or_iff_left fun hy => hother y hy ha
    · rw [update_of_ne ha, ← s.head, hheads, mem_cons]
      refine or_congr ?_ Iff.rfl
      constructor <;> rintro rfl
      · exact absurd hnext ha
      · exact absurd rfl ha
  · intro y hy
    rcases mem_cons.1 (hperm.mem_iff.1 hy) with rfl | hy
    · rw [hnext, update_self, AList.lookup_insert, tail_cons]
    · rw [update_of_ne (hother y hy), AList.lookup_insert_ne (hother y hy)]
      exact s.tail y (by rw [hheads]; exact mem_cons_of_mem tx hy)

theorem shifted (h : t.peek = some tx) :
    ∃ t', t.shift E = some t' ∧ t'.Holds E acc (update left (acc tx) (left (acc tx)).tail) := by
  have hacc := s.account
  subst hacc
  have hmem : tx ∈ t.heads.toList := Array.mem_toList_iff.2 (Array.mem_of_getElem? h)
  have hhead := (s.head tx).1 hmem
  have htail := s.tail tx hmem
  have h0 : t.heads[0]? = some tx := h
  cases hrest : left (t.signer.account E tx) with
  | nil =>
    rw [hrest] at hhead
    cases hhead
  | cons x rest =>
    rw [hrest, List.head?_cons, Option.some.injEq] at hhead
    subst hhead
    rw [hrest, tail_cons] at htail
    cases rest with
    | nil =>
      obtain ⟨t', hpop, s'⟩ := s.popped h
      refine ⟨t', ?_, s'⟩
      simp only [shift, h0, htail]
      exact hpop
    | cons next rest =>
      refine ⟨_, ?_, s.replaced h hrest⟩
      simp [shift, h0, htail]

theorem call (c : Call) : (t.call E c = none ↔ c ≠ .peek ∧ t.peek = none) ∧
      ∀ t', t.call E c = some t' → t'.Holds E acc (after acc left (c, t.peek)) := by
  have hnone : t.peek = none → t.shift E = none ∧ t.pop = none := by
    intro h
    have h0 : t.heads[0]? = none := h
    have hsize : t.heads.size = 0 := by simpa [peek] using h
    refine ⟨by rw [shift, h0], ?_⟩
    rw [pop, Heap.pop_eq_none txByPrice hsize]
    rfl
  cases hp : t.peek with
  | none =>
    obtain ⟨hshift, hpop⟩ := hnone hp
    cases c with
    | peek =>
      refine ⟨by simp [TransactionsByPriceAndNonce.call], fun t' h => ?_⟩
      cases h
      exact s
    | shift => simp [TransactionsByPriceAndNonce.call, hshift]
    | pop => simp [TransactionsByPriceAndNonce.call, hpop]
  | some tx =>
    obtain ⟨t1, h1, s1⟩ := s.shifted hp
    obtain ⟨t2, h2, s2⟩ := s.popped hp
    cases c with
    | peek =>
      refine ⟨by simp [TransactionsByPriceAndNonce.call], fun t' h => ?_⟩
      cases h
      exact s
    | shift =>
      refine ⟨by simp [TransactionsByPriceAndNonce.call, h1], fun t' h => ?_⟩
      cases h1.symm.trans h
      exact s1
    | pop =>
      refine ⟨by simp [TransactionsByPriceAndNonce.call, h2], fun t' h => ?_⟩
      cases h2.symm.trans h
      exact s2

theorem run {calls : List Call} {log : List (Call × Option TxData)}
    {t' : TransactionsByPriceAndNonce}
    (h : t.run E calls = some (log, t')) :
    t'.Holds E acc (log.foldl (after acc) left) := by
  induction calls generalizing t left log with
  | nil =>
    cases h
    exact s
  | cons c calls ih =>
    obtain ⟨t1, log', h1, h2, rfl⟩ := run_cons h
    rw [foldl_cons]
    exact ih ((s.call c).2 t1 h1) h2

end

end Holds

/-! ## The set at the start -/

section New

variable {signer : Signer}

theorem takeHeads_spec {list : Address → List TxData} {order : List Address}
    (hnodup : order.Nodup) (txs : AList fun _ : Address => List TxData) (heads : Array TxData)
    (hlist : ∀ a ∈ order, txs.lookup a = some (list a))
    (hown : ∀ a ∈ order, ∃ tx, (list a).head? = some tx ∧ signer.account E tx = a) :
    ∃ txs' heads', takeHeads E signer order txs heads = some (txs', heads') ∧
      heads'.toList = heads.toList ++ order.filterMap (fun a => (list a).head?) ∧
      (∀ a ∈ order, txs'.lookup a = some (list a).tail) ∧
      ∀ a, a ∉ order → txs'.lookup a = txs.lookup a := by
  induction order generalizing txs heads with
  | nil => exact ⟨txs, heads, rfl, by simp, by simp, fun _ _ => rfl⟩
  | cons a order ih =>
    obtain ⟨hfresh, hnodup⟩ := nodup_cons.1 hnodup
    obtain ⟨tx, hhead, hacc⟩ := hown a mem_cons_self
    obtain ⟨rest, hrest⟩ : ∃ rest, list a = tx :: rest := List.head?_eq_some_iff.1 hhead
    have hother : ∀ b ∈ order, b ≠ a := fun b hb e => hfresh (e ▸ hb)
    obtain ⟨txs', heads', h, hheads, htails, hframe⟩ := ih hnodup (txs.insert a rest)
      (heads.push tx)
      (fun b hb => by
        rw [AList.lookup_insert_ne (hother b hb)]
        exact hlist b (mem_cons_of_mem a hb))
      (fun b hb => hown b (mem_cons_of_mem a hb))
    refine ⟨txs', heads', ?_, ?_, ?_, ?_⟩
    · simp only [takeHeads, hlist a mem_cons_self, hrest, hacc]
      simpa using h
    · rw [hheads, filterMap_cons, hhead, Array.toList_push, append_assoc]
      rfl
    · intro b hb
      rcases mem_cons.1 hb with rfl | hb
      · rw [hframe b hfresh, AList.lookup_insert, hrest, tail_cons]
      · exact htails b hb
    · intro b hb
      rw [mem_cons, not_or] at hb
      rw [hframe b hb.2, AList.lookup_insert_ne hb.1]

/-- The transactions of an account in the map that the set is made of. -/
def listOf (txs : AList fun _ : Address => List TxData) (a : Address) : List TxData :=
  (txs.lookup a).getD []

/-- A map of senders to transactions of theirs. -/
structure Senders (account : TxData → Address) (txs : AList fun _ : Address => List TxData) :
    Prop where
  nonempty : ∀ a list, txs.lookup a = some list → list ≠ []
  sorted : ∀ a list, txs.lookup a = some list →
    list.Pairwise fun tx tx' => tx.accountNonce ≤ tx'.accountNonce
  own : ∀ a list, txs.lookup a = some list → ∀ tx ∈ list, account tx = a

theorem new_holds {txs : AList fun _ : Address => List TxData} {order : List Address}
    (horder : order.Perm txs.keys) (hs : Senders (signer.account E) txs) :
    ∃ t, new E signer txs order = some t ∧ t.Holds E (signer.account E) (listOf txs) := by
  have hlook : ∀ a ∈ order, txs.lookup a = some (listOf txs a) := by
    intro a ha
    obtain ⟨list, hl⟩ := isSome_iff_exists.1
      (AList.lookup_isSome.2 (AList.mem_keys.2 (horder.mem_iff.1 ha)))
    rw [listOf, hl, getD_some]
  have hmem : ∀ a tx, tx ∈ listOf txs a → a ∈ order ∧ signer.account E tx = a := by
    intro a tx htx
    cases hl : txs.lookup a with
    | none =>
      rw [listOf, hl] at htx
      cases htx
    | some list =>
      rw [listOf, hl] at htx
      exact ⟨horder.mem_iff.2 (AList.lookup_isSome.1 (by rw [hl]; rfl)), hs.own a list hl tx htx⟩
  have hown : ∀ a ∈ order, ∃ tx, (listOf txs a).head? = some tx ∧ signer.account E tx = a := by
    intro a ha
    obtain ⟨tx, htx⟩ := isSome_iff_exists.1 (isSome_head?.2 (hs.nonempty a _ (hlook a ha)))
    exact ⟨tx, htx, (hmem a tx (mem_of_mem_head? htx)).2⟩
  obtain ⟨txs', heads, htake, hheads, htails, -⟩ :=
    takeHeads_spec (horder.nodup_iff.2 txs.keys_nodup) txs #[] hlook hown
  rw [nil_append] at hheads
  have hperm := Heap.init_perm txByPrice heads
  rw [hheads] at hperm
  have hhead : ∀ tx, tx ∈ order.filterMap (fun a => (listOf txs a).head?) ↔
      (listOf txs (signer.account E tx)).head? = some tx := by
    intro tx
    rw [mem_filterMap]
    constructor
    · rintro ⟨a, -, ha⟩
      rwa [(hmem a tx (mem_of_mem_head? ha)).2]
    · exact fun h => ⟨_, (hmem _ tx (mem_of_mem_head? h)).1, h⟩
  refine ⟨⟨txs', Heap.init txByPrice heads, signer⟩, by rw [new, htake]; rfl, rfl,
    fun a tx htx => (hmem a tx htx).2, ?_, fun tx => by rw [hperm.mem_iff, hhead],
    fun tx htx => ?_, Heap.init_ordered txByPrice_weakOrder heads⟩
  · have haccounts : (order.filterMap fun a => (listOf txs a).head?).map (signer.account E)
        = order := by
      rw [map_filterMap]
      refine (filterMap_congr fun a ha => ?_).trans (filterMap_some (l := order))
      obtain ⟨tx, htx, hacc⟩ := hown a ha
      rw [htx, map_some, hacc]
    rw [(hperm.map _).nodup_iff, haccounts, horder.nodup_iff]
    exact txs.keys_nodup
  · have htx := (hhead tx).1 (hperm.mem_iff.1 htx)
    exact htails _ (hmem _ tx (mem_of_mem_head? htx)).1

end New

/-! ## What a run presents -/

section Presented

variable (acc)

/-- The transaction that a call passed. -/
def passedBy : Call × Option TxData → Option TxData
  | (.peek, _) => none
  | (_, found) => found

/-- The transactions of an account that were presented until `Shift` or `Pop` passed them. -/
def passed (log : List (Call × Option TxData)) (a : Address) : List TxData :=
  (log.filterMap passedBy).filter fun tx => acc tx = a

/-- All transactions that were presented: those that were passed and the current one. -/
def presented (log : List (Call × Option TxData)) (t : TransactionsByPriceAndNonce) :
    List TxData :=
  log.filterMap passedBy ++ t.peek.toList

end Presented

theorem passed_cons_of_eq {entry : Call × Option TxData} {tx : TxData}
    (h : passedBy entry = some tx) (log : List (Call × Option TxData)) :
    passed acc (entry :: log) (acc tx) = tx :: passed acc log (acc tx) := by
  simp [passed, h]

theorem passed_cons_of_ne {entry : Call × Option TxData} {a : Address}
    (h : ∀ tx, passedBy entry = some tx → acc tx ≠ a) (log : List (Call × Option TxData)) :
    passed acc (entry :: log) a = passed acc log a := by
  cases hp : passedBy entry with
  | none => simp [passed, hp]
  | some tx => simp [passed, hp, h tx hp]

section

variable (s : t.Holds E acc left)

include s

theorem Holds.call_cases {c : Call} (h : t.call E c = some t') :
    (c = .peek ∧ t' = t) ∨ ∃ tx rest, t.peek = some tx ∧ passedBy (c, t.peek) = some tx ∧
      left (acc tx) = tx :: rest ∧ after acc left (c, t.peek) =
        update left (acc tx) (if c = .pop then [] else rest) := by
  cases hp : t.peek with
  | none =>
    refine .inl ?_
    by_cases hc : c = .peek
    · subst hc
      exact ⟨rfl, (Option.some.inj h).symm⟩
    · rw [(s.call c).1.2 ⟨hc, hp⟩] at h
      cases h
  | some tx =>
    obtain ⟨rest, hrest⟩ := List.head?_eq_some_iff.1 (s.peek_best hp).next
    cases c with
    | peek => exact .inl ⟨rfl, (Option.some.inj h).symm⟩
    | shift => exact .inr ⟨tx, rest, rfl, rfl, hrest, by simp [after, hrest]⟩
    | pop => exact .inr ⟨tx, rest, rfl, rfl, hrest, by simp [after]⟩

theorem Holds.run_prefix (h : t.run E calls = some (log, t')) (a : Address)
    :
    passed acc log a ++ log.foldl (after acc) left a <+: left a ∧
      (.pop ∉ calls → passed acc log a ++ log.foldl (after acc) left a = left a) := by
  induction calls generalizing t left log with
  | nil =>
    cases h
    exact ⟨prefix_refl _, fun _ => rfl⟩
  | cons c calls ih =>
    obtain ⟨t1, log', h1, h2, rfl⟩ := run_cons h
    have hrest := ih ((s.call c).2 t1 h1) h2
    rw [foldl_cons]
    have hpop : .pop ∉ c :: calls → c ≠ .pop ∧ .pop ∉ calls := by
      simp [eq_comm]
    rcases s.call_cases h1 with ⟨rfl, rfl⟩ | ⟨tx, rest, hpeek, hpass, hleft, hafter⟩
    · exact ⟨hrest.1, fun hc => hrest.2 (hpop hc).2⟩
    · by_cases ha : a = acc tx
      · subst ha
        rw [passed_cons_of_eq hpass, hleft, cons_append]
        rw [hafter, update_self] at hrest
        rw [hafter]
        refine ⟨prefix_cons_inj tx |>.2 (hrest.1.trans ?_), fun hc => ?_⟩
        · split
          · exact nil_prefix
          · exact prefix_refl _
        · rw [hrest.2 (hpop hc).2, if_neg (hpop hc).1]
      · rw [passed_cons_of_ne fun y hy e => ha (by rw [← e, Option.some.inj (hpass.symm.trans hy)])]
        rw [hafter, update_of_ne ha] at hrest
        rw [hafter]
        exact ⟨hrest.1, fun hc => hrest.2 (hpop hc).2⟩

theorem Holds.run_exhausted {a : Address} (ha : left a = [])
    (h : t.run E calls = some (log, t')) :
    (∀ c tx, (c, some tx) ∈ log → acc tx ≠ a) ∧ ∀ tx, t'.peek = some tx → acc tx ≠ a := by
  have hpeek : ∀ {t : TransactionsByPriceAndNonce} {left : Address → List TxData},
      t.Holds E acc left → left a = [] → ∀ tx, t.peek = some tx → acc tx ≠ a := by
    rintro t left s ha tx htx rfl
    have := (s.peek_best htx).next
    rw [ha] at this
    cases this
  induction calls generalizing t left log with
  | nil =>
    cases h
    exact ⟨fun _ _ hm => (nomatch hm), hpeek s ha⟩
  | cons c calls ih =>
    obtain ⟨t1, log', h1, h2, rfl⟩ := run_cons h
    have hleft : after acc left (c, t.peek) a = [] := by
      rcases s.call_cases h1 with ⟨rfl, rfl⟩ | ⟨tx, rest, htx, -, -, hafter⟩
      · exact ha
      · rw [hafter, update_of_ne (hpeek s ha tx htx).symm, ha]
    obtain ⟨hlog, hlast⟩ := ih ((s.call c).2 t1 h1) hleft h2
    refine ⟨fun c' tx hm => ?_, hlast⟩
    rcases mem_cons.1 hm with e | hm
    · exact hpeek s ha tx (Prod.mk.inj e).2.symm
    · exact hlog c' tx hm

theorem Holds.run_popped {l1 l2 : List (Call × Option TxData)} {tx : TxData}
    (h : t.run E calls = some (log, t'))
    (hlog : log = l1 ++ (.pop, some tx) :: l2) :
    (∀ c tx', (c, some tx') ∈ l2 → acc tx' ≠ acc tx) ∧
      ∀ tx', t'.peek = some tx' → acc tx' ≠ acc tx := by
  induction calls generalizing t left log l1 with
  | nil =>
    cases h
    simp at hlog
  | cons c calls ih =>
    obtain ⟨t1, log', h1, h2, rfl⟩ := run_cons h
    have s1 := (s.call c).2 t1 h1
    cases l1 with
    | nil =>
      rw [nil_append, List.cons.injEq, Prod.mk.injEq] at hlog
      obtain ⟨⟨rfl, hpeek⟩, rfl⟩ := hlog
      refine s1.run_exhausted ?_ h2
      rw [hpeek, after, update_self]
    | cons entry l1 =>
      rw [cons_append, List.cons.injEq] at hlog
      exact ih s1 h2 hlog.2

theorem Holds.run_shifts (accounts : Finset Address)
    (hout : ∀ a, a ∉ accounts → left a = []) :
    ∃ log t', t.run E (List.replicate (∑ a ∈ accounts, (left a).length) .shift) = some (log, t') ∧
      t'.peek = none := by
  generalize hn : ∑ a ∈ accounts, (left a).length = n
  induction n generalizing t left with
  | zero =>
    refine ⟨[], t, rfl, s.peek_eq_none.2 fun a => ?_⟩
    by_cases ha : a ∈ accounts
    · exact eq_nil_of_length_eq_zero (Finset.sum_eq_zero_iff.1 hn a ha)
    · exact hout a ha
  | succ n ih =>
    cases hp : t.peek with
    | none =>
      rw [Finset.sum_eq_zero fun a _ => by rw [s.peek_eq_none.1 hp a, length_nil]] at hn
      cases hn
    | some tx =>
      obtain ⟨rest, hrest⟩ := List.head?_eq_some_iff.1 (s.peek_best hp).next
      obtain ⟨t1, h1, s1⟩ := s.shifted hp
      have hin : acc tx ∈ accounts := by
        by_contra ha
        rw [hout _ ha] at hrest
        cases hrest
      obtain ⟨log, t', h, hnone⟩ := ih s1 (fun a ha => by
          have hne : a ≠ acc tx := fun e => ha (e ▸ hin)
          rw [update_of_ne hne]
          exact hout a ha)
        (by
          rw [← Finset.add_sum_erase _ _ hin, hrest, length_cons] at hn
          rw [← Finset.add_sum_erase _ _ hin, update_self, hrest, tail_cons,
            Finset.sum_congr rfl fun a ha => by
              rw [update_of_ne (Finset.ne_of_mem_erase ha)]]
          omega)
      refine ⟨(.shift, some tx) :: log, t', ?_, hnone⟩
      rw [replicate_succ, TransactionsByPriceAndNonce.run]
      simp [TransactionsByPriceAndNonce.call, h1, h, hp]

theorem Holds.presented_prefix (h : t.run E calls = some (log, t'))
    (a : Address) :
    (presented log t').filter (fun tx => acc tx = a) <+: left a := by
  refine List.IsPrefix.trans ?_ (s.run_prefix h a).1
  rw [presented, filter_append]
  refine (prefix_append_right_inj _).2 ?_
  cases hp : t'.peek with
  | none => exact nil_prefix
  | some tx =>
    by_cases ha : acc tx = a
    · subst ha
      obtain ⟨rest, hrest⟩ := List.head?_eq_some_iff.1 ((s.run h).peek_best hp).next
      simp [hrest]
    · simp [ha]

end

/-- Every run of a set that is made of a map of senders presents the transactions of an account in
their order, each once; the one it presents is the best of those that are next; it ends when none
are left, presents no transaction of an account after `Pop` on it, and with `Shift`s alone all. -/
theorem presents (E : Ecdsa) (signer : Signer) (txs : AList fun _ : Address => List TxData)
    (order : List Address) (horder : order.Perm txs.keys)
    (hs : Senders (signer.account E) txs) :
    ∃ t₀, new E signer txs order = some t₀ ∧ (∀ calls log t, t₀.run E calls = some (log, t) →
        (∀ a, (presented log t).filter (fun tx => signer.account E tx = a) <+: listOf txs a ∧
          ((presented log t).filter fun tx => signer.account E tx = a).Pairwise
            fun tx tx' => tx.accountNonce ≤ tx'.accountNonce) ∧
        (∀ tx, (presented log t).count tx ≤ (listOf txs (signer.account E tx)).count tx) ∧
        (∀ tx, t.peek = some tx →
          Best (signer.account E) (log.foldl (after (signer.account E)) (listOf txs)) tx) ∧
        (t.peek = none ↔ ∀ a, log.foldl (after (signer.account E)) (listOf txs) a = []) ∧
        (∀ l₁ tx l₂, log = l₁ ++ (.pop, some tx) :: l₂ →
          (∀ c tx', (c, some tx') ∈ l₂ → signer.account E tx' ≠ signer.account E tx) ∧
          ∀ tx', t.peek = some tx' → signer.account E tx' ≠ signer.account E tx) ∧
        (.pop ∉ calls → ∀ a, passed (signer.account E) log a ++
          log.foldl (after (signer.account E)) (listOf txs) a = listOf txs a) ∧
        ∀ c, t.call E c = none ↔ c ≠ .peek ∧ t.peek = none) ∧
      ∃ n log t, t₀.run E (List.replicate n .shift) = some (log, t) ∧ t.peek = none ∧
        ∀ a, passed (signer.account E) log a = listOf txs a := by
  obtain ⟨t₀, hnew, s⟩ := new_holds horder hs
  refine ⟨t₀, hnew, fun calls log t h => ?_, ?_⟩
  · have hshown := s.presented_prefix h
    refine ⟨fun a => ⟨hshown a, ?_⟩, fun tx => ?_, fun tx => (s.run h).peek_best,
      (s.run h).peek_eq_none, fun l₁ tx l₂ => s.run_popped h,
      fun hc a => (s.run_prefix h a).2 hc, fun c => ((s.run h).call c).1⟩
    · refine List.Pairwise.sublist (hshown a).sublist ?_
      cases hl : txs.lookup a with
      | none => rw [listOf, hl]; exact List.Pairwise.nil
      | some list => rw [listOf, hl]; exact hs.sorted a list hl
    · refine le_trans (Nat.le_of_eq ?_) ((hshown (signer.account E tx)).sublist.count_le tx)
      rw [List.count_filter]
      exact decide_eq_true rfl
  · obtain ⟨log, t, h, hnone⟩ := s.run_shifts txs.keys.toFinset fun a ha => by
      rw [List.mem_toFinset, ← AList.mem_keys, ← AList.lookup_eq_none] at ha
      rw [listOf, ha, Option.getD_none]
    refine ⟨_, log, t, h, hnone, fun a => ?_⟩
    have hall := (s.run_prefix h a).2 (by simp)
    rw [(s.run h).peek_eq_none.1 hnone a, List.append_nil] at hall
    exact hall

namespace Sample

/-- A curve on which the public key of a signature is `r`, which is also the address. -/
def curve : Ecdsa where
  PrivateKey := Unit
  sign _ _ := none
  ecrecover _ sig := some (4 :: sig.take 32)
  fromECDSAPub _ := []
  keccak := bytesToHash

def tx (sender : UInt8) (nonce : UInt64) (price : Int) : TxData :=
  ⟨nonce, price, 21000, none, 0, [], 27, sender.toNat, 1⟩

def address (sender : UInt8) : Address := bytesToAddress [sender]

/-- The cheap second transaction of the first account comes after that of the other one. -/
def txs : AList fun _ : Address => List TxData :=
  ⟨[⟨address 1, [tx 1 0 5, tx 1 1 1]⟩, ⟨address 2, [tx 2 7 3]⟩], by unfold List.NodupKeys; decide⟩

theorem senders : Senders (Signer.frontier.account curve) txs := by
  have hall : ∀ entry ∈ txs.entries, entry.2 ≠ [] ∧
      (entry.2.Pairwise fun tx tx' => tx.accountNonce ≤ tx'.accountNonce) ∧
      ∀ tx ∈ entry.2, Signer.frontier.account curve tx = entry.1 := by
    decide
  have hlook : ∀ a list, txs.lookup a = some list → ⟨a, list⟩ ∈ txs.entries :=
    fun _ _ h => AList.mem_lookup_iff.1 h
  exact ⟨fun a list h => (hall _ (hlook a list h)).1, fun a list h => (hall _ (hlook a list h)).2.1,
    fun a list h => (hall _ (hlook a list h)).2.2⟩

theorem presents_sample : ∃ t₀, new curve .frontier txs [address 2, address 1] = some t₀ ∧
    ∃ n log t, t₀.run curve (List.replicate n .shift) = some (log, t) ∧ t.peek = none ∧
      ∀ a, passed (Signer.frontier.account curve) log a = listOf txs a := by
  obtain ⟨t₀, h, -, hshift⟩ := presents curve .frontier txs [address 2, address 1]
    (by decide) senders
  exact ⟨t₀, h, hshift⟩

end Sample

end TransactionsByPriceAndNonce

end Geth.Core
