import Mathlib.Data.List.Perm.Basic
import Mathlib.Logic.Equiv.Basic

/-!
# Binary heaps in an array

The operations of Go's `container/heap` over an array and a comparison of its elements: an element
is never less than its parent, so the first one is a least one.  The comparison reads positions, as
`heap.Interface` does; two positions of which one is outside compare as not less.
-/

namespace Geth.Lib.Heap

open List Option

variable {α : Type} (less : α → α → Bool)

/-- `Less(i, j)`. -/
def lessAt (h : Array α) (i j : Nat) : Bool :=
  match h[i]?, h[j]? with
  | some x, some y => less x y
  | _, _ => false

/-- `up`; every round leaves `j` smaller. -/
def up : Nat → Array α → Nat → Array α
  | 0, h, _ => h
  | fuel + 1, h, j =>
    let i := (j - 1) / 2
    if i = j ∨ !lessAt less h j i then h else up fuel (h.swapIfInBounds i j) i

/-- The child of `i` that `down` compares with it: the second one if it is there and less. -/
def leastChild (h : Array α) (i n : Nat) : Nat :=
  if 2 * i + 2 < n ∧ lessAt less h (2 * i + 2) (2 * i + 1) then 2 * i + 2 else 2 * i + 1

/-- `down`, below `n`; every round leaves `i` larger. -/
def down : Nat → Array α → Nat → Nat → Array α
  | 0, h, _, _ => h
  | fuel + 1, h, i, n =>
    if n ≤ 2 * i + 1 then h
    else
      let j := leastChild less h i n
      if !lessAt less h j i then h else down fuel (h.swapIfInBounds i j) j n

def push (h : Array α) (x : α) : Array α := up less (h.size + 1) (h.push x) h.size

/-- `heap.Pop`; `none` is the panic on an empty heap. -/
def pop (h : Array α) : Option (α × Array α) :=
  let n := h.size - 1
  let h' := down less n (h.swapIfInBounds 0 n) 0 n
  h'.back?.map fun x => (x, h'.pop)

/-- Whether `down` moves the element at `i`. -/
def sinks (h : Array α) (i n : Nat) : Bool :=
  decide (2 * i + 1 < n) && lessAt less h (leastChild less h i n) i

/-- What is done for an element that has changed, in the heap below `n`: `down`, and `up` if the
element has not moved. -/
def fixBelow (h : Array α) (i n : Nat) : Array α :=
  if sinks less h i n then down less n h i n else up less (i + 1) h i

def fix (h : Array α) (i : Nat) : Array α := fixBelow less h i h.size

/-- `heap.Remove`; `none` is the panic on an empty heap. -/
def remove (h : Array α) (i : Nat) : Option (α × Array α) :=
  let n := h.size - 1
  let h' := if n ≠ i then fixBelow less (h.swapIfInBounds i n) i n else h
  h'.back?.map fun x => (x, h'.pop)

/-- The loop of `heap.Init`, from `i - 1` down. -/
def initFrom : Nat → Array α → Array α
  | 0, h => h
  | i + 1, h => initFrom i (down less h.size h i h.size)

def init (h : Array α) : Array α := initFrom less (h.size / 2) h

/-! ## Positions -/

variable {h h' : Array α} {i j k n : Nat} {x : α}

theorem getElem?_swapIfInBounds (hi : i < h.size) (hj : j < h.size) (k : Nat) :
    (h.swapIfInBounds i j)[k]? = h[Equiv.swap i j k]? := by
  rw [Array.swapIfInBounds, dif_pos hi, dif_pos hj, Array.getElem?_swap, Equiv.swap_apply_def]
  by_cases hk : k = i
  · subst hk
    by_cases hjk : j = k
    · subst hjk
      simp
    · simp [hjk, Array.getElem?_eq_getElem hj]
  · by_cases hkj : k = j
    · subst hkj
      simp [hk, Array.getElem?_eq_getElem hi]
    · simp [hk, hkj, Ne.symm hk, Ne.symm hkj]

theorem lessAt_swap (hi : i < h.size) (hj : j < h.size) (a b : Nat) :
    lessAt less (h.swapIfInBounds i j) a b
      = lessAt less h (Equiv.swap i j a) (Equiv.swap i j b) := by
  simp [lessAt, getElem?_swapIfInBounds hi hj]

theorem swapIfInBounds_perm (h : Array α) (i j : Nat) :
    (h.swapIfInBounds i j).toList.Perm h.toList := by
  unfold Array.swapIfInBounds
  split
  · split
    · exact (Array.swap_perm _ _).toList
    · exact Perm.refl _
  · exact Perm.refl _

@[simp] theorem size_down (fuel : Nat) (h : Array α) (i n : Nat) :
    (down less fuel h i n).size = h.size := by
  induction fuel generalizing h i with
  | zero => rfl
  | succ fuel ih =>
    rw [down]
    split
    · rfl
    · dsimp only
      split
      · rfl
      · rw [ih, Array.size_swapIfInBounds]

theorem up_perm (fuel : Nat) (h : Array α) (j : Nat) : (up less fuel h j).toList.Perm h.toList := by
  induction fuel generalizing h j with
  | zero => exact Perm.refl _
  | succ fuel ih =>
    rw [up]
    split
    · exact Perm.refl _
    · exact (ih _ _).trans (swapIfInBounds_perm h _ _)

theorem down_perm (fuel : Nat) (h : Array α) (i n : Nat) :
    (down less fuel h i n).toList.Perm h.toList := by
  induction fuel generalizing h i with
  | zero => exact Perm.refl _
  | succ fuel ih =>
    rw [down]
    split
    · exact Perm.refl _
    · dsimp only
      split
      · exact Perm.refl _
      · exact (ih _ _).trans (swapIfInBounds_perm h _ _)

/-! ## No element is lost -/

theorem push_perm (h : Array α) (x : α) : (push less h x).toList.Perm (x :: h.toList) := by
  refine (up_perm less _ _ _).trans ?_
  rw [Array.toList_push]
  exact perm_append_singleton x h.toList

theorem perm_pop (hx : h.back? = some x) : h.toList.Perm (x :: h.pop.toList) := by
  have hlast : h.toList = h.pop.toList ++ [x] := by
    rw [← Array.getLast?_toList] at hx
    exact (dropLast_append_getLast? x hx).symm
  rw [hlast]
  exact perm_append_singleton x _

theorem pop_perm (e : pop less h = some (x, h')) : h.toList.Perm (x :: h'.toList) := by
  rw [pop] at e
  obtain ⟨k, hk⟩ :
      ∃ k, down less (h.size - 1) (h.swapIfInBounds 0 (h.size - 1)) 0 (h.size - 1) = k :=
    ⟨_, rfl⟩
  have hperm : k.toList.Perm h.toList :=
    hk ▸ (down_perm less _ _ _ _).trans (swapIfInBounds_perm h _ _)
  simp only [hk, map_eq_some_iff, Prod.mk.injEq] at e
  obtain ⟨y, hy, rfl, rfl⟩ := e
  exact hperm.symm.trans (perm_pop hy)

theorem initFrom_perm (i : Nat) (h : Array α) : (initFrom less i h).toList.Perm h.toList := by
  induction i generalizing h with
  | zero => exact Perm.refl _
  | succ i ih => exact (ih _).trans (down_perm less _ _ _ _)

theorem init_perm (h : Array α) : (init less h).toList.Perm h.toList := initFrom_perm less _ h

theorem pop_isSome (hne : h.size ≠ 0) : ∃ x h', pop less h = some (x, h') := by
  obtain ⟨k, hk⟩ :
      ∃ k, down less (h.size - 1) (h.swapIfInBounds 0 (h.size - 1)) 0 (h.size - 1) = k :=
    ⟨_, rfl⟩
  have hsize : k.size = h.size := by rw [← hk, size_down, Array.size_swapIfInBounds]
  obtain ⟨x, hx⟩ : ∃ x, k.back? = some x := by
    exact ⟨_, Array.getElem?_eq_getElem (by omega)⟩
  refine ⟨x, k.pop, ?_⟩
  rw [pop]
  simp [hk, hx]

theorem pop_eq_none (he : h.size = 0) : pop less h = none := by
  obtain rfl : h = #[] := Array.eq_empty_of_size_eq_zero he
  rfl

/-! ## The order -/

/-- No position below `n` is less than its parent, for the parents from `lo` on. -/
def OrderedFrom (h : Array α) (lo n : Nat) : Prop :=
  ∀ j, 0 < j → j < n → lo ≤ (j - 1) / 2 → lessAt less h j ((j - 1) / 2) = false

/-- The whole array is a heap. -/
def Ordered (h : Array α) : Prop := OrderedFrom less h 0 h.size

/-- `less` is a strict weak order: it is asymmetric, and "not less" is transitive. -/
structure WeakOrder : Prop where
  asymm : ∀ x y, less x y = true → less y x = false
  trans : ∀ x y z, less x y = false → less y z = false → less x z = false

variable {less}

theorem WeakOrder.lessAt_asymm (w : WeakOrder less) (e : lessAt less h i j = true) :
    lessAt less h j i = false := by
  revert e
  unfold lessAt
  cases h[i]? <;> cases h[j]? <;> simp
  exact w.asymm _ _

theorem WeakOrder.lessAt_trans (w : WeakOrder less) (hj : j < h.size)
    (e : lessAt less h i j = false) (e' : lessAt less h j k = false) :
    lessAt less h i k = false := by
  revert e e'
  unfold lessAt
  rw [Array.getElem?_eq_getElem hj]
  cases h[i]? <;> cases h[k]? <;> simp
  exact w.trans _ _ _

theorem WeakOrder.lessAt_self (w : WeakOrder less) (h : Array α) (i : Nat) :
    lessAt less h i i = false := by
  cases e : lessAt less h i i with
  | false => rfl
  | true => exact absurd (w.lessAt_asymm e) (by rw [e]; simp)

theorem leastChild_spec (w : WeakOrder less) (h : Array α) {c : Nat} (hc : c < n)
    (hparent : c = 2 * i + 1 ∨ c = 2 * i + 2) :
    lessAt less h c (leastChild less h i n) = false := by
  unfold leastChild
  split
  · next hsnd =>
    rcases hparent with rfl | rfl
    · exact w.lessAt_asymm hsnd.2
    · exact w.lessAt_self h _
  · next hfst =>
    rcases hparent with rfl | rfl
    · exact w.lessAt_self h _
    · simpa [hc] using hfst

theorem leastChild_eq (less : α → α → Bool) (h : Array α) (i n : Nat) :
    leastChild less h i n = 2 * i + 1 ∨ leastChild less h i n = 2 * i + 2 := by
  unfold leastChild
  split <;> simp

theorem leastChild_lt (less : α → α → Bool) (h : Array α) (hn : ¬ n ≤ 2 * i + 1) :
    leastChild less h i n < n := by
  unfold leastChild
  split <;> omega

/-- The order while `down` is at `i`: only the children of `i` may be less than it, and they are
not less than the parent of `i`. -/
structure Sinking (less : α → α → Bool) (h : Array α) (lo i n : Nat) : Prop where
  apart : ∀ j, 0 < j → j < n → lo ≤ (j - 1) / 2 → (j - 1) / 2 ≠ i →
    lessAt less h j ((j - 1) / 2) = false
  across : 0 < i → lo ≤ (i - 1) / 2 → ∀ c, c < n → c = 2 * i + 1 ∨ c = 2 * i + 2 →
    lessAt less h c ((i - 1) / 2) = false

theorem Sinking.swap (w : WeakOrder less) {lo : Nat} (s : Sinking less h lo i n) (hn : n ≤ h.size)
    (hchild : ¬ n ≤ 2 * i + 1) (hless : lessAt less h (leastChild less h i n) i = true) :
    Sinking less (h.swapIfInBounds i (leastChild less h i n)) lo (leastChild less h i n) n := by
  have hmin := fun c hc => leastChild_spec w h (i := i) (n := n) (c := c) hc
  have hjn : leastChild less h i n < n := leastChild_lt less h hchild
  have hj := leastChild_eq less h i n
  revert hmin hless hjn hj
  generalize leastChild less h i n = j
  intro hless hmin hjn hj
  have hi : i < h.size := by omega
  have hjs : j < h.size := by omega
  constructor
  · intro k hk hkn hlo hkj
    rw [lessAt_swap less hi hjs]
    by_cases hki : k = i
    · -- the moved child under the parent of `i`
      have hpi : (k - 1) / 2 ≠ i := by omega
      rw [hki, Equiv.swap_apply_left, Equiv.swap_apply_of_ne_of_ne (hki ▸ hpi) (hki ▸ hkj)]
      exact s.across (by omega) (hki ▸ hlo) j hjn hj
    · by_cases hpi : (k - 1) / 2 = i
      · rw [hpi, Equiv.swap_apply_left]
        by_cases hkj' : k = j
        · rw [hkj', Equiv.swap_apply_right]
          exact w.lessAt_asymm hless
        · rw [Equiv.swap_apply_of_ne_of_ne hki hkj']
          exact hmin k hkn (by omega)
      · have hkj' : k ≠ j := by omega
        rw [Equiv.swap_apply_of_ne_of_ne hki hkj', Equiv.swap_apply_of_ne_of_ne hpi hkj]
        exact s.apart k hk hkn hlo hpi
  · intro _ hlo c hc hcj
    have hparent : (j - 1) / 2 = i := by omega
    have hcp : (c - 1) / 2 = j := by omega
    rw [lessAt_swap less hi hjs, hparent, Equiv.swap_apply_left,
      Equiv.swap_apply_of_ne_of_ne (by omega) (by omega)]
    have := s.apart c (by omega) hc (by omega) (by omega)
    rwa [hcp] at this

theorem down_ordered (w : WeakOrder less) (fuel : Nat) (lo i n : Nat) (hn : n ≤ h.size)
    (hfuel : n ≤ i + fuel) (s : Sinking less h lo i n) :
    OrderedFrom less (down less fuel h i n) lo n := by
  induction fuel generalizing h i with
  | zero =>
    intro j hj hjn hlo
    exact s.apart j hj hjn hlo (by omega)
  | succ fuel ih =>
    rw [down]
    split
    · intro j hj hjn hlo
      exact s.apart j hj hjn hlo (by omega)
    · next hchild =>
      dsimp only
      split
      · next hstop =>
        intro j hj hjn hlo
        have hlt := leastChild_lt less h hchild
        by_cases hp : (j - 1) / 2 = i
        · rw [hp]
          exact w.lessAt_trans (Nat.lt_of_lt_of_le hlt hn)
            (leastChild_spec w h hjn (by omega)) (by simpa using hstop)
        · exact s.apart j hj hjn hlo hp
      · next hgo =>
        have hgt : i < leastChild less h i n := by
          rcases leastChild_eq less h i n with e | e <;> omega
        exact ih _ (by rw [Array.size_swapIfInBounds]; exact hn) (by omega)
          (s.swap w hn hchild (by simpa using hgo))

/-- The order while `up` is at `j`: only `j` may be less than its parent, and its children are not
less than that parent. -/
structure Rising (less : α → α → Bool) (h : Array α) (j n : Nat) : Prop where
  apart : ∀ k, 0 < k → k < n → k ≠ j → lessAt less h k ((k - 1) / 2) = false
  across : 0 < j → ∀ c, c < n → c = 2 * j + 1 ∨ c = 2 * j + 2 →
    lessAt less h c ((j - 1) / 2) = false

theorem Rising.swap (w : WeakOrder less) (r : Rising less h j n) (hn : n ≤ h.size) (hjn : j < n)
    (hpos : (j - 1) / 2 ≠ j) (hless : lessAt less h j ((j - 1) / 2) = true) :
    Rising less (h.swapIfInBounds ((j - 1) / 2) j) ((j - 1) / 2) n := by
  obtain ⟨i, hi⟩ : ∃ i, (j - 1) / 2 = i := ⟨_, rfl⟩
  have hacross := fun c hc hcj => hi ▸ r.across (by omega) c hc hcj
  rw [hi] at hless hpos ⊢
  have hj : j < h.size := by omega
  have his : i < h.size := by omega
  have hij : lessAt less h i j = false := w.lessAt_asymm hless
  constructor
  · intro k hk hkn hki
    rw [lessAt_swap less his hj]
    by_cases hkj : k = j
    · rw [hkj, hi, Equiv.swap_apply_right, Equiv.swap_apply_left]
      exact hij
    · rw [Equiv.swap_apply_of_ne_of_ne hki hkj]
      by_cases hpi : (k - 1) / 2 = i
      · rw [hpi, Equiv.swap_apply_left]
        exact w.lessAt_trans his (hpi ▸ r.apart k hk hkn hkj) hij
      · by_cases hpj : (k - 1) / 2 = j
        · rw [hpj, Equiv.swap_apply_right]
          exact hacross k hkn (by omega)
        · rw [Equiv.swap_apply_of_ne_of_ne hpi hpj]
          exact r.apart k hk hkn hkj
  · intro hi0 c hc hci
    have hup : lessAt less h i ((i - 1) / 2) = false := r.apart i hi0 (by omega) (by omega)
    have hp : Equiv.swap i j ((i - 1) / 2) = (i - 1) / 2 :=
      Equiv.swap_apply_of_ne_of_ne (by omega) (by omega)
    rw [lessAt_swap less his hj, hp]
    by_cases hcj : c = j
    · rw [hcj, Equiv.swap_apply_right]
      exact hup
    · rw [Equiv.swap_apply_of_ne_of_ne (by omega) hcj]
      have hcp : (c - 1) / 2 = i := by omega
      exact w.lessAt_trans his (hcp ▸ r.apart c (by omega) hc hcj) hup

theorem up_ordered (w : WeakOrder less) (fuel : Nat) (hfuel : j < fuel) (hn : n ≤ h.size)
    (hj : j < n) (r : Rising less h j n) :
    OrderedFrom less (up less fuel h j) 0 n := by
  induction fuel generalizing h j with
  | zero => omega
  | succ fuel ih =>
    rw [up]
    split
    · next hstop =>
      intro k hk hkn _
      by_cases hkj : k = j
      · subst hkj
        rcases hstop with e | e
        · omega
        · simpa using e
      · exact r.apart k hk hkn hkj
    · next hgo =>
      have hgo' : (j - 1) / 2 ≠ j ∧ lessAt less h j ((j - 1) / 2) = true := by
        simpa [not_or] using hgo
      exact ih (by omega) (by rw [Array.size_swapIfInBounds]; exact hn) (by omega)
        (r.swap w hn hj hgo'.1 hgo'.2)

/-! ## The operations keep the order -/

theorem size_push (h : Array α) (x : α) : (push less h x).size = h.size + 1 := by
  have := (push_perm less h x).length_eq
  simpa using this

theorem push_ordered (w : WeakOrder less) (o : Ordered less h) (x : α) :
    Ordered less (push less h x) := by
  have hold : ∀ k, 0 < k → k < h.size → lessAt less (h.push x) k ((k - 1) / 2) = false := by
    intro k hk hkn
    have := o k hk hkn (Nat.zero_le _)
    unfold lessAt at this ⊢
    rwa [Array.getElem?_push_lt (by omega), Array.getElem?_push_lt (by omega),
      ← Array.getElem?_eq_getElem, ← Array.getElem?_eq_getElem]
  have hup := up_ordered w (h.size + 1) (h := h.push x) (j := h.size) (by omega) (Nat.le_refl _)
    (by simp)
    { apart := by
        intro k hk hkn hkj
        exact hold k hk (by simp at hkn; omega)
      across := by
        intro _ c hc hcj
        simp at hc
        omega }
  unfold Ordered
  rw [size_push]
  simpa [push] using hup

theorem ordered_pop (o : OrderedFrom less h 0 (h.size - 1)) : Ordered less h.pop := by
  intro j hj hjn hlo
  rw [Array.size_pop] at hjn
  have := o j hj hjn hlo
  unfold lessAt at this ⊢
  rwa [Array.getElem?_pop, Array.getElem?_pop, if_pos hjn, if_pos (by omega)]

theorem pop_ordered (w : WeakOrder less) (o : Ordered less h) (e : pop less h = some (x, h')) :
    Ordered less h' := by
  rw [pop] at e
  have hdown := down_ordered w (h.size - 1) (h := h.swapIfInBounds 0 (h.size - 1)) 0 0
    (h.size - 1) (by rw [Array.size_swapIfInBounds]; omega) (by omega)
    { apart := by
        intro j hj hjn _ hp
        rw [lessAt_swap less (by omega) (by omega),
          Equiv.swap_apply_of_ne_of_ne (by omega) (by omega),
          Equiv.swap_apply_of_ne_of_ne hp (by omega)]
        exact o j hj (by omega) (Nat.zero_le _)
      across := by
        omega }
  obtain ⟨k, hk⟩ :
      ∃ k, down less (h.size - 1) (h.swapIfInBounds 0 (h.size - 1)) 0 (h.size - 1) = k :=
    ⟨_, rfl⟩
  have hsize : k.size = h.size := by rw [← hk, size_down, Array.size_swapIfInBounds]
  rw [hk] at hdown
  simp only [hk, map_eq_some_iff, Prod.mk.injEq] at e
  obtain ⟨y, -, -, rfl⟩ := e
  exact ordered_pop (by rwa [hsize])

theorem initFrom_ordered (w : WeakOrder less) (i : Nat) (o : OrderedFrom less h i h.size) :
    Ordered less (initFrom less i h) := by
  induction i generalizing h with
  | zero => exact o
  | succ i ih =>
    have hdown := down_ordered w h.size (h := h) i i h.size (Nat.le_refl _) (by omega)
      { apart := fun j hj hjn hlo hp => o j hj hjn (by omega)
        across := by
          omega }
    refine ih ?_
    rwa [size_down]

theorem init_ordered (w : WeakOrder less) (h : Array α) : Ordered less (init less h) :=
  initFrom_ordered w _ fun j hj hjn hlo => by omega

theorem Ordered.lessAt_zero (w : WeakOrder less) (o : Ordered less h) (j : Nat) (hj : j < h.size) :
    lessAt less h j 0 = false := by
  induction j using Nat.strongRecOn with
  | ind j ih =>
    rcases Nat.eq_zero_or_pos j with rfl | hpos
    · exact w.lessAt_self h 0
    · exact w.lessAt_trans (by omega) (o j hpos hj (Nat.zero_le _)) (ih _ (by omega) (by omega))

theorem Ordered.le_head (w : WeakOrder less) (o : Ordered less h) {y : α} (hx : h[0]? = some x)
    (hy : y ∈ h.toList) : less y x = false := by
  obtain ⟨j, hj⟩ := mem_iff_getElem?.1 hy
  rw [Array.getElem?_toList] at hj
  obtain ⟨hlt, -⟩ := Array.getElem?_eq_some_iff.1 hj
  have := o.lessAt_zero w j hlt
  rwa [lessAt, hj, hx] at this

theorem getElem?_down (fuel : Nat) (hn : n ≤ h.size) (hk : n ≤ k) :
    (down less fuel h i n)[k]? = h[k]? := by
  induction fuel generalizing h i with
  | zero => rfl
  | succ fuel ih =>
    rw [down]
    split
    · rfl
    · next hchild =>
      dsimp only
      split
      · rfl
      · have hlt := leastChild_lt less h hchild
        rw [ih (by rw [Array.size_swapIfInBounds]; exact hn),
          getElem?_swapIfInBounds (by omega) (by omega),
          Equiv.swap_apply_of_ne_of_ne (by omega) (by omega)]

theorem pop_head (e : pop less h = some (x, h')) : h[0]? = some x := by
  have hpos : 0 < h.size := by
    have := (pop_perm less e).length_eq
    simp only [Array.length_toList, length_cons] at this
    omega
  rw [pop] at e
  simp only [map_eq_some_iff, Prod.mk.injEq] at e
  obtain ⟨y, hy, rfl, -⟩ := e
  rw [Array.back?, size_down, Array.size_swapIfInBounds,
    getElem?_down _ (by rw [Array.size_swapIfInBounds]; omega) (Nat.le_refl _),
    getElem?_swapIfInBounds hpos (by omega), Equiv.swap_apply_right] at hy
  exact hy

/-! ## Elements that have changed -/

/-- The order around an element that may have any value: its children are not less than its
parent. -/
structure Changed (less : α → α → Bool) (h : Array α) (i n : Nat) : Prop where
  apart : ∀ j, 0 < j → j < n → j ≠ i → (j - 1) / 2 ≠ i → lessAt less h j ((j - 1) / 2) = false
  across : 0 < i → ∀ c, c < n → c = 2 * i + 1 ∨ c = 2 * i + 2 →
    lessAt less h c ((i - 1) / 2) = false

theorem fixBelow_ordered (w : WeakOrder less) (hn : n ≤ h.size) (hi : i < n)
    (s : Changed less h i n) : OrderedFrom less (fixBelow less h i n) 0 n := by
  rw [fixBelow]
  split
  case isTrue hsinks =>
    obtain ⟨hchild, hless⟩ := Bool.and_eq_true_iff.1 hsinks
    have hchild := of_decide_eq_true hchild
    refine down_ordered w n 0 i n hn (by omega) ⟨fun j hj hjn _ hp => ?_,
      fun hpos _ => s.across hpos⟩
    by_cases hji : j = i
    · -- the element is larger than a child, hence not less than its parent
      subst hji
      have hlt := leastChild_lt less h (Nat.not_le_of_lt hchild)
      exact w.lessAt_trans (Nat.lt_of_lt_of_le hlt hn) (w.lessAt_asymm hless)
        (s.across hj _ hlt (leastChild_eq less h j n))
    · exact s.apart j hj hjn hji hp
  case isFalse hsinks =>
    refine up_ordered w (i + 1) (Nat.lt_succ_self i) hn hi ⟨fun j hj hjn hji => ?_, s.across⟩
    by_cases hp : (j - 1) / 2 = i
    · have hchild : 2 * i + 1 < n := by omega
      have hstop : lessAt less h (leastChild less h i n) i = false := by
        rw [sinks, decide_eq_true hchild, Bool.true_and, Bool.not_eq_true] at hsinks
        exact hsinks
      have hlt := leastChild_lt less h (Nat.not_le_of_lt hchild)
      rw [hp]
      exact w.lessAt_trans (Nat.lt_of_lt_of_le hlt hn) (leastChild_spec w h hjn (by omega)) hstop
    · exact s.apart j hj hjn hji hp

theorem fixBelow_perm (h : Array α) (i n : Nat) : (fixBelow less h i n).toList.Perm h.toList := by
  rw [fixBelow]
  split
  · exact down_perm less n h i n
  · exact up_perm less (i + 1) h i

theorem fix_perm (h : Array α) (i : Nat) : (fix less h i).toList.Perm h.toList :=
  fixBelow_perm h i h.size

theorem Ordered.changed (w : WeakOrder less) {g : Array α} (o : Ordered less h) (hn : n ≤ h.size)
    (hg : ∀ k, k < n → k ≠ i → g[k]? = h[k]?) : Changed less g i n := by
  have hless : ∀ j k, j < n → k < n → j ≠ i → k ≠ i → lessAt less g j k = lessAt less h j k := by
    intro j k hj hk hji hki
    rw [lessAt, lessAt, hg j hj hji, hg k hk hki]
  constructor
  · intro j hj hjn hji hp
    rw [hless j _ hjn (by omega) hji hp]
    exact o j hj (by omega) (Nat.zero_le _)
  · intro hpos c hc hci
    have hchild := o c (by omega) (by omega) (Nat.zero_le _)
    have hparent : (c - 1) / 2 = i := by omega
    rw [hparent] at hchild
    rw [hless c _ hc (by omega) (by omega) (by omega)]
    exact w.lessAt_trans (by omega) hchild (o i hpos (by omega) (Nat.zero_le _))

theorem fix_ordered (w : WeakOrder less) (o : Ordered less h) (hi : i < h.size) (x : α) :
    Ordered less (fix less (h.setIfInBounds i x) i) := by
  have hperm : (fix less (h.setIfInBounds i x) i).toList.Perm (h.setIfInBounds i x).toList :=
    fix_perm _ i
  have hsize : (fix less (h.setIfInBounds i x) i).size = h.size := by
    simpa using hperm.length_eq
  rw [Ordered, hsize, fix, Array.size_setIfInBounds]
  refine fixBelow_ordered w (by simp) hi (o.changed w (Nat.le_refl _) fun k _ hk => ?_)
  exact Array.getElem?_setIfInBounds_ne hk.symm

theorem getElem?_up (fuel : Nat) (hj : j < h.size) (hk : j < k) :
    (up less fuel h j)[k]? = h[k]? := by
  induction fuel generalizing h j with
  | zero => rfl
  | succ fuel ih =>
    rw [up]
    split
    · rfl
    · rw [ih (by rw [Array.size_swapIfInBounds]; omega) (by omega),
        getElem?_swapIfInBounds (by omega) hj, Equiv.swap_apply_of_ne_of_ne (by omega) (by omega)]

theorem getElem?_fixBelow (hn : n ≤ h.size) (hi : i < n) (hk : n ≤ k) :
    (fixBelow less h i n)[k]? = h[k]? := by
  rw [fixBelow]
  split
  · exact getElem?_down n hn hk
  · exact getElem?_up (i + 1) (Nat.lt_of_lt_of_le hi hn) (Nat.lt_of_lt_of_le hi hk)

/-- The array of `heap.Remove` before its last element is cut off: ordered below that one, which
is the element that was at `i`. -/
theorem remove_spec (w : WeakOrder less) (o : Ordered less h) (hi : i < h.size) :
    ∃ k : Array α, remove less h i = k.back?.map (fun x => (x, k.pop)) ∧ k.toList.Perm h.toList ∧
      OrderedFrom less k 0 (h.size - 1) ∧ k[h.size - 1]? = h[i]? := by
  refine ⟨_, rfl, ?_⟩
  split
  case isTrue hne =>
    have hn : h.size - 1 ≤ (h.swapIfInBounds i (h.size - 1)).size := by
      rw [Array.size_swapIfInBounds]
      omega
    refine ⟨(fixBelow_perm _ _ _).trans (swapIfInBounds_perm h _ _), ?_, ?_⟩
    · refine fixBelow_ordered w hn (by omega) (o.changed w (by omega) fun k hk hki => ?_)
      rw [getElem?_swapIfInBounds hi (by omega), Equiv.swap_apply_of_ne_of_ne hki (by omega)]
    · rw [getElem?_fixBelow hn (by omega) (Nat.le_refl _), getElem?_swapIfInBounds hi (by omega),
        Equiv.swap_apply_right]
  case isFalse he =>
    have he := not_not.1 he
    refine ⟨Perm.refl _, fun j hj hjn hlo => o j hj (by omega) hlo, ?_⟩
    rw [he]

theorem remove_ordered (w : WeakOrder less) (o : Ordered less h) (hx : h[i]? = some x) :
    ∃ h', remove less h i = some (x, h') ∧ h.toList.Perm (x :: h'.toList) ∧ Ordered less h' := by
  obtain ⟨hi, -⟩ := Array.getElem?_eq_some_iff.1 hx
  obtain ⟨k, hremove, hperm, hordered, hlast⟩ := remove_spec w o hi
  have hsize : k.size = h.size := by simpa using hperm.length_eq
  have hback : k.back? = some x := by rw [Array.back?, hsize, hlast, hx]
  refine ⟨k.pop, by rw [hremove, hback, map_some], ?_, ?_⟩
  · exact hperm.symm.trans (perm_pop hback)
  · exact ordered_pop (by rwa [hsize])

end Geth.Lib.Heap
