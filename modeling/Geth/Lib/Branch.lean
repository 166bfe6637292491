import Mathlib.Algebra.BigOperators.Group.List.Basic
import Mathlib.Algebra.Order.Group.Int

/-!
# Branches of a tree of linked nodes

Nodes are known by a key, name their parent by its key and carry their height. A branch is the list
of the ancestors of a node down to the root; in a tree every node has exactly one, and a branch has
one node at each level.
-/

namespace Geth.Lib

open List

section

variable {α κ : Type} (key link : α → κ) (height : α → Nat) (root : α)

/-- `x` is a child of `y`. -/
def Child (x y : α) : Prop := link x = key y ∧ height x = height y + 1

/-- The nodes from one of `s` down to the root. -/
inductive Branch (s : List α) : List α → Prop where
  | root : Branch s [root]
  | child {x y : α} {l : List α} (hx : x ∈ s) (hxy : Child key link height x y)
      (hy : Branch s (y :: l)) : Branch s (x :: y :: l)

/-- The nodes of `s` form a tree: keys are distinct, and every node but the root has its parent in
`s`. -/
structure Tree (s : List α) : Prop where
  root_mem : root ∈ s
  height_root : height root = 0
  inj : ∀ x ∈ s, ∀ y ∈ s, key x = key y → x = y
  parent : ∀ x ∈ s, x = root ∨ ∃ y ∈ s, Child key link height x y

end

/-- The node of a branch at a level. -/
def level {α : Type} (l : List α) (i : Nat) : Option α := l.reverse[i]?

section Level

variable {α : Type}

theorem level_cons (x : α) (l : List α) (i : Nat) :
    level (x :: l) i = if i = l.length then some x else level l i := by
  rw [level, level, reverse_cons]
  split
  case isTrue h =>
    rw [h, List.getElem?_append_right (by simp)]
    simp
  case isFalse h =>
    rcases Nat.lt_or_gt_of_ne h with hlt | hgt
    · rw [List.getElem?_append_left (by simpa using hlt)]
    · rw [List.getElem?_eq_none (by simp; omega), List.getElem?_eq_none (by simp; omega)]

theorem level_head (x : α) (l : List α) : level (x :: l) l.length = some x := by
  rw [level_cons, if_pos rfl]

theorem level_of_le {l : List α} {i : Nat} (h : l.length ≤ i) : level l i = none :=
  List.getElem?_eq_none (by rwa [length_reverse])

theorem level_lt {l : List α} {i : Nat} {x : α} (h : level l i = some x) : i < l.length := by
  by_contra hi
  rw [level_of_le (not_lt.mp hi)] at h
  cases h

end Level

variable {α κ : Type} {key link : α → κ} {height : α → Nat} {root : α} {s t : List α}

namespace Branch

variable {l : List α} {x : α}

theorem mono (hst : ∀ x ∈ s, x ∈ t) (h : Branch key link height root s l) :
    Branch key link height root t l := by
  induction h with
  | root => exact .root
  | child hx hxy _ ih => exact .child (hst _ hx) hxy ih

theorem of_mem (h : Branch key link height root s l) (ht : ∀ x ∈ l, x ∈ t) :
    Branch key link height root t l := by
  induction h with
  | root => exact .root
  | child hx hxy _ ih =>
    exact .child (ht _ mem_cons_self) hxy (ih fun x hx => ht x (mem_cons_of_mem _ hx))

theorem height_le (h : Branch key link height root s (x :: l)) :
    ∀ c ∈ x :: l, height c ≤ height x := by
  induction l generalizing x with
  | nil =>
    intro c hc
    rw [mem_singleton.1 hc]
  | cons y l ih =>
    cases h with
    | child hx hxy hy =>
      intro c hc
      rcases mem_cons.1 hc with rfl | hc
      · exact Nat.le_refl _
      · have := ih hy c hc
        have := hxy.2
        omega

theorem split_at (h : Branch key link height root s l) {n : Nat} (hroot : height root ≤ n) :
    (∀ c, c ∈ l.takeWhile (n < height ·) ↔ c ∈ l ∧ n < height c) ∧
      ∃ x l', l.dropWhile (n < height ·) = x :: l' ∧ Branch key link height root s (x :: l') ∧
        height x ≤ n := by
  induction h with
  | root =>
    have hnot : ¬ n < height root := Nat.not_lt.2 hroot
    rw [takeWhile_cons_of_neg (by simpa using hnot), dropWhile_cons_of_neg (by simpa using hnot)]
    refine ⟨fun c => ?_, root, [], rfl, .root, hroot⟩
    rw [mem_singleton]
    refine iff_of_false not_mem_nil ?_
    rintro ⟨rfl, hlt⟩
    exact hnot hlt
  | @child x y l hx hxy hy ih =>
    have hbranch : Branch key link height root s (x :: y :: l) := .child hx hxy hy
    by_cases hlt : n < height x
    · rw [takeWhile_cons_of_pos (by simpa using hlt), dropWhile_cons_of_pos (by simpa using hlt)]
      obtain ⟨htake, hdrop⟩ := ih
      refine ⟨fun c => ?_, hdrop⟩
      rw [mem_cons, mem_cons, htake]
      constructor
      · rintro (rfl | ⟨hc, hn⟩)
        · exact ⟨.inl rfl, hlt⟩
        · exact ⟨.inr hc, hn⟩
      · rintro ⟨rfl | hc, hn⟩
        · exact .inl rfl
        · exact .inr ⟨hc, hn⟩
    · rw [takeWhile_cons_of_neg (by simpa using hlt), dropWhile_cons_of_neg (by simpa using hlt)]
      refine ⟨fun c => ?_, x, y :: l, rfl, hbranch, Nat.not_lt.1 hlt⟩
      refine iff_of_false not_mem_nil ?_
      rintro ⟨hc, hn⟩
      exact hlt (Nat.lt_of_lt_of_le hn (hbranch.height_le c hc))

theorem height_eq (h0 : height root = 0) (h : Branch key link height root s (x :: l)) :
    height x = l.length := by
  induction l generalizing x with
  | nil =>
    cases h
    exact h0
  | cons y l ih =>
    cases h with
    | child hx hxy hy => rw [hxy.2, ih hy, length_cons]

theorem mem (hroot : root ∈ s) (h : Branch key link height root s l) : ∀ x ∈ l, x ∈ s := by
  induction h with
  | root =>
    intro x hx
    rwa [mem_singleton.mp hx]
  | child hx _ _ ih =>
    intro z hz
    rcases mem_cons.mp hz with rfl | hz
    · exact hx
    · exact ih z hz

theorem level_zero (h : Branch key link height root s l) : level l 0 = some root := by
  induction h with
  | root => rfl
  | child _ _ _ ih => rw [level_cons, if_neg (by simp), ih]

theorem of_level (h : Branch key link height root s l) {i : Nat} (hi : level l i = some x) :
    ∃ l', Branch key link height root s (x :: l') ∧ l'.length = i ∧
      ∀ j ≤ i, level l j = level (x :: l') j := by
  induction h with
  | root =>
    rw [level_cons] at hi
    split at hi
    case isTrue h0 =>
      cases hi
      exact ⟨[], .root, h0.symm, fun _ _ => rfl⟩
    case isFalse => cases hi
  | @child y z l hy hyz hz ih =>
    rw [level_cons] at hi
    split at hi
    case isTrue h0 =>
      cases hi
      exact ⟨z :: l, .child hy hyz hz, h0.symm, fun _ _ => rfl⟩
    case isFalse h0 =>
      obtain ⟨l', hl', hlen, heq⟩ := ih hi
      refine ⟨l', hl', hlen, fun j hj => ?_⟩
      have hlt := level_lt hi
      rw [level_cons, if_neg (by omega), heq j hj]

end Branch

namespace Tree

variable (ht : Tree key link height root s)

include ht

theorem unique {x : α} {l l' : List α} (h : Branch key link height root s (x :: l))
    (h' : Branch key link height root s (x :: l')) : l = l' := by
  have hlen : l.length = l'.length :=
    (h.height_eq ht.height_root).symm.trans (h'.height_eq ht.height_root)
  induction l generalizing x l' with
  | nil => exact (length_eq_zero_iff.mp hlen.symm).symm
  | cons y l ih =>
    cases h' with
    | root => cases hlen
    | @child _ y' l' hx' hxy' hy' =>
      cases h with
      | child hx hxy hy =>
        obtain rfl : y = y' := ht.inj y (hy.mem ht.root_mem y mem_cons_self) y'
          (hy'.mem ht.root_mem y' mem_cons_self) (hxy.1.symm.trans hxy'.1)
        rw [ih hy hy' (Nat.succ.inj hlen)]

theorem branch {x : α} (hx : x ∈ s) : ∃ l, Branch key link height root s (x :: l) := by
  induction hn : height x using Nat.strong_induction_on generalizing x with
  | _ n ih =>
    rcases ht.parent x hx with rfl | ⟨y, hy, hxy⟩
    · exact ⟨[], .root⟩
    · obtain ⟨l, hl⟩ := ih (height y) (by have := hxy.2; omega) hy rfl
      exact ⟨y :: l, .child hx hxy hl⟩

theorem agree {l l' : List α} (h : Branch key link height root s l)
    (h' : Branch key link height root s l') {i : Nat} {x : α} (hi : level l i = some x)
    (hi' : level l' i = some x) {j : Nat} (hj : j ≤ i) : level l j = level l' j := by
  obtain ⟨m, hm, -, heq⟩ := h.of_level hi
  obtain ⟨m', hm', -, heq'⟩ := h'.of_level hi'
  rw [heq j hj, heq' j hj, ht.unique hm hm']

theorem grow {x y : α} (hy : y ∈ s) (hxy : Child key link height x y)
    (hinj : ∀ z ∈ s, key z = key x → z = x) : Tree key link height root (x :: s) where
  root_mem := mem_cons_of_mem x ht.root_mem
  height_root := ht.height_root
  inj := by
    intro a ha b hb hab
    rcases mem_cons.mp ha with hax | has <;> rcases mem_cons.mp hb with hbx | hbs
    · rw [hax, hbx]
    · rw [hax] at hab ⊢
      exact (hinj b hbs hab.symm).symm
    · rw [hbx] at hab ⊢
      exact hinj a has hab
    · exact ht.inj a has b hbs hab
  parent := by
    intro a ha
    rcases mem_cons.mp ha with rfl | ha
    · exact .inr ⟨y, mem_cons_of_mem a hy, hxy⟩
    · exact (ht.parent a ha).imp id fun ⟨b, hb, hab⟩ => ⟨b, mem_cons_of_mem x hb, hab⟩

end Tree

end Geth.Lib
