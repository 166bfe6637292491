import Geth.Lib.RadixTree

/-!
# Walking a radix tree in preorder

The nodes of a tree in the order of a walk that visits a node before its children, each with the
word that leads to it. The words come in lexicographic order, and those of the values are the words
that the tree stores.
-/

namespace Geth.Lib.RadixTree

open List

variable {A V : Type}

/-- The nodes below the word `p`, with their values; `letters` is the order of the children. -/
def walk (letters : List A) : RadixTree A V → List A → List (List A × Option V)
  | .nil, _ => []
  | .value v, p => [(p, some v)]
  | .short k t, p => (p, none) :: walk letters t (p ++ k)
  | .full ts, p => (p, none) :: letters.flatMap fun a => walk letters (ts a) (p ++ [a])

/-- The value of a node itself. -/
def val? : RadixTree A V → Option V
  | .value v => some v
  | _ => none

/-- What is left of a walk after the node itself and its first `i` children. -/
def later (letters : List A) : RadixTree A V → Nat → List A → List (List A × Option V)
  | .short k t, 0, p => walk letters t (p ++ k)
  | .full ts, i, p => (letters.drop i).flatMap fun a => walk letters (ts a) (p ++ [a])
  | _, _, _ => []

variable {letters : List A}

variable {t : RadixTree A V} {p x : List A}

theorem walk_eq (h : t ≠ .nil) (p : List A) :
    t.walk letters p = (p, t.val?) :: t.later letters 0 p := by
  cases t with
  | nil => exact absurd rfl h
  | _ => rfl

theorem prefix_of_mem_walk {x : List A × Option V} (h : x ∈ t.walk letters p) : p <+: x.1 := by
  induction t generalizing p with
  | nil => cases h
  | value v =>
    rw [mem_singleton.1 h]
  | short k t ih =>
    rcases mem_cons.1 h with rfl | h
    · exact prefix_refl p
    · exact (prefix_append p k).trans (ih h)
  | full ts ih =>
    rcases mem_cons.1 h with rfl | h
    · exact prefix_refl p
    · obtain ⟨a, -, h⟩ := mem_flatMap.1 h
      exact (prefix_append p [a]).trans (ih a h)

theorem prefix_of_mem_later {i : Nat} {x : List A × Option V} (h : x ∈ t.later letters i p) :
    p <+: x.1 := by
  unfold later at h
  split at h
  · exact (prefix_append p _).trans (prefix_of_mem_walk h)
  · obtain ⟨a, -, h⟩ := mem_flatMap.1 h
    exact (prefix_append p [a]).trans (prefix_of_mem_walk h)
  · cases h

theorem mem_walk_some [DecidableEq A] (hall : ∀ a, a ∈ letters) {v : V} :
    (x, some v) ∈ t.walk letters p ↔ ∃ y, x = p ++ y ∧ t.lookup y = some v := by
  induction t generalizing p with
  | nil => simp [walk]
  | value w =>
    simp only [walk, mem_singleton, Prod.mk.injEq, Option.some.injEq, lookup_value]
    constructor
    · rintro ⟨rfl, rfl⟩
      exact ⟨[], by simp⟩
    · rintro ⟨y, rfl, h⟩
      split at h <;> simp_all
  | short k t ih =>
    simp only [walk, mem_cons, Prod.mk.injEq, reduceCtorEq, and_false, false_or, ih]
    constructor
    · rintro ⟨y, rfl, h⟩
      exact ⟨k ++ y, append_assoc p k y, (lookup_short_append k t y).trans h⟩
    · rintro ⟨y, rfl, h⟩
      obtain ⟨z, rfl⟩ := prefix_of_lookup_short (k := k) (t := t) (by rw [h]; rintro ⟨⟩)
      exact ⟨z, (append_assoc p k z).symm, (lookup_short_append k t z).symm.trans h⟩
  | full ts ih =>
    simp only [walk, mem_cons, Prod.mk.injEq, reduceCtorEq, and_false, false_or, mem_flatMap, ih]
    constructor
    · rintro ⟨a, -, y, rfl, h⟩
      exact ⟨a :: y, by simp, h⟩
    · rintro ⟨_ | ⟨a, y⟩, rfl, h⟩
      · cases h
      · exact ⟨a, hall a, y, by simp, h⟩

section Canon

variable [DecidableEq A] {τ : A} {ok : V → Prop}

theorem Canon.notMem_walk {t : RadixTree A V} (h : Canon τ ok t) {p : List A} (hp : τ ∉ p)
    (hx : (x, none) ∈ t.walk letters p) : τ ∉ x := by
  induction h generalizing p with
  | leaf hkey hne hv =>
    simp only [walk, mem_cons, Prod.mk.injEq, and_true, reduceCtorEq, and_false,
      not_mem_nil, or_false] at hx
    rwa [hx]
  | @ext key ts hkey hne hts ih =>
    rcases mem_cons.1 hx with hx | hx
    · rwa [(Prod.mk.inj hx).1]
    · exact ih (by simp [hp, hkey]) hx
  | @branch ts hts hval htwo ih =>
    rcases mem_cons.1 hx with hx | hx
    · rwa [(Prod.mk.inj hx).1]
    · obtain ⟨a, -, hx⟩ := mem_flatMap.1 hx
      by_cases hnil : ts a = .nil
      · rw [hnil] at hx
        cases hx
      · by_cases ha : a = τ
        · subst ha
          obtain ⟨v, -, hv⟩ := hval hnil
          rw [hv] at hx
          simp [walk] at hx
        · exact ih a ha hnil (by simp [hp, Ne.symm ha]) hx

variable [LT A]

omit [DecidableEq A] in
theorem lt_of_prefix {p k : List A} (hk : k ≠ []) (h : p ++ k <+: x) : p < x := by
  obtain ⟨z, rfl⟩ := h
  obtain ⟨a, k, rfl⟩ := exists_cons_of_ne_nil hk
  have hlt := @append_left_lt _ _ p [] (a :: k ++ z) (nil_lt_cons _ _)
  rwa [append_nil, ← append_assoc] at hlt

theorem Canon.sorted_walk (hletters : letters.Pairwise (· < ·)) {t : RadixTree A V}
    (h : Canon τ ok t) (p : List A) :
    (t.walk letters p).Pairwise fun x y => x.1 < y.1 := by
  induction h generalizing p with
  | leaf hkey hne hv =>
    refine pairwise_cons.2 ⟨fun x hx => ?_, pairwise_singleton _ _⟩
    rw [mem_singleton.1 hx]
    exact lt_of_prefix hne (prefix_refl _)
  | @ext key ts hkey hne hts ih =>
    exact pairwise_cons.2 ⟨fun x hx => lt_of_prefix hne (prefix_of_mem_walk hx), ih _⟩
  | @branch ts hts hval htwo ih =>
    refine pairwise_cons.2 ⟨fun x hx => ?_, pairwise_flatMap.2 ⟨fun a _ => ?_, ?_⟩⟩
    · obtain ⟨a, -, hx⟩ := mem_flatMap.1 hx
      exact lt_of_prefix (cons_ne_nil a []) (prefix_of_mem_walk hx)
    · by_cases hnil : ts a = .nil
      · rw [hnil]
        exact .nil
      · by_cases ha : a = τ
        · subst ha
          obtain ⟨v, -, hv⟩ := hval hnil
          rw [hv]
          exact pairwise_singleton _ _
        · exact ih a ha hnil _
    · refine hletters.imp fun {a b} hab x hx y hy => ?_
      obtain ⟨u, hu⟩ := prefix_of_mem_walk hx
      obtain ⟨w, hw⟩ := prefix_of_mem_walk hy
      rw [← hu, ← hw, append_assoc, append_assoc]
      exact append_left_lt (cons_lt_cons_iff.2 (.inl hab))

end Canon

end Geth.Lib.RadixTree
