import Geth.Swarm.Intervals
import Mathlib.Order.MinMax

/-!
# Sync intervals are kept normalised

`add` looks at the ends of the ranges only, so that it does not see a range that reaches beyond the
new one at both ends: the new range is then stored again. This is all that goes wrong. Otherwise
`add` inserts the new range, merged with those that it touches.
-/

namespace Geth.Swarm.Intervals

open List

/-- The bounds that the interface allows. -/
def Range.Valid (r : Range) : Prop :=
  r.1 ≤ r.2 ∧ r.2 < 2 ^ 64 - 1

def Has (ranges : List Range) (n : Nat) : Prop :=
  ∃ r ∈ ranges, r.1 ≤ n ∧ n ≤ r.2

/-- Sorted, disjoint and not adjacent, and not below the start. -/
structure Normal (i : Intervals) : Prop where
  sorted : i.ranges.Pairwise fun r r' => r.2 + 1 < r'.1
  valid : ∀ r ∈ i.ranges, i.start ≤ r.1 ∧ Range.Valid r

/-- The range from `a` to `b` does not leave room at both ends of another one. -/
def Outside (ranges : List Range) (a b : Nat) : Prop :=
  ∀ r ∈ ranges, ¬ (r.1 < a ∧ b + 1 < r.2)

variable {j n a b : Nat} {r : Range} {i : Intervals} {before mid after ranges : List Range}

/-! ## Insertion -/

/-- The range from `a` to `b` is inserted and merged with those that it touches. -/
def insert (a b : Nat) : List Range → List Range
  | [] => [(a, b)]
  | r :: ranges =>
    if r.2 + 1 < a then r :: insert a b ranges
    else if b + 1 < r.1 then (a, b) :: r :: ranges
    else insert (min a r.1) (max b r.2) ranges

theorem has_cons : Has (r :: after) n ↔ (r.1 ≤ n ∧ n ≤ r.2) ∨ Has after n :=
  exists_mem_cons_iff ..

theorem has_insert (h : a ≤ b) (hranges : ∀ r ∈ ranges, r.1 ≤ r.2) :
    Has (insert a b ranges) n ↔ Has ranges n ∨ (a ≤ n ∧ n ≤ b) := by
  induction ranges generalizing a b with
  | nil => exact has_cons.trans or_comm
  | cons r ranges ih =>
    obtain ⟨hr, hranges⟩ := forall_mem_cons.1 hranges
    rw [insert]
    split
    · rw [has_cons, ih h hranges, has_cons, or_assoc]
    · split
      · rw [has_cons, or_comm]
      · have hunion : min a r.1 ≤ n ∧ n ≤ max b r.2 ↔ (r.1 ≤ n ∧ n ≤ r.2) ∨ (a ≤ n ∧ n ≤ b) := by
          omega
        rw [ih (by omega) hranges, has_cons, hunion]
        tauto

theorem forall_insert {P : Range → Prop}
    (hP : ∀ r r', P r → P r' → P (min r.1 r'.1, max r.2 r'.2)) (h : P (a, b))
    (hranges : ∀ r ∈ ranges, P r) : ∀ r ∈ insert a b ranges, P r := by
  induction ranges generalizing a b with
  | nil => exact forall_mem_singleton.2 h
  | cons r ranges ih =>
    obtain ⟨hr, hrest⟩ := forall_mem_cons.1 hranges
    rw [insert]
    split
    · exact forall_mem_cons.2 ⟨hr, ih h hrest⟩
    · split
      · exact forall_mem_cons.2 ⟨h, hranges⟩
      · exact ih (hP _ _ h hr) hrest

theorem sorted_insert (h : a ≤ b) (hranges : ∀ r ∈ ranges, r.1 ≤ r.2)
    (hsorted : ranges.Pairwise fun r r' => r.2 + 1 < r'.1) :
    (insert a b ranges).Pairwise fun r r' => r.2 + 1 < r'.1 := by
  induction ranges generalizing a b with
  | nil => exact pairwise_singleton ..
  | cons r ranges ih =>
    obtain ⟨hr, hrest⟩ := forall_mem_cons.1 hranges
    obtain ⟨hlt, hsorted'⟩ := pairwise_cons.1 hsorted
    rw [insert]
    split
    · next hfar =>
      exact pairwise_cons.2 ⟨forall_insert (fun _ _ => lt_min) hfar hlt, ih h hrest hsorted'⟩
    · split
      · next hfar =>
        refine pairwise_cons.2 ⟨forall_mem_cons.2 ⟨hfar, fun x hx => ?_⟩, hsorted⟩
        have := hlt x hx
        omega
      · exact ih (by omega) hrest hsorted'

/-! ## The loop inserts -/

theorem succ_eq (h : n < 2 ^ 64 - 1) : succ n = n + 1 :=
  Nat.mod_eq_of_lt (by omega)

theorem skip {s : Scan} (hr : Range.Valid r) (hs : s.start ≤ s.stop ∧ s.stop < 2 ^ 64 - 1)
    (h : r.2 + 1 < s.start ∨ s.stop + 1 < r.1) : (s.first j r).last j r = s := by
  have hle := hr.1
  rw [Scan.first, if_neg (by rw [succ_eq hs.2, succ_eq hr.2]; omega), Scan.last,
    if_neg (by rw [succ_eq hs.2]; omega)]

theorem last_eq {m k : Option Nat} (hb : b < 2 ^ 64 - 1) (h : a ≤ r.1 ∧ r.1 ≤ b + 1) :
    Scan.last ⟨a, b, m, k⟩ j r = ⟨a, max b r.2, m, some j⟩ := by
  rw [Scan.last, if_pos (.inr ⟨h.1, by rw [succ_eq hb]; exact h.2⟩)]
  dsimp only
  congr 1
  split <;> omega

theorem first_eq {m : Nat} {k : Option Nat} :
    Scan.first ⟨a, b, some m, k⟩ j r = ⟨a, b, some m, k⟩ :=
  if_neg nofun

theorem modify_at (f : Range → Range) :
    (before ++ r :: after).modify before.length f = before ++ f r :: after := by
  induction before with
  | nil => rfl
  | cons _ _ ih => rw [cons_append, length_cons, modify_succ_cons, ih, cons_append]

theorem write_eq (mid : List Range) : Scan.write ⟨a, b, some before.length,
    some (before.length + mid.length)⟩ j (before ++ r :: (mid ++ after)) =
      before ++ (a, b) :: after := by
  simp only [Scan.write, modify_at]
  rcases eq_nil_or_concat mid with rfl | ⟨mid, z, rfl⟩
  · rw [length_nil, Nat.add_zero, if_pos rfl, nil_append, modify_at]
  · have hsplit : before ++ (a, r.2) :: (mid ++ [z] ++ after) =
        (before ++ (a, r.2) :: mid) ++ z :: after := by simp
    have hlen : before.length + (mid ++ [z]).length = (before ++ (a, r.2) :: mid).length := by simp
    rw [if_neg (by simp), concat_eq_append, hsplit, hlen, modify_at, modify_at, drop_left,
      append_assoc, take_left]

/-- The loop behind the first range that is touched; `mid` are those that have been merged. -/
theorem run_merge (mid : List Range) (hb : b < 2 ^ 64 - 1)
    (hranges : ∀ x ∈ ranges, Range.Valid x ∧ a ≤ x.1) (hab : a ≤ b) :
    let s := Scan.run (before.length + mid.length + 1)
      ⟨a, b, some before.length, some (before.length + mid.length)⟩ ranges
    s.2.write s.1 (before ++ r :: (mid ++ ranges)) = before ++ insert a b ranges := by
  induction ranges generalizing mid b with
  | nil => exact write_eq mid
  | cons x ranges ih =>
    obtain ⟨⟨hx, ha⟩, hrest⟩ := forall_mem_cons.1 hranges
    have hle := hx.1
    rw [Scan.run, insert, if_neg (show ¬ x.2 + 1 < a by omega)]
    by_cases hfar : b + 1 < x.1
    · rw [skip hx ⟨hab, hb⟩ (.inr hfar), if_pos (by rw [succ_eq hb]; omega), if_pos hfar]
      exact write_eq mid
    · have hmax : max b x.2 < 2 ^ 64 - 1 := max_lt hb hx.2
      have hih := ih (mid ++ [x]) hmax hrest (by omega)
      rw [length_append, length_singleton, append_assoc] at hih
      rw [first_eq, last_eq hb ⟨ha, by omega⟩,
        if_neg (by rw [succ_eq hmax]; omega), if_neg hfar, min_eq_left ha]
      exact hih

theorem run_insert (before : List Range) (hab : a ≤ b) (hb : b < 2 ^ 64 - 1)
    (hranges : ∀ x ∈ ranges, Range.Valid x)
    (hsorted : ranges.Pairwise fun r r' => r.2 + 1 < r'.1) (hout : Outside ranges a b) :
    let s := Scan.run before.length ⟨a, b, none, none⟩ ranges
    s.2.write s.1 (before ++ ranges) = before ++ insert a b ranges := by
  induction ranges generalizing before with
  | nil => simp [Scan.run, Scan.write, insert]
  | cons x ranges ih =>
    obtain ⟨hx, hrest⟩ := forall_mem_cons.1 hranges
    obtain ⟨hlt, hsorted⟩ := pairwise_cons.1 hsorted
    obtain ⟨hnot, hout⟩ := forall_mem_cons.1 hout
    have hle := hx.1
    rw [Scan.run, insert]
    by_cases hbefore : x.2 + 1 < a
    · have hih := ih (before ++ [x]) hrest hsorted hout
      rw [skip hx ⟨hab, hb⟩ (.inl hbefore), if_neg (by rw [succ_eq hb]; omega), if_pos hbefore]
      simpa using hih
    · by_cases hfar : b + 1 < x.1
      · rw [skip hx ⟨hab, hb⟩ (.inr hfar), if_pos (by rw [succ_eq hb]; omega), if_neg hbefore,
          if_pos hfar]
        simp [Scan.write]
      · have hmax : max b x.2 < 2 ^ 64 - 1 := max_lt hb hx.2
        have hfirst : Scan.first ⟨a, b, none, none⟩ before.length x =
            ⟨min a x.1, b, some before.length, none⟩ := by
          rw [Scan.first, if_pos ⟨rfl, by rw [succ_eq hb, succ_eq hx.2]; dsimp only; omega⟩]
          dsimp only
          congr 1
          split <;> omega
        rw [hfirst, last_eq hb ⟨min_le_right _ _, by omega⟩, if_neg (by rw [succ_eq hmax]; omega),
          if_neg hbefore, if_neg hfar]
        exact run_merge [] hmax (fun y hy => ⟨hrest y hy, by have := hlt y hy; omega⟩) (by omega)

/-- A range that is not inside of another one is added to what there is. -/
theorem Normal.add (hi : Normal i) (hr : Range.Valid r)
    (hout : Outside i.ranges (max r.1 i.start) r.2) : Normal (i.add r) ∧
      ∀ n, Has (i.add r).ranges n ↔ Has i.ranges n ∨ (i.start ≤ n ∧ r.1 ≤ n ∧ n ≤ r.2) := by
  rcases Nat.lt_or_ge r.2 i.start with hlt | hge
  · rw [Intervals.add, if_pos hlt]
    exact ⟨hi, fun n => ⟨.inl, fun h => h.resolve_right (by omega)⟩⟩
  · have hle : max r.1 i.start ≤ r.2 := max_le hr.1 hge
    have hnonempty : ∀ x ∈ i.ranges, x.1 ≤ x.2 := fun x hx => (hi.valid x hx).2.1
    have hadd : i.add r = { i with ranges := insert (max r.1 i.start) r.2 i.ranges } := by
      rw [Intervals.add, if_neg (Nat.not_lt.2 hge), show (if r.1 < i.start then i.start else r.1) =
        max r.1 i.start by split <;> omega]
      exact congrArg (Intervals.mk i.start) (run_insert [] hle hr.2
        (fun x hx => (hi.valid x hx).2) hi.sorted hout)
    rw [hadd]
    refine ⟨⟨sorted_insert hle hnonempty hi.sorted, ?_⟩, fun n => ?_⟩
    · refine forall_insert (fun x y hx hy => ?_) ⟨le_max_right _ _, hle, hr.2⟩ hi.valid
      exact ⟨le_min hx.1 hy.1, (min_le_left _ _).trans (hx.2.1.trans (le_max_left _ _)),
        max_lt hx.2.2 hy.2.2⟩
    · rw [has_insert hle hnonempty, max_le_iff, and_comm (a := r.1 ≤ n), and_assoc]

/-! ## Gaps -/

/-- The first numbers from the start on that are missing; there is no end if nothing follows. -/
structure FirstGap (i : Intervals) (gap : Nat × Nat) : Prop where
  ge : i.start ≤ gap.1
  full : ∀ n, i.start ≤ n → n < gap.1 → Has i.ranges n
  missing : gap.2 = 0 ∧ (∀ n, gap.1 ≤ n → ¬ Has i.ranges n) ∨
    gap.1 ≤ gap.2 ∧ (∀ n, gap.1 ≤ n → n ≤ gap.2 → ¬ Has i.ranges n) ∧ Has i.ranges (gap.2 + 1)

theorem pred_eq (h : n < 2 ^ 64 - 1) : pred (n + 1) = n := by
  rw [pred]
  omega

theorem not_has (h : ∀ r ∈ ranges, n < r.1) : ¬ Has ranges n :=
  fun ⟨r, hr, hle, _⟩ => absurd (h r hr) (Nat.not_lt.2 hle)

theorem Normal.next (hi : Normal i) : FirstGap i i.next := by
  obtain ⟨start, ranges⟩ := i
  obtain ⟨hsorted, hvalid⟩ := hi
  cases ranges with
  | nil => exact ⟨le_rfl, fun n h h' => absurd h (Nat.not_le.2 h'), .inl ⟨rfl, nofun⟩⟩
  | cons r ranges =>
    obtain ⟨⟨hge, hle, hstop⟩, hvalid⟩ := forall_mem_cons.1 hvalid
    obtain ⟨hlt, hsorted⟩ := pairwise_cons.1 hsorted
    rw [Intervals.next]
    dsimp only at hge ⊢
    split
    · next hne =>
      obtain ⟨k, hk⟩ : ∃ k, r.1 = k + 1 := ⟨r.1 - 1, by omega⟩
      rw [hk, pred_eq (by omega)]
      refine ⟨le_rfl, fun n h h' => absurd h (Nat.not_le.2 h'), .inr ⟨by dsimp only; omega, ?_, ?_⟩⟩
      · exact fun n _ hn => not_has (forall_mem_cons.2 ⟨hk ▸ Nat.lt_succ_of_le hn,
          fun x hx => by have := hlt x hx; dsimp only at hn; omega⟩)
      · exact ⟨r, mem_cons_self, hk.le, hk ▸ hle⟩
    · next heq =>
      have hfull : ∀ n, start ≤ n → n < r.2 + 1 → Has (r :: ranges) n := fun n h h' =>
        ⟨r, mem_cons_self, by omega, Nat.le_of_lt_succ h'⟩
      rw [succ_eq hstop]
      cases ranges with
      | nil =>
        refine ⟨by dsimp only; omega, hfull, .inl ⟨rfl, fun n hn h => ?_⟩⟩
        obtain h | h := has_cons.1 h
        · exact absurd h.2 (Nat.not_le.2 hn)
        · exact absurd h nofun
      | cons x ranges =>
        have hx := hlt x mem_cons_self
        obtain ⟨hxr, -⟩ := pairwise_cons.1 hsorted
        obtain ⟨-, hxle, hxstop⟩ := hvalid x mem_cons_self
        obtain ⟨k, hk⟩ : ∃ k, x.1 = k + 1 := ⟨x.1 - 1, by omega⟩
        dsimp only
        rw [hk, pred_eq (by omega)]
        refine ⟨by dsimp only; omega, hfull, .inr ⟨by dsimp only; omega, fun n hn hn' h => ?_, ?_⟩⟩
        · obtain h | h := has_cons.1 h
          · omega
          · exact not_has (forall_mem_cons.2 ⟨by omega, fun y hy => by have := hxr y hy; omega⟩) h
        · exact ⟨x, mem_cons_of_mem _ mem_cons_self, hk.le, hk ▸ hxle⟩

/-! ## Runs -/

/-- The ranges that a call adds. -/
def Op.adds : Op → List Range
  | .add r => [r]
  | .merge m => m.ranges

theorem foldl_apply (i : Intervals) (ops : List Op) :
    ops.foldl apply i = (ops.flatMap Op.adds).foldl Intervals.add i := by
  rw [foldl_flatMap]
  congr 1
  funext i op
  cases op <;> rfl

/-- Each range is outside of those that are there when it is added. -/
def AllOutside : Intervals → List Range → Prop
  | _, [] => True
  | i, r :: adds => Outside i.ranges (max r.1 i.start) r.2 ∧ AllOutside (i.add r) adds

theorem Normal.foldl_add (hi : Normal i) (hvalid : ∀ r ∈ ranges, Range.Valid r)
    (hout : AllOutside i ranges) : Normal (ranges.foldl Intervals.add i) ∧
      ∀ n, Has (ranges.foldl Intervals.add i).ranges n ↔
        Has i.ranges n ∨ (i.start ≤ n ∧ Has ranges n) := by
  induction ranges generalizing i with
  | nil => exact ⟨hi, fun n => by simp [Has]⟩
  | cons r ranges ih =>
    obtain ⟨hr, hvalid⟩ := forall_mem_cons.1 hvalid
    obtain ⟨hnormal, hhas⟩ := hi.add hr hout.1
    obtain ⟨hnormal', hhas'⟩ := ih hnormal hvalid hout.2
    have hstart : (i.add r).start = i.start := by
      rw [Intervals.add]
      split <;> rfl
    refine ⟨hnormal', fun n => ?_⟩
    rw [foldl_cons, hhas', hhas, hstart, has_cons]
    tauto

/-- The intervals stay normalised and hold what was added, and their next gap is the first one, in
every run that adds no range inside of another. -/
theorem intervals_normal (start : Nat) (ops : List Op)
    (hvalid : ∀ r ∈ ops.flatMap Op.adds, Range.Valid r)
    (hout : AllOutside (new start) (ops.flatMap Op.adds)) :
    Normal (ops.foldl apply (new start)) ∧ (∀ n, Has (ops.foldl apply (new start)).ranges n ↔
        start ≤ n ∧ Has (ops.flatMap Op.adds) n) ∧
      FirstGap (ops.foldl apply (new start)) (ops.foldl apply (new start)).next := by
  have hnew : Normal (new start) := ⟨.nil, nofun⟩
  obtain ⟨hnormal, hhas⟩ := hnew.foldl_add hvalid hout
  rw [foldl_apply]
  refine ⟨hnormal, fun n => (hhas n).trans ?_, hnormal.next⟩
  exact ⟨fun h => h.resolve_left nofun, .inr⟩

namespace Sample

theorem intervals_normal_two : Normal ([Op.add (2, 5), Op.add (0, 10)].foldl apply (new 0)) :=
  (intervals_normal 0 [.add (2, 5), .add (0, 10)] (by simp [Op.adds, Range.Valid])
    ⟨nofun, fun _ _ h => absurd h.1 (Nat.not_lt_zero _), trivial⟩).1

/-- The second range is inside of the first one and is stored again. -/
theorem add_stores_twice :
    [Op.add (0, 10), Op.add (2, 5)].foldl apply (new 0) = ⟨0, [(0, 10), (2, 5)]⟩ :=
  rfl

end Sample

end Geth.Swarm.Intervals
