import Geth.Vm.Verify.WordSpec
import Mathlib.FieldTheory.Finite.Basic

/-!
# Shifts and powers

`SHL` and `SHR` are multiplication and division by a power of two. `SAR` is the division of the
signed value, rounded down, but for zero shifted by 256 bits or more: there it makes all ones.
`math.Exp` computes the power, and squares its base in place, which changes every base but zero and
one as soon as the exponent has a word.
-/

namespace Geth.Vm

open Function List

/-! ## Shifts -/

namespace Word

theorem embed_ofNat_of_lt {n : Nat} (h : n < 2 ^ 256) : embed (BitVec.ofNat 256 n) = n := by
  rw [embed, BitVec.toNat_ofNat, Nat.mod_eq_of_lt h]

/-- The signed value of a word, divided by a power of two and rounded down. -/
def signedShift (value shift : Nat) : Int := (BitVec.ofNat 256 value).toInt / 2 ^ shift

theorem signedShift_of_le {value shift : Nat} (h : 256 ≤ shift) :
    signedShift value shift = if (BitVec.ofNat 256 value).toInt < 0 then -1 else 0 := by
  have hlt : (BitVec.ofNat 256 value).toInt < 2 ^ 255 := BitVec.toInt_lt
  have hle : -2 ^ 255 ≤ (BitVec.ofNat 256 value).toInt := BitVec.le_toInt _
  have hpow : (2 : Int) ^ 256 ≤ 2 ^ shift := pow_le_pow_right₀ (by decide) h
  split
  · next hneg => exact Int.ediv_eq_neg_one_of_neg_of_le hneg (by omega)
  · next hpos => exact Int.ediv_eq_zero_of_lt (not_lt.1 hpos) (by omega)

theorem shl_eq {shift value : Nat} (hs : shift < 2 ^ 256) (hv : value < 2 ^ 256) :
    shl shift value = ((value * 2 ^ shift % 2 ^ 256 : Nat) : Int) := by
  have h := shl_embed (BitVec.ofNat 256 shift) (BitVec.ofNat 256 value)
  rw [embed_ofNat_of_lt hs, embed_ofNat_of_lt hv, embed, BitVec.toNat_shiftLeft, BitVec.toNat_ofNat,
    BitVec.toNat_ofNat, Nat.mod_eq_of_lt hs, Nat.mod_eq_of_lt hv, Nat.shiftLeft_eq] at h
  exact h

theorem shr_eq {shift value : Nat} (hs : shift < 2 ^ 256) (hv : value < 2 ^ 256) :
    shr shift value = ((value / 2 ^ shift : Nat) : Int) := by
  have h := shr_embed (BitVec.ofNat 256 shift) (BitVec.ofNat 256 value)
  rw [embed_ofNat_of_lt hs, embed_ofNat_of_lt hv, embed, BitVec.toNat_ushiftRight,
    BitVec.toNat_ofNat, BitVec.toNat_ofNat, Nat.mod_eq_of_lt hs, Nat.mod_eq_of_lt hv,
    Nat.shiftRight_eq_div_pow] at h
  exact h

theorem sar_eq {shift value : Nat} (hs : shift < 2 ^ 256) (hv : value < 2 ^ 256) :
    sar shift value = if 256 ≤ shift ∧ value = 0 then 2 ^ 256 - 1
      else u256 (signedShift value shift) := by
  have hshift : u256 (shift : Int) = shift := by
    rw [← embed_ofNat_of_lt hs, u256_embed]
  have hvalue : s256 (value : Int) = (BitVec.ofNat 256 value).toInt := by
    rw [← s256_embed, embed_ofNat_of_lt hv]
  have hzero : (BitVec.ofNat 256 value).toInt = 0 ↔ value = 0 := by
    rw [← hvalue, s256]
    split <;> omega
  rw [sar, hshift, hvalue]
  by_cases hlarge : 256 ≤ shift
  · have hlarge' : (shift : Int) ≥ 256 := by omega
    rw [if_pos hlarge', signedShift_of_le hlarge]
    by_cases h0 : value = 0
    · have hnot : ¬ (BitVec.ofNat 256 value).toInt > 0 := by
        rw [hzero.2 h0]
        decide
      rw [if_neg hnot, if_pos ⟨hlarge, h0⟩]
      rfl
    · have hcase : ¬ (256 ≤ shift ∧ value = 0) := fun h => h0 h.2
      rw [if_neg hcase]
      by_cases hpos : (BitVec.ofNat 256 value).toInt > 0
      · have hneg : ¬ (BitVec.ofNat 256 value).toInt < 0 := by omega
        rw [if_pos hpos, if_neg hneg]
      · have hneg : (BitVec.ofNat 256 value).toInt < 0 := by omega
        rw [if_neg hpos, if_pos hneg]
  · have h64 : (uint64 (shift : Int)).toNat = shift := by
      have := uint64_embed (x := BitVec.ofNat 256 shift)
        (by rw [BitVec.toNat_ofNat, Nat.mod_eq_of_lt hs]; omega)
      rwa [embed_ofNat_of_lt hs, BitVec.toNat_ofNat, Nat.mod_eq_of_lt hs] at this
    have hsmall : ¬ (shift : Int) ≥ 256 := by omega
    have hcase : ¬ (256 ≤ shift ∧ value = 0) := fun h => hlarge h.1
    rw [if_neg hsmall, if_neg hcase, h64, Int.shiftRight_eq_div_pow, signedShift]
    rfl

end Word

/-- The shift operations of EIP-145, on references: `SHL` multiplies and `SHR` divides by the power
of two. `SAR` divides the signed value, unless it shifts zero by 256 bits or more. -/
theorem shift_eip145_iff (s : Ints) (shift value : Nat) (hs : shift < 2 ^ 256)
    (hv : value < 2 ^ 256) (st : List Int) (h : Holds s [] (shift :: value :: st)) :
    (∃ s', IntOp.opSHL s = some ((), s') ∧
      Holds s' [] ((value * 2 ^ shift % 2 ^ 256 : Nat) :: st)) ∧
    (∃ s', IntOp.opSHR s = some ((), s') ∧ Holds s' [] ((value / 2 ^ shift : Nat) :: st)) ∧
    ∃ s', IntOp.opSAR s = some ((), s') ∧
      (Holds s' [] (Word.signedShift value shift % 2 ^ 256 :: st) ↔
        ¬ (256 ≤ shift ∧ value = 0)) := by
  refine ⟨?_, ?_, ?_⟩
  · rw [← Word.shl_eq hs hv]
    exact IntOp.opSHL_computes s _ _ h rfl
  · rw [← Word.shr_eq hs hv]
    exact IntOp.opSHR_computes s _ _ h rfl
  · obtain ⟨s', hrun, hs'⟩ := IntOp.opSAR_computes s _ _ h rfl
    refine ⟨s', hrun, ?_⟩
    rw [Word.sar_eq hs hv] at hs'
    by_cases hcase : 256 ≤ shift ∧ value = 0
    · rw [if_pos hcase] at hs'
      refine iff_of_false (fun hzero => ?_) (not_not_intro hcase)
      have htop := hs'.stack.symm.trans hzero.stack
      rw [Word.signedShift_of_le hcase.1, hcase.2] at htop
      exact absurd (List.cons.inj htop).1 (by decide)
    · rw [if_neg hcase] at hs'
      exact iff_of_true hs' hcase

/-- Minus one by 300 bits. -/
theorem shift_eip145_minusOne : ∃ s',
    IntOp.opSAR ⟨fun p => if p = 0 then 300 else 2 ^ 256 - 1, 2, [0, 1], []⟩ = some ((), s') ∧
      Holds s' [] [2 ^ 256 - 1] := by
  obtain ⟨-, -, s', hrun, hiff⟩ := shift_eip145_iff
    ⟨fun p => if p = 0 then 300 else 2 ^ 256 - 1, 2, [0, 1], []⟩ 300 (2 ^ 256 - 1) (by decide)
    (by decide) [] ⟨by decide, by decide, by decide, by decide⟩
  have hval : Word.signedShift (2 ^ 256 - 1) 300 % 2 ^ 256 = 2 ^ 256 - 1 := by decide +kernel
  rw [hval] at hiff
  exact ⟨s', hrun, hiff.2 (by decide)⟩

/-- Zero by 256 bits is all ones. -/
theorem sar_zero_256 : ∃ s',
    IntOp.opSAR ⟨fun p => if p = 0 then 256 else 0, 2, [0, 1], []⟩ = some ((), s') ∧
      s'.stack.map s'.heap = [2 ^ 256 - 1] ∧ Word.signedShift 0 256 % 2 ^ 256 = 0 := by
  have h : Holds ⟨fun p => if p = 0 then 256 else 0, 2, [0, 1], []⟩ [] [256, 0] :=
    ⟨by decide, by decide, by decide, by decide⟩
  obtain ⟨s', hrun, hs'⟩ := IntOp.opSAR_computes _ _ _ h rfl
  exact ⟨s', hrun, hs'.stack, by decide⟩

/-! ## Powers -/

theorem eq_zero_or_one_of_pow_modEq {b k n : Nat} (hk : 0 < k) (hb : b < 2 ^ (n + 1))
    (h : b ^ 2 ^ k ≡ b [MOD 2 ^ (n + 1)]) : b = 0 ∨ b = 1 := by
  have hpow : ∀ x y, b ^ 2 ^ (x + y) = (b ^ 2 ^ x) ^ 2 ^ y := fun x y => by rw [pow_add 2, pow_mul]
  -- The power can be taken again and again.
  have hiter : ∀ j, b ^ 2 ^ (k * j) ≡ b [MOD 2 ^ (n + 1)] := by
    intro j
    induction j with
    | zero => rw [Nat.mul_zero, pow_zero, pow_one]
    | succ j ih =>
      rw [Nat.mul_succ, hpow]
      exact (ih.pow _).trans h
  obtain ⟨m, hm⟩ := Nat.exists_eq_add_of_le (Nat.le_mul_of_pos_left (n + 1) hk)
  have hfix := hiter (n + 1)
  rw [hm, hpow] at hfix
  rcases Nat.even_or_odd b with heven | hodd
  · left
    have hdvd : 2 ^ (n + 1) ∣ b ^ 2 ^ (n + 1) :=
      (pow_dvd_pow 2 Nat.lt_two_pow_self.le).trans (pow_dvd_pow_of_dvd heven.two_dvd _)
    have hzero : (b ^ 2 ^ (n + 1)) ^ 2 ^ m ≡ 0 [MOD 2 ^ (n + 1)] :=
      Nat.modEq_zero_iff_dvd.2 (hdvd.trans (dvd_pow_self _ (Nat.two_pow_pos m).ne'))
    have heq := hfix.symm.trans hzero
    rwa [Nat.ModEq, Nat.mod_eq_of_lt hb, Nat.zero_mod] at heq
  · right
    have hcop : Nat.Coprime b (2 ^ (n + 1)) := (Nat.coprime_two_right.2 hodd).pow_right _
    have hone : b ^ 2 ^ n ≡ 1 [MOD 2 ^ (n + 1)] := by
      have htot := Nat.ModEq.pow_totient hcop
      rwa [Nat.totient_prime_pow_succ Nat.prime_two, Nat.mul_one] at htot
    have hones : (b ^ 2 ^ (n + 1)) ^ 2 ^ m ≡ 1 [MOD 2 ^ (n + 1)] := by
      rw [hpow n 1, ← pow_mul]
      exact (hone.pow _).trans (by rw [one_pow])
    have heq := hfix.symm.trans hones
    rwa [Nat.ModEq, Nat.mod_eq_of_lt hb, Nat.mod_eq_of_lt (Nat.one_lt_two_pow n.succ_ne_zero)]
      at heq

theorem exp_fold_base (w : Nat) (words : List Nat) (r b : Int) :
    (words.foldl (fun acc word => expWord w word acc) (r, b)).2 ≡ b ^ 2 ^ (w * words.length)
      [ZMOD 2 ^ 256] := by
  induction words generalizing r b with
  | nil =>
    rw [foldl_nil, length_nil, Nat.mul_zero, pow_zero, pow_one]
  | cons word words ih =>
    obtain ⟨-, hb⟩ := expWord_modEq w word r b
    have hstep := ih (expWord w word (r, b)).1 (expWord w word (r, b)).2
    rw [foldl_cons, length_cons, Nat.mul_succ, Nat.add_comm, pow_add 2, pow_mul]
    exact hstep.trans (hb.pow _)

theorem exp_fold_base_range (w : Nat) (words : List Nat) {r b : Int} (h : 0 ≤ b ∧ b < 2 ^ 256) :
    0 ≤ (words.foldl (fun acc word => expWord w word acc) (r, b)).2 ∧
      (words.foldl (fun acc word => expWord w word acc) (r, b)).2 < 2 ^ 256 := by
  have hword : ∀ n word (r b : Int), 0 ≤ b ∧ b < 2 ^ 256 →
      0 ≤ (expWord n word (r, b)).2 ∧ (expWord n word (r, b)).2 < 2 ^ 256 := by
    intro n
    induction n with
    | zero => exact fun _ _ _ h => h
    | succ n ih =>
      intro word r b _
      exact ih _ _ _ ⟨Int.emod_nonneg _ (by decide), Int.emod_lt_of_pos _ (by decide)⟩
  induction words generalizing r b with
  | nil => exact h
  | cons word words ih => exact ih (hword w word r b h)

theorem exp_base_eq_iff {w : Nat} (hw : 0 < w) {base : Nat} (hb : base < 2 ^ 256) (exponent : Nat) :
    (exp w base exponent).2 = base ↔ exponent = 0 ∨ base ≤ 1 := by
  have hmod := exp_fold_base w (Nat.digits (2 ^ w) exponent) 1 base
  obtain ⟨hpos, hlt⟩ := exp_fold_base_range w (Nat.digits (2 ^ w) exponent) (r := 1) (b := base)
    ⟨Int.natCast_nonneg _, by omega⟩
  rw [exp, Int.natAbs_natCast]
  have hlen : 0 < (Nat.digits (2 ^ w) exponent).length ↔ exponent ≠ 0 := by
    rw [length_pos_iff, Ne, Nat.digits_eq_nil_iff_eq_zero]
  generalize Nat.digits (2 ^ w) exponent = words at *
  generalize (words.foldl (fun acc word => expWord w word acc) (1, (base : Int))).2 = left at *
  constructor
  · rintro rfl
    by_cases he : exponent = 0
    · exact .inl he
    · have hnat : base ^ 2 ^ (w * words.length) ≡ base [MOD 2 ^ (255 + 1)] := by
        rw [← Int.natCast_modEq_iff]
        exact hmod.symm
      rcases eq_zero_or_one_of_pow_modEq (Nat.mul_pos hw (hlen.2 he)) hb hnat with h | h <;> omega
  · have hsame : (base : Int) ^ 2 ^ (w * words.length) ≡ base [ZMOD 2 ^ 256] → left = base := by
      intro h
      have := hmod.trans h
      rwa [Int.ModEq, Int.emod_eq_of_lt hpos hlt, Int.emod_eq_of_lt (Int.natCast_nonneg _)
        (by omega)] at this
    rintro (rfl | hle)
    · have hnil : words.length = 0 := by
        by_contra hne
        exact hlen.1 (Nat.pos_of_ne_zero hne) rfl
      refine hsame ?_
      rw [hnil, Nat.mul_zero, pow_zero, pow_one]
    · refine hsame ?_
      have : base = 0 ∨ base = 1 := by omega
      rcases this with rfl | rfl
      · rw [Nat.cast_zero, zero_pow (Nat.two_pow_pos _).ne']
      · rw [Nat.cast_one, one_pow]

/-! ## Powers in place -/

/-- The integers after two of them have been set. -/
def Ints.setBoth (s : Ints) (result base : Ref) (values : Int × Int) : Ints :=
  { s with heap := Function.update (Function.update s.heap result values.1) base values.2 }

theorem Ints.setBoth_self (s : Ints) (result base : Ref) :
    s.setBoth result base (s.heap result, s.heap base) = s := by
  rw [setBoth, update_eq_self, update_eq_self]

variable {result : Ref}

theorem Ints.setBoth_setBoth {base : Ref} (hne : result ≠ base) (s : Ints) (v v' : Int × Int) :
    (s.setBoth result base v).setBoth result base v' = s.setBoth result base v' := by
  rw [setBoth, setBoth, setBoth]
  rw [update_comm hne.symm, update_idem, update_idem]

namespace IntOp

theorem store_u256 (p : Ref) (v : Int) (s : Ints) : (store p v >>= u256) s =
      some (p, { s with heap := update s.heap p (Vm.u256 v) }) := by
  have hload : update s.heap p v p = v := update_self ..
  refine (bind_some rfl).trans ((bind_some rfl).trans ?_)
  rw [store]
  dsimp only
  rw [hload, update_idem]

theorem expBits_eq {base : Ref} (hne : result ≠ base) (n word : Nat) (s : Ints) :
    expBits result base n word s =
      some ((), s.setBoth result base (expWord n word (s.heap result, s.heap base))) := by
  induction n generalizing word s with
  | zero =>
    rw [expWord, Ints.setBoth_self]
    rfl
  | succ n ih =>
    generalize hr : (if word % 2 = 1 then Vm.u256 (s.heap result * s.heap base)
      else s.heap result) = r
    generalize hb : Vm.u256 (s.heap base * s.heap base) = b
    -- The base is not yet changed when it is multiplied into the result.
    have hround : expBits result base (n + 1) word s =
        expBits result base n (word / 2) (s.setBoth result base (r, b)) := by
      have hbase : update s.heap result r base = s.heap base :=
        update_of_ne hne.symm r s.heap
      have hsquare : (load base >>= fun x => load base >>= fun y => store base (x * y) >>= fun p =>
          u256 p >>= fun _ => expBits result base n (word / 2))
            { s with heap := update s.heap result r } =
          expBits result base n (word / 2) (s.setBoth result base (r, b)) := by
        refine (bind_some rfl).trans ((bind_some rfl).trans ?_)
        rw [← bind_assoc]
        refine (bind_some (store_u256 base _ _)).trans ?_
        rw [← hb, ← hbase]
        rfl
      rw [expBits]
      by_cases hbit : word % 2 = 1
      · rw [if_pos hbit] at hr ⊢
        refine (bind_some rfl).trans ((bind_some rfl).trans ?_)
        rw [← bind_assoc]
        refine (bind_some (store_u256 result _ _)).trans ?_
        rw [hr]
        exact hsquare
      · rw [if_neg hbit] at hr ⊢
        rw [← hr, update_eq_self] at hsquare
        refine (bind_some rfl).trans ?_
        rw [← hr]
        exact hsquare
    rw [hround, ih, Ints.setBoth_setBoth hne, expWord, hr, hb]
    have hres : (s.setBoth result base (r, b)).heap result = r := by
      rw [Ints.setBoth]
      dsimp only
      rw [update_of_ne hne, update_self]
    have hbase : (s.setBoth result base (r, b)).heap base = b := update_self ..
    rw [hres, hbase]

theorem forM_expBits {base : Ref} (hne : result ≠ base) (w : Nat) (words : List Nat) (s : Ints) :
    words.forM (expBits result base w) s = some ((), s.setBoth result base
        (words.foldl (fun acc word => expWord w word acc) (s.heap result, s.heap base))) := by
  induction words generalizing s with
  | nil =>
    rw [foldl_nil, Ints.setBoth_self]
    rfl
  | cons word words ih =>
    refine (bind_some (expBits_eq hne w word s)).trans ?_
    rw [ih, Ints.setBoth_setBoth hne, foldl_cons]
    generalize expWord w word (s.heap result, s.heap base) = v
    have hres : (s.setBoth result base v).heap result = v.1 := by
      rw [Ints.setBoth]
      dsimp only
      rw [update_of_ne hne, update_self]
    have hbase : (s.setBoth result base v).heap base = v.2 := update_self ..
    rw [hres, hbase]

/-- Integer by integer: a new integer gets the result, and the base is used up. -/
theorem expInPlace_eq (w : Nat) {base exponent : Ref} {s : Ints} (hb : base < s.next)
    (he : exponent < s.next) :
    expInPlace w base exponent s = some (s.next, { s with
        heap := update (update s.heap s.next (Vm.exp w (s.heap base) (s.heap exponent)).1) base
          (Vm.exp w (s.heap base) (s.heap exponent)).2
        next := s.next + 1 }) := by
  have hne : s.next ≠ base := (Nat.ne_of_lt hb).symm
  have hload : update s.heap s.next 1 exponent = s.heap exponent :=
    update_of_ne (Nat.ne_of_lt he) ..
  have hbase : update s.heap s.next 1 base = s.heap base :=
    update_of_ne hne.symm ..
  refine (bind_some rfl).trans ((bind_some rfl).trans ?_)
  refine (bind_some (forM_expBits hne w _ _)).trans ?_
  rw [Ints.setBoth]
  dsimp only
  rw [update_idem, update_self, hload, hbase]
  rfl

/-- `math.Exp` returns the power in a new integer, changes no integer but its base, and keeps the
base if and only if the exponent is zero or the base is zero or one. -/
theorem exp_unchanged_iff (w : Nat) (hw : 0 < w) (s : Ints) (base exponent : Ref)
    (hb : base < s.next) (he : exponent < s.next) (b e : Nat) (hbase : s.heap base = b)
    (hexp : s.heap exponent = e) (hblt : b < 2 ^ 256) :
    ∃ s', expInPlace w base exponent s = some (s.next, s') ∧
      s'.heap s.next = (b ^ e % 2 ^ 256 : Nat) ∧
      (∀ p < s.next, p ≠ base → s'.heap p = s.heap p) ∧
      (s'.heap base = s.heap base ∧ s'.heap exponent = s.heap exponent ↔ e = 0 ∨ b ≤ 1) := by
  have hiff := exp_base_eq_iff hw hblt e
  have hres := exp_eq hw b e
  refine ⟨_, expInPlace_eq w hb he, ?_, fun p hp hne => ?_, ?_⟩
  · dsimp only
    rw [Function.update_of_ne (Nat.ne_of_lt hb).symm, Function.update_self, hbase, hexp, hres]
  · dsimp only
    rw [Function.update_of_ne hne, Function.update_of_ne (Nat.ne_of_lt hp)]
  · dsimp only
    rw [Function.update_self, hbase, hexp, ← hiff]
    refine ⟨fun h => h.1, fun h => ⟨h, ?_⟩⟩
    by_cases hsame : exponent = base
    · rw [hsame, Function.update_self, h, ← hbase, ← hexp, hsame]
    · rw [Function.update_of_ne hsame, Function.update_of_ne (Nat.ne_of_lt he), hexp]

/-- One to the seventh. -/
theorem exp_unchanged_one : ∃ s', expInPlace 32 0 1 ⟨fun p => if p = 0 then 1 else 7, 2, [], []⟩ =
    some (2, s') ∧ s'.heap 2 = 1 ∧ s'.heap 0 = 1 ∧ s'.heap 1 = 7 := by
  obtain ⟨s', hrun, hres, -, hiff⟩ := exp_unchanged_iff 32 (by decide)
    ⟨fun p => if p = 0 then 1 else 7, 2, [], []⟩ 0 1 (by decide) (by decide) 1 7 rfl rfl (by decide)
  obtain ⟨hbase, hexp⟩ := hiff.2 (.inr (by decide))
  exact ⟨s', hrun, hres, hbase, hexp⟩

/-- The base of three to the first is used up. -/
theorem exp_changes_base : ∃ s', expInPlace 64 0 1 ⟨fun p => if p = 0 then 3 else 1, 2, [], []⟩ =
    some (2, s') ∧ s'.heap 2 = 3 ∧ s'.heap 0 ≠ 3 := by
  have hb : (Vm.exp 64 3 1).2 ≠ 3 := by
    have hiff := exp_base_eq_iff (w := 64) (by decide) (show 3 < 2 ^ 256 by decide) 1
    exact fun h => absurd (hiff.1 h) (by decide)
  refine ⟨_, expInPlace_eq 64 (by decide) (by decide), ?_, hb⟩
  exact exp_eq (w := 64) (by decide) 3 1

end IntOp

end Geth.Vm
