import Geth.Lib.BigEndian
import Mathlib.Data.Nat.Bitwise

/-!
# Bit strings in bytes

A byte string read as a string of bits, the highest bit of a byte first. `setBit` sets one bit and
leaves the others alone (`bitAt_setBit`), and the bits determine the bytes (`bits_ext`).
-/

namespace Geth.Lib

open List

/-- The bit at position `i`; there are no bits beyond the end. -/
def bitAt (bs : List UInt8) (i : Nat) : Bool :=
  decide (bs.getD (i / 8) 0 &&& (1 <<< UInt8.ofNat (7 - i % 8)) ≠ 0)

/-- Sets the bit at position `i`. -/
def setBit (bs : List UInt8) (i : Nat) : List UInt8 :=
  bs.modify (i / 8) (· ||| (1 <<< UInt8.ofNat (7 - i % 8)))

theorem and_mask_ne_zero (b : UInt8) {k : Nat} (hk : k < 8) :
    b &&& (1 <<< UInt8.ofNat k) ≠ 0 ↔ b.toNat.testBit k = true := by
  have hall : ∀ (k : Fin 8) (b : Fin 256), UInt8.ofNat b &&& (1 <<< UInt8.ofNat k) ≠ 0 ↔
      (b : Nat).testBit k = true := by decide +kernel
  have h := hall ⟨k, hk⟩ ⟨b.toNat, b.toNat_lt⟩
  rwa [UInt8.ofNat_toNat] at h

theorem testBit_mask {k : Nat} (hk : k < 8) (j : Nat) :
    (1 <<< UInt8.ofNat k : UInt8).toNat.testBit j = decide (k = j) := by
  have hmask : (1 <<< UInt8.ofNat k : UInt8).toNat = 2 ^ k := by
    interval_cases k <;> rfl
  rw [hmask, Nat.testBit_two_pow]

theorem bitAt_eq_testBit (bs : List UInt8) (i : Nat) :
    bitAt bs i = (bs.getD (i / 8) 0).toNat.testBit (7 - i % 8) := by
  rw [bitAt, Bool.decide_congr (and_mask_ne_zero _ (by omega)), Bool.decide_eq_true]

theorem bitAt_replicate_zero (n i : Nat) : bitAt (List.replicate n 0) i = false := by
  have hzero : (List.replicate n (0 : UInt8)).getD (i / 8) 0 = 0 := by
    rw [getD_eq_getElem?_getD, List.getElem?_replicate]
    split <;> rfl
  rw [bitAt_eq_testBit, hzero]
  exact Nat.zero_testBit _

@[simp] theorem length_setBit (bs : List UInt8) (i : Nat) : (setBit bs i).length = bs.length :=
  length_modify ..

theorem bitAt_setBit {bs : List UInt8} {i : Nat} (hi : i / 8 < bs.length) (j : Nat) :
    bitAt (setBit bs i) j = (bitAt bs j || decide (i = j)) := by
  rw [bitAt_eq_testBit, bitAt_eq_testBit]
  by_cases hbyte : i / 8 = j / 8
  · have hget : (setBit bs i).getD (j / 8) 0 =
        bs.getD (j / 8) 0 ||| (1 <<< UInt8.ofNat (7 - i % 8)) := by
      rw [← hbyte, setBit, getD_eq_getElem _ _ (by rwa [length_modify]),
        getElem_modify_eq, getD_eq_getElem _ _ hi]
    rw [hget, UInt8.toNat_or, Nat.testBit_or, testBit_mask (by omega)]
    congr 1
    exact decide_eq_decide.mpr (by omega)
  · have hget : (setBit bs i).getD (j / 8) 0 = bs.getD (j / 8) 0 := by
      simp [setBit, List.getElem?_modify, if_neg hbyte]
    rw [hget, decide_eq_false (by omega), Bool.or_false]

theorem bits_ext {bs bs' : List UInt8} (hlen : bs.length = bs'.length)
    (h : ∀ i < 8 * bs.length, bitAt bs i = bitAt bs' i) : bs = bs' := by
  refine ext_getElem hlen fun n hn hn' => UInt8.toNat_inj.mp (Nat.eq_of_testBit_eq fun k => ?_)
  by_cases hk : k < 8
  · have hbit := h (8 * n + (7 - k)) (by omega)
    have hdiv : (8 * n + (7 - k)) / 8 = n := by omega
    have hmod : 7 - (8 * n + (7 - k)) % 8 = k := by omega
    rwa [bitAt_eq_testBit, bitAt_eq_testBit, hdiv, hmod, getD_eq_getElem _ _ hn,
      getD_eq_getElem _ _ hn'] at hbit
  · have hbound : ∀ b : UInt8, b.toNat < 2 ^ k := fun b =>
      b.toNat_lt.trans_le (Nat.pow_le_pow_right (by decide) (by omega : 8 ≤ k))
    rw [Nat.testBit_lt_two_pow (hbound _), Nat.testBit_lt_two_pow (hbound _)]

theorem testBit_beNat (bs : List UInt8) {i : Nat} (hi : i < 8 * bs.length) :
    (beNat bs).testBit i = (bs.getD (bs.length - 1 - i / 8) 0).toNat.testBit (i % 8) := by
  induction bs using List.reverseRecOn generalizing i with
  | nil => exact absurd hi (Nat.not_lt_zero i)
  | append_singleton bs b ih =>
    rw [length_append, length_singleton] at hi ⊢
    have hsplit : beNat (bs ++ [b]) = 2 ^ 8 * beNat bs + b.toNat := by
      rw [beNat_append_singleton, Nat.mul_comm]
      rfl
    rw [hsplit, Nat.testBit_two_pow_mul_add _ b.toNat_lt]
    by_cases hlow : i < 8
    · have hdiv : i / 8 = 0 := Nat.div_eq_of_lt hlow
      rw [if_pos hlow, Nat.mod_eq_of_lt hlow, hdiv, Nat.add_sub_cancel, Nat.sub_zero,
        getD_append_right _ _ _ _ (Nat.le_refl _), Nat.sub_self]
      rfl
    · have hindex : bs.length + 1 - 1 - i / 8 = bs.length - 1 - (i - 8) / 8 := by omega
      rw [if_neg hlow, ih (by omega), hindex, getD_append _ _ _ _ (by omega),
        show (i - 8) % 8 = i % 8 by omega]

end Geth.Lib
