import Mathlib.Data.Nat.Digits.Lemmas

/-!
# Big-endian byte strings

Natural numbers as big-endian base-256 byte strings. `beNat` reads any byte string, `beBytes`
writes the shortest one; the two are inverse exactly on the byte strings without a leading zero
(`beNat_beBytes`, `beBytes_beNat`), and the length of the shortest one is governed by powers of
256 (`length_beBytes_le_iff`).
-/

namespace Geth.Lib

open List

/-- The number a big-endian byte string denotes. -/
def beNat (bs : List UInt8) : Nat :=
  bs.foldl (fun acc b => acc * 256 + b.toNat) 0

/-- The shortest big-endian byte string of a number. -/
def beBytes (n : Nat) : List UInt8 :=
  ((Nat.digits 256 n).map UInt8.ofNat).reverse

@[simp] theorem beNat_nil : beNat [] = 0 := rfl

@[simp] theorem beBytes_zero : beBytes 0 = [] := by simp [beBytes]

theorem beNat_append_singleton (bs : List UInt8) (b : UInt8) :
    beNat (bs ++ [b]) = beNat bs * 256 + b.toNat := by
  simp [beNat]

theorem beNat_eq_ofDigits (bs : List UInt8) :
    beNat bs = Nat.ofDigits 256 (bs.reverse.map UInt8.toNat) := by
  induction bs using List.reverseRecOn with
  | nil => rfl
  | append_singleton bs b ih =>
    rw [beNat_append_singleton, reverse_append, reverse_singleton,
      singleton_append, map_cons, Nat.ofDigits_cons, ← ih]
    omega

theorem map_toNat_map_ofNat_digits (n : Nat) :
    ((Nat.digits 256 n).map UInt8.ofNat).map UInt8.toNat = Nat.digits 256 n := by
  rw [map_map]
  have h : ∀ d ∈ Nat.digits 256 n, (UInt8.toNat ∘ UInt8.ofNat) d = d := by
    intro d hd
    have hlt := Nat.digits_lt_base (by decide : 1 < 256) hd
    simp only [Function.comp_apply, UInt8.toNat_ofNat']
    omega
  exact (map_congr_left h).trans (map_id' _)

@[simp] theorem beNat_beBytes (n : Nat) : beNat (beBytes n) = n := by
  rw [beNat_eq_ofDigits, beBytes, reverse_reverse, map_toNat_map_ofNat_digits, Nat.ofDigits_digits]

theorem beBytes_beNat {bs : List UInt8} (h : bs.head? ≠ some 0) : beBytes (beNat bs) = bs := by
  have hdig : Nat.digits 256 (beNat bs) = bs.reverse.map UInt8.toNat := by
    rw [beNat_eq_ofDigits]
    apply Nat.digits_ofDigits 256 (by decide)
    · intro l hl
      obtain ⟨b, -, rfl⟩ := mem_map.mp hl
      exact b.toNat_lt
    · intro hne hlast
      apply h
      cases bs with
      | nil => exact absurd rfl hne
      | cons b bs =>
        rw [getLast_map, getLast_reverse] at hlast
        simp only [head_cons] at hlast
        rw [List.head?_cons, ← UInt8.toNat_inj.mp (hlast.trans UInt8.toNat_zero.symm)]
  rw [beBytes, hdig, map_map, ← map_reverse, reverse_reverse]
  have h' : ∀ b ∈ bs, (UInt8.ofNat ∘ UInt8.toNat) b = b := fun b _ => UInt8.ofNat_toNat
  exact (map_congr_left h').trans (map_id' _)

theorem length_beBytes_le_iff (n k : Nat) : (beBytes n).length ≤ k ↔ n < 256 ^ k := by
  rw [beBytes, length_reverse, length_map]
  exact Nat.digits_length_le_iff (by decide) n

theorem length_beBytes_pos {n : Nat} (h : n ≠ 0) : 0 < (beBytes n).length := by
  by_contra hlen
  have := (length_beBytes_le_iff n 0).mp (by omega)
  omega

theorem length_beBytes_of_pos {n : Nat} (h : 0 < n) :
    (beBytes n).length = (beBytes (n / 256)).length + 1 := by
  simp only [beBytes, length_reverse, length_map]
  rw [Nat.digits_def' (by decide) h, length_cons]

theorem beNat_lt (bs : List UInt8) : beNat bs < 256 ^ bs.length := by
  induction bs using List.reverseRecOn with
  | nil => simp
  | append_singleton bs b ih =>
    rw [beNat_append_singleton, length_append, length_singleton, Nat.pow_succ]
    have := b.toNat_lt
    omega

theorem beNat_cons_zero (bs : List UInt8) : beNat (0 :: bs) = beNat bs := rfl

theorem beNat_replicate_append (n : Nat) (bs : List UInt8) :
    beNat (List.replicate n 0 ++ bs) = beNat bs := by
  induction n with
  | zero => rfl
  | succ n ih => rw [replicate_succ, cons_append, beNat_cons_zero, ih]

theorem replicate_append_beBytes_beNat (bs : List UInt8) :
    List.replicate (bs.length - (beBytes (beNat bs)).length) 0 ++ beBytes (beNat bs) = bs := by
  induction bs with
  | nil => simp
  | cons b bs ih =>
    by_cases hb : b = 0
    · subst hb
      have hlen : (beBytes (beNat bs)).length ≤ bs.length :=
        (length_beBytes_le_iff _ _).mpr (beNat_lt bs)
      rw [beNat_cons_zero, length_cons, Nat.succ_sub hlen, replicate_succ, cons_append, ih]
    · rw [beBytes_beNat (by simpa using hb), Nat.sub_self]
      rfl

theorem head?_beBytes_ne_zero (n : Nat) : (beBytes n).head? ≠ some 0 := by
  by_cases hn : n = 0
  · simp [hn]
  · intro h
    have hlast := Nat.getLast_digit_ne_zero 256 hn
    have hne : Nat.digits 256 n ≠ [] := Nat.digits_ne_nil_iff_ne_zero.mpr hn
    rw [beBytes, List.head?_reverse, List.getLast?_map, List.getLast?_eq_getLast_of_ne_nil hne,
      Option.map_some, Option.some.injEq] at h
    have hlt := Nat.digits_lt_base (by decide : 1 < 256) (getLast_mem hne)
    have h0 := congrArg UInt8.toNat h
    rw [UInt8.toNat_ofNat', UInt8.toNat_zero] at h0
    omega

end Geth.Lib
