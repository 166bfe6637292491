import Geth.Mpt.Encoding
import Geth.Lib.RadixTree

/-!
# Key encodings invert each other

`keybytesToHex` makes terminated words of distinct keys, and `compactToHex` takes back what
`hexToCompact` has made of a key inside a trie: a terminated word, or one without terminator.
-/

namespace Geth.Mpt

open Lib List

/-! ## Hex keys -/

theorem hiNibble_ne (b : UInt8) : hiNibble b ≠ 16 := by
  have := b.toNat_lt
  intro h
  have := congrArg Fin.val h
  simp only [hiNibble] at this
  omega

theorem loNibble_ne (b : UInt8) : loNibble b ≠ 16 := by
  intro h
  have := congrArg Fin.val h
  simp only [loNibble] at this
  omega

theorem eq_of_nibbles {a b : UInt8} (hhi : hiNibble a = hiNibble b)
    (hlo : loNibble a = loNibble b) : a = b := by
  have h1 := congrArg Fin.val hhi
  have h2 := congrArg Fin.val hlo
  simp only [hiNibble, loNibble] at h1 h2
  apply UInt8.toNat_inj.mp
  omega

@[simp] theorem keybytesToHex_nil : keybytesToHex [] = [16] := rfl

@[simp] theorem keybytesToHex_cons (b : UInt8) (bs : Bytes) :
    keybytesToHex (b :: bs) = hiNibble b :: loNibble b :: keybytesToHex bs := rfl

theorem keybytesToHex_ne_nil (k : Bytes) : keybytesToHex k ≠ [] := by
  cases k <;> simp

theorem terminated_keybytesToHex (k : Bytes) : Terminated 16 (keybytesToHex k) := by
  induction k with
  | nil => exact ⟨by simp, trivial⟩
  | cons b bs ih =>
    refine ⟨?_, ?_, ih⟩
    · simp [hiNibble_ne b]
    · simp [loNibble_ne b]

theorem keybytesToHex_inj {k k' : Bytes} : keybytesToHex k = keybytesToHex k' ↔ k = k' := by
  refine ⟨?_, fun h => by rw [h]⟩
  induction k generalizing k' with
  | nil =>
    cases k' with
    | nil => intro _; rfl
    | cons b bs =>
      intro h
      rw [keybytesToHex_nil, keybytesToHex_cons, List.cons.injEq] at h
      exact absurd h.1.symm (hiNibble_ne b)
  | cons a as ih =>
    cases k' with
    | nil =>
      intro h
      rw [keybytesToHex_nil, keybytesToHex_cons, List.cons.injEq] at h
      exact absurd h.1 (hiNibble_ne a)
    | cons b bs =>
      intro h
      simp only [keybytesToHex_cons, List.cons.injEq] at h
      rw [eq_of_nibbles h.1 h.2.1, ih h.2.2]

variable {key : Hex}

theorem Terminated.exists_eq_append (h : Terminated 16 key) (hne : key ≠ []) :
    ∃ ns : Hex, 16 ∉ ns ∧ key = ns ++ [16] := by
  induction key with
  | nil => exact absurd rfl hne
  | cons a key ih =>
    by_cases hnil : key = []
    · subst hnil
      exact ⟨[], by simp, by rw [h.1.mpr rfl]; rfl⟩
    · obtain ⟨ns, hns, rfl⟩ := ih h.2 hnil
      refine ⟨a :: ns, ?_, rfl⟩
      rw [mem_cons, not_or]
      exact ⟨fun ha => hnil (h.1.mp ha.symm), hns⟩

theorem hasTerm_of_terminated (h : Terminated 16 key) (hne : key ≠ []) : hasTerm key = true := by
  obtain ⟨ns, -, rfl⟩ := Terminated.exists_eq_append h hne
  simp [hasTerm]

theorem hasTerm_of_notMem (h : 16 ∉ key) : hasTerm key = false := by
  rw [hasTerm, decide_eq_false_iff_not]
  intro hlast
  exact h (mem_of_getLast? hlast)

/-! ## Common prefixes -/

theorem prefixLen_le_left (a b : Hex) : prefixLen a b ≤ a.length := by
  induction a generalizing b with
  | nil => simp [prefixLen]
  | cons x a ih =>
    cases b with
    | nil => simp [prefixLen]
    | cons y b =>
      rw [prefixLen]
      split
      · exact Nat.succ_le_succ (ih b)
      · exact Nat.zero_le _

theorem take_prefixLen (a b : Hex) : a.take (prefixLen a b) = b.take (prefixLen a b) := by
  induction a generalizing b with
  | nil => simp [prefixLen]
  | cons x a ih =>
    cases b with
    | nil => simp [prefixLen]
    | cons y b =>
      rw [prefixLen]
      split
      · next h => simp [h, ih b]
      · simp

theorem prefixLen_le_right (a b : Hex) : prefixLen a b ≤ b.length := by
  have h := congrArg List.length (take_prefixLen a b)
  have hle := prefixLen_le_left a b
  rw [length_take, length_take] at h
  omega

theorem drop_prefixLen {a b : Hex} {x y : Nibble} {as bs : Hex}
    (ha : a.drop (prefixLen a b) = x :: as) (hb : b.drop (prefixLen a b) = y :: bs) : x ≠ y := by
  induction a generalizing b with
  | nil => simp at ha
  | cons u a ih =>
    cases b with
    | nil => simp at hb
    | cons v b =>
      rw [prefixLen] at ha hb
      split at ha
      · next h =>
        rw [if_pos h] at hb
        exact ih ha hb
      · next h =>
        rw [if_neg h] at hb
        simp only [drop_zero, List.cons.injEq] at ha hb
        rw [← ha.1, ← hb.1]
        exact h

theorem prefixLen_eq_length_iff {a b : Hex} : prefixLen a b = b.length ↔ b <+: a := by
  constructor
  · intro h
    have := take_prefixLen a b
    rw [h, take_length] at this
    rw [← this]
    exact take_prefix _ _
  · rintro ⟨rest, rfl⟩
    induction b with
    | nil => cases rest <;> rfl
    | cons y b ih => simpa [prefixLen] using ih

/-! ## Compact keys -/

theorem nibbles_of_byte : ∀ a b : Nibble, a ≠ 16 → b ≠ 16 →
    hiNibble (UInt8.ofNat a.val <<< 4 ||| UInt8.ofNat b.val) = a ∧
      loNibble (UInt8.ofNat a.val <<< 4 ||| UInt8.ofNat b.val) = b := by
  decide +kernel

theorem keybytesToHex_decodeNibbles : ∀ (ns : Hex), ns.length % 2 = 0 → 16 ∉ ns →
    keybytesToHex (decodeNibbles ns) = ns ++ [16]
  | [], _, _ => rfl
  | [a], h, _ => by simp at h
  | a :: b :: ns, h, hmem => by
    simp only [mem_cons, not_or] at hmem
    obtain ⟨hhi, hlo⟩ := nibbles_of_byte a b (Ne.symm hmem.1) (Ne.symm hmem.2.1)
    rw [decodeNibbles, keybytesToHex_cons, hhi, hlo,
      keybytesToHex_decodeNibbles ns (by simp only [length_cons] at h; omega) hmem.2.2]
    rfl

theorem nibbles_of_flag : ∀ n : Nibble, n ≠ 16 →
    (hiNibble ((0 : UInt8) <<< 5 ||| (1 : UInt8) <<< 4 ||| UInt8.ofNat n.val) = 1 ∧
      loNibble ((0 : UInt8) <<< 5 ||| (1 : UInt8) <<< 4 ||| UInt8.ofNat n.val) = n) ∧
    (hiNibble ((1 : UInt8) <<< 5 ||| (1 : UInt8) <<< 4 ||| UInt8.ofNat n.val) = 3 ∧
      loNibble ((1 : UInt8) <<< 5 ||| (1 : UInt8) <<< 4 ||| UInt8.ofNat n.val) = n) := by
  decide +kernel

theorem compactToHex_compactBuf_zero {ns : Hex} (hns : 16 ∉ ns) :
    compactToHex (compactBuf 0 ns) = some ns := by
  cases ns with
  | nil => rfl
  | cons n ns =>
    simp only [mem_cons, not_or] at hns
    by_cases hodd : (n :: ns).length % 2 = 1
    · obtain ⟨⟨hhi, hlo⟩, -⟩ := nibbles_of_flag n (Ne.symm hns.1)
      have hrest := keybytesToHex_decodeNibbles ns (by simp only [length_cons] at hodd; omega) hns.2
      simp only [compactBuf, if_pos hodd, compactToHex, keybytesToHex_cons, hhi, hlo, hrest]
      simp [dropLast_cons_of_ne_nil]
    · have hrest := keybytesToHex_decodeNibbles (n :: ns) (by omega)
        (by simpa [mem_cons, not_or] using hns)
      simp only [compactBuf, if_neg hodd, compactToHex, keybytesToHex_cons, hrest]
      have h0 : hiNibble ((0 : UInt8) <<< 5) = 0 := by decide
      rw [h0]
      simp [dropLast_cons_of_ne_nil]

theorem compactToHex_compactBuf_one {ns : Hex} (hns : 16 ∉ ns) :
    compactToHex (compactBuf 1 ns) = some (ns ++ [16]) := by
  cases ns with
  | nil => rfl
  | cons n ns =>
    simp only [mem_cons, not_or] at hns
    by_cases hodd : (n :: ns).length % 2 = 1
    · obtain ⟨-, hhi, hlo⟩ := nibbles_of_flag n (Ne.symm hns.1)
      have hrest := keybytesToHex_decodeNibbles ns (by simp only [length_cons] at hodd; omega) hns.2
      simp only [compactBuf, if_pos hodd, compactToHex, keybytesToHex_cons, hhi, hlo, hrest]
      simp
    · have hrest := keybytesToHex_decodeNibbles (n :: ns) (by omega)
        (by simpa [mem_cons, not_or] using hns)
      simp only [compactBuf, if_neg hodd, compactToHex, keybytesToHex_cons, hrest]
      have h0 : hiNibble ((1 : UInt8) <<< 5) = 2 := by decide
      rw [h0]
      simp

theorem compactToHex_hexToCompact_of_terminated (h : Terminated 16 key)
    (hne : key ≠ []) : compactToHex (hexToCompact key) = some key := by
  have hterm := hasTerm_of_terminated h hne
  obtain ⟨ns, hns, rfl⟩ := Terminated.exists_eq_append h hne
  rw [hexToCompact, if_pos hterm, dropLast_concat, compactToHex_compactBuf_one hns]

theorem compactToHex_hexToCompact_of_notMem (h : 16 ∉ key) :
    compactToHex (hexToCompact key) = some key := by
  rw [hexToCompact, if_neg (by rw [hasTerm_of_notMem h]; simp), compactToHex_compactBuf_zero h]

end Geth.Mpt
