import Geth.Rlp.Decode
import Geth.Rlp.Verify.Encode

/-!
# What the stream operations read

A stream made by `DecodeBytes` is determined by the unread input and the stack of open lists, as
long as no kind is cached (`Fresh`), and by the kind, size and byte it has cached otherwise
(`Peeked`). `getKind_of_header` and `getKind_inv` say exactly when `Kind` succeeds: the input starts
with the canonical header of a value that fits. `Bytes`, `List` and `ListEnd` are described on top
of it.
-/

namespace Geth.Rlp

open Lib List

/-! ## Positions -/

/-- The stack after `n` more bytes of the innermost list have been read. -/
def bump (n : Nat) : List ListPos → List ListPos
  | [] => []
  | tos :: st => { tos with pos := tos.pos + n } :: st

@[simp] theorem bump_nil (n : Nat) : bump n [] = [] := rfl

@[simp] theorem bump_cons (n : Nat) (tos : ListPos) (st : List ListPos) :
    bump n (tos :: st) = { tos with pos := tos.pos + n } :: st := rfl

theorem bump_bump (m n : Nat) (st : List ListPos) : bump m (bump n st) = bump (n + m) st := by
  cases st <;> simp [Nat.add_assoc]

/-- The next `n` bytes may be read: they are there, and inside the innermost list. -/
def Fits (n : Nat) (r : Bytes) : List ListPos → Prop
  | [] => n ≤ r.length
  | tos :: _ => n ≤ r.length ∧ n ≤ tos.size - tos.pos

variable {n m : Nat} {r a hdr : Bytes} {st : List ListPos} {s : Stream} {b bv : UInt8} {k : Kind}
  {tos : ListPos}

theorem Fits.le (h : Fits n r st) : n ≤ r.length := by
  cases st with
  | nil => exact h
  | cons => exact h.1

theorem Fits.mono (hmn : m ≤ n) (h : Fits n r st) :
    Fits m r st := by
  cases st with
  | nil => exact Nat.le_trans hmn h
  | cons => exact ⟨Nat.le_trans hmn h.1, Nat.le_trans hmn h.2⟩

theorem fits_bump (ha : a.length = m) :
    Fits n r (bump m st) ∧ Fits m (a ++ r) st ↔ Fits (m + n) (a ++ r) st := by
  cases st with
  | nil => simp only [bump, Fits, length_append]; omega
  | cons => simp only [bump, Fits, length_append]; omega

theorem Fits.drop (ha : a.length = m) (h : Fits (m + n) (a ++ r) st) : Fits n r (bump m st) :=
  ((fits_bump ha).mpr h).1

/-- What the innermost open list still has to hold is there. -/
def TopOk (r : Bytes) : List ListPos → Prop
  | [] => True
  | tos :: _ => tos.size - tos.pos ≤ r.length

theorem TopOk.bump (h : TopOk (a ++ r) st) : TopOk r (bump a.length st) := by
  cases st with
  | nil => trivial
  | cons tos st =>
    simp only [TopOk, length_append, bump_cons] at h ⊢
    omega

/-- The innermost open list, if any, has not been read to its end. -/
def NotAtEnd : List ListPos → Prop
  | [] => True
  | tos :: _ => tos.pos ≠ tos.size

theorem Fits.notAtEnd (hn : 0 < n) (h : Fits n r st) :
    NotAtEnd st := by
  cases st with
  | nil => trivial
  | cons tos st =>
    have := h.2
    show tos.pos ≠ tos.size
    omega

/-- The stream has the unread input `r` and the open lists `st`. -/
structure Pos (s : Stream) (r : Bytes) (st : List ListPos) : Prop where
  r_eq : s.r = r
  remaining : s.remaining = r.length
  limited : s.limited = true
  stack : s.stack = st

/-- A stream positioned before the header of the next value. -/
structure Fresh (s : Stream) (r : Bytes) (st : List ListPos) : Prop extends Pos s r st where
  kind : s.kind = none

/-- A stream positioned behind the header of a value, which it has cached. -/
structure Peeked (s : Stream) (k : Kind) (size : Nat) (bv : UInt8) (r : Bytes)
    (st : List ListPos) : Prop extends Pos s r st where
  kind : s.kind = some k
  size_eq : s.size = size
  byteval : s.byteval = bv
  kinderr : s.kinderr = none

/-- The stream `s` moved on to the unread input `r` and the open lists `st`, with nothing cached. -/
def Stream.moved (s : Stream) (r : Bytes) (st : List ListPos) : Stream :=
  { s with r := r, remaining := r.length, stack := st, kind := none }

theorem Pos.moved (h : Pos s r st) (r' : Bytes) (st' : List ListPos) :
    Fresh (s.moved r' st') r' st' :=
  ⟨⟨rfl, rfl, h.limited, rfl⟩, rfl⟩

theorem fresh_new (b : Bytes) : Fresh (Stream.new b) b [] :=
  ⟨⟨rfl, rfl, rfl, rfl⟩, rfl⟩

/-! ## Reading bytes -/

theorem willRead_of_fits (h : Pos s r st) (hf : Fits n r st) : s.willRead n =
      (none, { s with kind := none, remaining := r.length - n, stack := bump n st }) := by
  unfold Stream.willRead
  cases st with
  | nil =>
    have hn : ¬ n > r.length := Nat.not_lt.mpr hf
    simp [h.stack, h.limited, h.remaining, if_neg hn]
  | cons tos st =>
    have hn : ¬ n > r.length := Nat.not_lt.mpr hf.1
    have ht : ¬ n > tos.size - tos.pos := Nat.not_lt.mpr hf.2
    simp [h.stack, if_neg ht, h.limited, h.remaining, if_neg hn]

theorem willRead_of_not_fits (h : Pos s r st) (hf : ¬ Fits n r st) :
    ∃ e s', s.willRead n = (some e, s') ∧ e ≠ .eol := by
  unfold Stream.willRead
  cases st with
  | nil =>
    have hn : n > s.remaining := by rw [h.remaining]; exact Nat.not_le.mp hf
    simp only [h.stack, h.limited, if_true, if_pos hn]
    exact ⟨_, _, rfl, by simp⟩
  | cons tos st =>
    by_cases ht : n > tos.size - tos.pos
    · simp only [h.stack, if_pos ht]
      exact ⟨_, _, rfl, by simp⟩
    · have hn : n > s.remaining := by
        rw [h.remaining]
        by_contra hle
        exact hf ⟨Nat.not_lt.mp hle, Nat.not_lt.mp ht⟩
      simp only [h.stack, if_neg ht, h.limited, if_true, if_pos hn]
      exact ⟨_, _, rfl, by simp⟩

theorem readByte_of_fits (h : Pos s (b :: r) st) (hf : Fits 1 (b :: r) st) :
    s.readByte = (.ok b, s.moved r (bump 1 st)) := by
  unfold Stream.readByte
  rw [willRead_of_fits h hf]
  simp [h.r_eq, Stream.moved]

theorem readFull_of_fits (h : Pos s (a ++ r) st) (hf : Fits a.length (a ++ r) st) :
    s.readFull a.length = (.ok a, s.moved r (bump a.length st)) := by
  unfold Stream.readFull
  rw [willRead_of_fits h hf]
  have hlen : (a ++ r).length - a.length = r.length := by simp
  simp only [h.r_eq, Stream.moved, take_left, drop_left, hlen]
  rw [if_pos (by simp)]

theorem readByte_inv (h : Pos s r st) : (∃ b r', r = b :: r' ∧ Fits 1 r st) ∨
      ∃ e s', s.readByte = (.error e, s') ∧ e ≠ .eol := by
  by_cases hf : Fits 1 r st
  · left
    cases r with
    | nil => exact absurd hf.le (by simp)
    | cons b r => exact ⟨b, r, rfl, hf⟩
  · right
    obtain ⟨e, s', hw, he⟩ := willRead_of_not_fits h hf
    unfold Stream.readByte
    rw [hw]
    exact ⟨e, s', rfl, he⟩

theorem readFull_inv (h : Pos s r st) (n : Nat) :
    (∃ a r', r = a ++ r' ∧ a.length = n ∧ Fits n r st) ∨
      ∃ e s', s.readFull n = (.error e, s') ∧ e ≠ .eol := by
  by_cases hf : Fits n r st
  · left
    refine ⟨r.take n, r.drop n, (take_append_drop n r).symm, ?_, hf⟩
    rw [length_take]
    exact Nat.min_eq_left hf.le
  · right
    obtain ⟨e, s', hw, he⟩ := willRead_of_not_fits h hf
    unfold Stream.readFull
    rw [hw]
    exact ⟨e, s', rfl, he⟩

theorem readUint_of_fits (h : Pos s (a ++ r) st) (hf : Fits a.length (a ++ r) st)
    (hpos : 0 < a.length) (hz : a.length = 1 ∨ a.head? ≠ some 0) :
    s.readUint a.length = (.ok (beNat a), s.moved r (bump a.length st)) := by
  match a, hpos with
  | [b], _ =>
    have hr : s.readByte = (.ok b, s.moved r (bump 1 st)) := readByte_of_fits h hf
    unfold Stream.readUint
    simp [hr, beNat]
  | b :: c :: a, _ =>
    have hz' : (b :: c :: a).head? ≠ some 0 := by
      rcases hz with hz | hz
      · simp at hz
      · exact hz
    have hr := readFull_of_fits h hf
    unfold Stream.readUint
    simp only [length_cons] at hr ⊢
    rw [hr]
    simp only
    rw [if_neg hz']

theorem readUint_inv (h : Pos s r st) (hn : 0 < n) :
    (∃ a r', r = a ++ r' ∧ a.length = n ∧ Fits n r st ∧ (n = 1 ∨ a.head? ≠ some 0)) ∨
      ∃ e s', s.readUint n = (.error e, s') ∧ e ≠ .eol := by
  match n, hn with
  | 1, _ =>
    rcases readByte_inv h with ⟨b, r', hr, hf⟩ | ⟨e, s', he, hne⟩
    · exact .inl ⟨[b], r', hr, rfl, hf, .inl rfl⟩
    · right
      unfold Stream.readUint
      simp only [he]
      exact ⟨e, s', rfl, hne⟩
  | n + 2, _ =>
    rcases readFull_inv h (n + 2) with ⟨a, r', hr, hlen, hf⟩ | ⟨e, s', he, hne⟩
    · by_cases hz : a.head? = some 0
      · right
        subst hr
        rw [← hlen] at hf
        have hrd := readFull_of_fits h hf
        rw [hlen] at hrd
        unfold Stream.readUint
        simp only [hrd, if_pos hz]
        exact ⟨_, _, rfl, by simp⟩
      · exact .inl ⟨a, r', hr, hlen, hf, .inr hz⟩
    · right
      unfold Stream.readUint
      simp only [he]
      exact ⟨e, s', rfl, hne⟩

/-! ## Headers -/

/-- `Header k n bv hdr`: the bytes `hdr` are the canonical header of a value of kind `k` with `n`
bytes behind the header; `bv` is the value of a single byte. -/
inductive Header : Kind → Nat → UInt8 → Bytes → Prop
  | byte (x : UInt8) (h : x < 0x80) : Header .byte 0 x [x]
  | string (n : Nat) (h : n < 2 ^ 64) : Header .string n 0 (header 0x80 0xB7 n)
  | list (n : Nat) (h : n < 2 ^ 64) : Header .list n 0 (header 0xC0 0xF7 n)

theorem Header.length_pos (h : Header k n bv hdr) : 0 < hdr.length := by
  cases h with
  | byte => simp
  | string n _ => exact header_length_pos _ _ _
  | list n _ => exact header_length_pos _ _ _

theorem tag_toNat (base : UInt8) (n : Nat) (h : base.toNat + n < 256) :
    (base + UInt8.ofNat n).toNat = base.toNat + n := by
  rw [UInt8.toNat_add, UInt8.toNat_ofNat']
  omega

theorem tag_sub (b base : UInt8) (h : base.toNat ≤ b.toNat) :
    (b - base).toNat = b.toNat - base.toNat :=
  UInt8.toNat_sub_of_le b base (UInt8.le_iff_toNat_le.mpr h)

theorem eq_tag (b base : UInt8) (h : base.toNat ≤ b.toNat) :
    b = base + UInt8.ofNat (b.toNat - base.toNat) := by
  apply UInt8.toNat_inj.mp
  rw [tag_toNat _ _ (by have := b.toNat_lt; omega)]
  omega

theorem sizeErr_eq_none_iff (h : Pos s r st) (ht : TopOk r st) :
    s.sizeErr n = none ↔ Fits n r st := by
  unfold Stream.sizeErr
  cases st with
  | nil =>
    simp only [h.stack, h.limited, Bool.true_and, h.remaining, Fits]
    split <;> simp_all
  | cons tos st =>
    have : tos.size - tos.pos ≤ r.length := ht
    simp only [h.stack, Fits]
    split
    · simp only [reduceCtorEq, false_iff]
      omega
    · simp only [true_iff]
      omega

theorem sizeErr_of_fits (h : Pos s r st) (hf : Fits n r st) : s.sizeErr n = none := by
  unfold Stream.sizeErr
  cases st with
  | nil =>
    have : ¬ n > r.length := Nat.not_lt.mpr hf
    simp [h.stack, h.limited, h.remaining, this]
  | cons tos st =>
    have : ¬ n > tos.size - tos.pos := Nat.not_lt.mpr hf.2
    simp [h.stack, this]

theorem readSize_of_fits (k : Kind) (hn : 56 ≤ n) (h : Pos s (beBytes n ++ r) st)
    (hf : Fits (beBytes n).length (beBytes n ++ r) st) :
    s.readSize k (beBytes n).length = ((k, n, none), s.moved r (bump (beBytes n).length st)) := by
  unfold Stream.readSize
  rw [readUint_of_fits h hf (length_beBytes_pos (by omega)) (.inr (head?_beBytes_ne_zero n))]
  simp only [beNat_beBytes]
  rw [if_neg (by omega)]

theorem readSize_inv (h : Pos s r st) (k : Kind) (hm : 0 < m) :
    (∃ n r', 56 ≤ n ∧ r = beBytes n ++ r' ∧ (beBytes n).length = m ∧ Fits m r st) ∨
      ∃ k' n e s', s.readSize k m = ((k', n, some e), s') ∧ e ≠ .eol := by
  rcases readUint_inv h hm with ⟨a, r', rfl, hlen, hf, hz⟩ | ⟨e, s', he, hne⟩
  · have hrd : s.readUint m = (.ok (beNat a), s.moved r' (bump m st)) := by
      have := readUint_of_fits h (by rw [hlen]; exact hf) (by omega) (by rw [hlen]; exact hz)
      rw [hlen] at this
      exact this
    by_cases h56 : beNat a < 56
    · right
      unfold Stream.readSize
      simp only [hrd, if_pos h56]
      exact ⟨_, _, _, _, rfl, by simp⟩
    · left
      have hz' : a.head? ≠ some 0 := by
        rcases hz with h1 | hz
        · match a, hlen with
          | [b], _ =>
            intro h0
            simp only [List.head?_cons, Option.some.injEq] at h0
            subst h0
            exact h56 (by decide)
          | [], hlen => simp only [length_nil] at hlen; omega
          | _ :: _ :: _, hlen => simp only [length_cons] at hlen; omega
        · exact hz
      refine ⟨beNat a, r', by omega, ?_, ?_, hf⟩
      · rw [beBytes_beNat hz']
      · rw [beBytes_beNat hz', hlen]
  · right
    unfold Stream.readSize
    simp only [he]
    exact ⟨_, _, _, _, rfl, hne⟩

theorem length_beBytes_le_eight (h : n < 2 ^ 64) : (beBytes n).length ≤ 8 :=
  (length_beBytes_le_iff n 8).mpr (by omega)

theorem readTag_byte (s : Stream) (h : b.toNat < 128) :
    s.readTag b = ((.byte, 0, none), { s with byteval := b }) := by
  unfold Stream.readTag
  rw [if_pos (UInt8.lt_iff_toNat_lt.mpr h)]

/-- The tags of strings and lists: `base` and `large` are the two tag bytes of kind `k`. -/
def TagsOf (k : Kind) (base large : UInt8) : Prop :=
  base.toNat + 55 = large.toNat ∧ ∀ (s : Stream) (b : UInt8),
    (base.toNat ≤ b.toNat → b.toNat < base.toNat + 56 →
      s.readTag b = ((k, b.toNat - base.toNat, none), s)) ∧
    (large.toNat < b.toNat → b.toNat ≤ large.toNat + 8 →
      s.readTag b = s.readSize k (b.toNat - large.toNat))

theorem tagsOf_string : TagsOf .string 0x80 0xB7 := by
  refine ⟨rfl, fun s b => ⟨fun h1 h2 => ?_, fun h1 h2 => ?_⟩⟩
  · have h1' : 128 ≤ b.toNat := h1
    have h2' : b.toNat < 184 := h2
    unfold Stream.readTag
    rw [if_neg (by rw [UInt8.lt_iff_toNat_lt]; exact Nat.not_lt.mpr h1'),
      if_pos (UInt8.lt_iff_toNat_lt.mpr h2'), tag_sub _ _ h1]
  · have h1' : 183 < b.toNat := h1
    have h2' : b.toNat < 192 := Nat.lt_succ_of_le h2
    unfold Stream.readTag
    rw [if_neg (by rw [UInt8.lt_iff_toNat_lt]; exact Nat.not_lt.mpr (by simp; omega)),
      if_neg (by rw [UInt8.lt_iff_toNat_lt]; exact Nat.not_lt.mpr h1'),
      if_pos (UInt8.lt_iff_toNat_lt.mpr h2'), tag_sub _ _ (Nat.le_of_lt h1)]

theorem tagsOf_list : TagsOf .list 0xC0 0xF7 := by
  refine ⟨rfl, fun s b => ⟨fun h1 h2 => ?_, fun h1 h2 => ?_⟩⟩
  · have h1' : 192 ≤ b.toNat := h1
    have h2' : b.toNat < 248 := h2
    unfold Stream.readTag
    rw [if_neg (by rw [UInt8.lt_iff_toNat_lt]; exact Nat.not_lt.mpr (by simp; omega)),
      if_neg (by rw [UInt8.lt_iff_toNat_lt]; exact Nat.not_lt.mpr (by simp; omega)),
      if_neg (by rw [UInt8.lt_iff_toNat_lt]; exact Nat.not_lt.mpr h1'),
      if_pos (UInt8.lt_iff_toNat_lt.mpr h2'), tag_sub _ _ h1]
  · have h1' : 247 < b.toNat := h1
    unfold Stream.readTag
    rw [if_neg (by rw [UInt8.lt_iff_toNat_lt]; exact Nat.not_lt.mpr (by simp; omega)),
      if_neg (by rw [UInt8.lt_iff_toNat_lt]; exact Nat.not_lt.mpr (by simp; omega)),
      if_neg (by rw [UInt8.lt_iff_toNat_lt]; exact Nat.not_lt.mpr (by simp; omega)),
      if_neg (by rw [UInt8.lt_iff_toNat_lt]; exact Nat.not_lt.mpr h1'),
      tag_sub _ _ (Nat.le_of_lt h1)]

theorem readKind_of_tags {base large : UInt8} (ht : TagsOf k base large)
    (hlarge : large.toNat + 8 < 256) (hn : n < 2 ^ 64) (h : Pos s (header base large n ++ r) st)
    (hf : Fits (header base large n).length (header base large n ++ r) st) :
    s.readKind = ((k, n, none),
      { s.moved r (bump (header base large n).length st) with byteval := 0 }) := by
  have hsum := ht.1
  unfold Stream.readKind
  by_cases h56 : n < 56
  · have hh : header base large n = [base + UInt8.ofNat n] := if_pos h56
    rw [hh] at h hf ⊢
    have hb := readByte_of_fits (r := r) h hf
    have htag := tag_toNat base n (by omega)
    simp only [hb]
    rw [(ht.2 _ _).1 (by omega) (by omega), htag, Nat.add_sub_cancel_left]
    rfl
  · have hh : header base large n = (large + UInt8.ofNat (beBytes n).length) :: beBytes n :=
      if_neg h56
    rw [hh] at h hf ⊢
    have hm := length_beBytes_le_eight hn
    have hm0 := length_beBytes_pos (n := n) (by omega)
    have hb := readByte_of_fits (r := beBytes n ++ r) h (hf.mono (by simp))
    have htag := tag_toNat large (beBytes n).length (by omega)
    have hf' : Fits (beBytes n).length (beBytes n ++ r) (bump 1 st) := by
      apply Fits.drop (a := [large + UInt8.ofNat (beBytes n).length]) rfl
      rw [length_cons, Nat.add_comm] at hf
      exact hf
    have hpos : Pos { s.moved (beBytes n ++ r) (bump 1 st) with byteval := 0 } (beBytes n ++ r)
        (bump 1 st) := ⟨rfl, rfl, h.limited, rfl⟩
    simp only [hb]
    rw [(ht.2 _ _).2 (by omega) (by omega), htag, Nat.add_sub_cancel_left,
      readSize_of_fits k (by omega) hpos hf', bump_bump, length_cons, Nat.add_comm 1]
    rfl

theorem readKind_of_header (h : Pos s (hdr ++ r) st) (hh : Header k n bv hdr)
    (hf : Fits hdr.length (hdr ++ r) st) :
    s.readKind = ((k, n, none), { s.moved r (bump hdr.length st) with byteval := bv }) := by
  cases hh with
  | byte _ hx =>
    have hb : s.readByte = (.ok bv, s.moved r (bump 1 st)) := readByte_of_fits h hf
    unfold Stream.readKind
    simp only [hb]
    rw [readTag_byte _ (UInt8.lt_iff_toNat_lt.mp hx)]
    rfl
  | string n hn => exact readKind_of_tags tagsOf_string (by decide) hn h hf
  | list n hn => exact readKind_of_tags tagsOf_list (by decide) hn h hf

theorem readKind_inv_large {base large : UInt8} (ht : TagsOf k base large)
    (hlo : large.toNat < b.toNat) (hhi : b.toNat ≤ large.toNat + 8) (h : Pos s (b :: r) st)
    (hf : Fits 1 (b :: r) st) :
    (∃ n r', n < 2 ^ 64 ∧ b :: r = header base large n ++ r' ∧
      Fits (header base large n).length (b :: r) st) ∨
      ∃ k' n e s', s.readKind = ((k', n, some e), s') ∧ e ≠ .eol := by
  have hread : s.readKind =
      { s.moved r (bump 1 st) with byteval := 0 }.readSize k (b.toNat - large.toNat) := by
    unfold Stream.readKind
    simp only [readByte_of_fits h hf]
    rw [(ht.2 _ _).2 hlo hhi]
  have hpos : Pos { s.moved r (bump 1 st) with byteval := 0 } r (bump 1 st) :=
    ⟨rfl, rfl, h.limited, rfl⟩
  rcases readSize_inv hpos k (m := b.toNat - large.toNat) (by omega) with
    ⟨n, r', h56, hr, hlen, hfit⟩ | ⟨k', n, e, s', he, hne⟩
  · left
    have hn : n < 2 ^ 64 := by
      have := (length_beBytes_le_iff n 8).mp (by omega)
      omega
    have hh : header base large n = b :: beBytes n := by
      unfold header
      rw [if_neg (by omega), hlen, ← eq_tag b large (Nat.le_of_lt hlo)]
    refine ⟨n, r', hn, ?_, ?_⟩
    · rw [hh, hr, cons_append]
    · rw [hh, length_cons, hlen, Nat.add_comm]
      exact (fits_bump (a := [b]) rfl).mp ⟨hfit, hf⟩
  · right
    exact ⟨k', n, e, s', hread.trans he, hne⟩

theorem readKind_inv (h : Pos s r st) :
    (∃ k n bv hdr r', Header k n bv hdr ∧ r = hdr ++ r' ∧ Fits hdr.length r st) ∨
      ∃ k n e s', s.readKind = ((k, n, some e), s') ∧ e ≠ .eol := by
  rcases readByte_inv h with ⟨b, r', rfl, hf⟩ | ⟨e, s', he, hne⟩
  · have hb := b.toNat_lt
    by_cases h1 : b.toNat < 128
    · exact .inl ⟨.byte, 0, b, [b], r', .byte b (UInt8.lt_iff_toNat_lt.mpr h1), rfl, hf⟩
    by_cases h2 : b.toNat < 184
    · have hh : header 0x80 0xB7 (b.toNat - 128) = [b] := by
        unfold header
        rw [if_pos (by omega)]
        exact congrArg (fun x => [x]) (eq_tag b 0x80 (Nat.not_lt.mp h1)).symm
      refine .inl ⟨.string, b.toNat - 128, 0, [b], r', ?_, rfl, hf⟩
      rw [← hh]
      exact .string _ (by omega)
    by_cases h3 : b.toNat < 192
    · rcases readKind_inv_large tagsOf_string (Nat.not_lt.mp h2) (Nat.le_of_lt_succ h3) h hf with
        ⟨n, r'', hn, hr, hfit⟩ | herr
      · exact .inl ⟨.string, n, 0, _, r'', .string n hn, hr, hfit⟩
      · exact .inr herr
    by_cases h4 : b.toNat < 248
    · have hh : header 0xC0 0xF7 (b.toNat - 192) = [b] := by
        unfold header
        rw [if_pos (by omega)]
        exact congrArg (fun x => [x]) (eq_tag b 0xC0 (Nat.not_lt.mp h3)).symm
      refine .inl ⟨.list, b.toNat - 192, 0, [b], r', ?_, rfl, hf⟩
      rw [← hh]
      exact .list _ (by omega)
    · rcases readKind_inv_large tagsOf_list (Nat.not_lt.mp h4)
        (show b.toNat ≤ 255 by omega) h hf with ⟨n, r'', hn, hr, hfit⟩ | herr
      · exact .inl ⟨.list, n, 0, _, r'', .list n hn, hr, hfit⟩
      · exact .inr herr
  · right
    unfold Stream.readKind
    simp only [he]
    refine ⟨_, _, _, _, rfl, ?_⟩
    unfold Stream.eofErr
    split <;> simp_all

/-! ## Kind -/

theorem fetchKind_of_header (h : Pos s (hdr ++ r) st) (hh : Header k n bv hdr)
    (hf : Fits (hdr.length + n) (hdr ++ r) st) :
    Peeked s.fetchKind k n bv r (bump hdr.length st) := by
  have hfit : Fits n r (bump hdr.length st) := hf.drop rfl
  unfold Stream.fetchKind
  rw [readKind_of_header h hh (hf.mono (by omega))]
  refine ⟨⟨rfl, rfl, h.limited, rfl⟩, rfl, rfl, rfl, ?_⟩
  refine sizeErr_of_fits ?_ hfit
  exact ⟨rfl, rfl, h.limited, rfl⟩

theorem fetchKind_inv (h : Pos s r st) (ht : TopOk r st) :
    (∃ k n bv hdr r', Header k n bv hdr ∧ r = hdr ++ r' ∧ Fits (hdr.length + n) r st) ∨
      ∃ e, s.fetchKind.kinderr = some e ∧ e ≠ .eol := by
  rcases readKind_inv h with ⟨k, n, bv, hdr, r', hh, rfl, hf⟩ | ⟨k, n, e, s', he, hne⟩
  · by_cases hfit : Fits n r' (bump hdr.length st)
    · exact .inl ⟨k, n, bv, hdr, r', hh, rfl, (fits_bump rfl).mp ⟨hfit, hf⟩⟩
    · right
      unfold Stream.fetchKind
      rw [readKind_of_header h hh hf]
      generalize hs' : Stream.mk _ _ _ _ _ _ _ _ = s'
      have hp : Pos s' r' (bump hdr.length st) := by
        subst hs'
        exact ⟨rfl, rfl, h.limited, rfl⟩
      have hne := mt (sizeErr_eq_none_iff hp ht.bump).mp hfit
      obtain ⟨e, he⟩ := Option.ne_none_iff_exists'.mp hne
      refine ⟨e, he, ?_⟩
      rintro rfl
      unfold Stream.sizeErr at he
      split at he <;> split at he <;> simp at he
  · right
    unfold Stream.fetchKind
    rw [he]
    exact ⟨e, rfl, hne⟩

theorem getKind_fetch (h : Fresh s r st) (hne : NotAtEnd st) :
    s.getKind = ({ s with kinderr := none }.fetchKind.cached,
      { s with kinderr := none }.fetchKind) := by
  unfold Stream.getKind
  cases st with
  | nil => simp [h.kind, h.stack]
  | cons tos st => simp [h.kind, h.stack, if_neg (show ¬ tos.pos = tos.size from hne)]

theorem getKind_peeked (h : Peeked s k n bv r st) : s.getKind = (.ok (k, n), s) := by
  unfold Stream.getKind Stream.cached
  simp [h.kind, h.kinderr, h.size_eq]

theorem getKind_atEnd (h : Fresh s r (tos :: st)) (he : tos.pos = tos.size) :
    ∃ s', s.getKind = (.error .eol, s') ∧ Fresh s' r (tos :: st) := by
  unfold Stream.getKind
  simp only [h.kind, h.stack, if_pos he]
  exact ⟨_, rfl, ⟨h.r_eq, h.remaining, h.limited, rfl⟩, rfl⟩

theorem getKind_of_header (h : Fresh s (hdr ++ r) st) (hh : Header k n bv hdr)
    (hf : Fits (hdr.length + n) (hdr ++ r) st) :
    ∃ s', s.getKind = (.ok (k, n), s') ∧ Peeked s' k n bv r (bump hdr.length st) := by
  have hpos := hh.length_pos
  have hp : Pos { s with kinderr := none } (hdr ++ r) st :=
    ⟨h.r_eq, h.remaining, h.limited, h.stack⟩
  have hpk := fetchKind_of_header hp hh hf
  refine ⟨_, ?_, hpk⟩
  rw [getKind_fetch h (hf.notAtEnd (by omega))]
  unfold Stream.cached
  simp [hpk.kind, hpk.kinderr, hpk.size_eq]

theorem getKind_inv (h : Fresh s r st) (ht : TopOk r st) :
    (∃ k n bv hdr r' s', Header k n bv hdr ∧ r = hdr ++ r' ∧ Fits (hdr.length + n) r st ∧
      s.getKind = (.ok (k, n), s') ∧ Peeked s' k n bv r' (bump hdr.length st)) ∨
    (¬ NotAtEnd st ∧ ∃ s', s.getKind = (.error .eol, s') ∧ Fresh s' r st) ∨
    ∃ e s', s.getKind = (.error e, s') ∧ e ≠ .eol := by
  by_cases hne : NotAtEnd st
  · have hp : Pos { s with kinderr := none } r st := ⟨h.r_eq, h.remaining, h.limited, h.stack⟩
    rcases fetchKind_inv hp ht with ⟨k, n, bv, hdr, r', hh, rfl, hf⟩ | ⟨e, he, hne'⟩
    · obtain ⟨s', hs', hpk⟩ := getKind_of_header h hh hf
      exact .inl ⟨k, n, bv, hdr, r', s', hh, rfl, hf, hs', hpk⟩
    · refine .inr (.inr ⟨e, { s with kinderr := none }.fetchKind, ?_, hne'⟩)
      rw [getKind_fetch h hne]
      unfold Stream.cached
      simp [he]
  · cases st with
    | nil => exact absurd trivial hne
    | cons tos st =>
      have he : tos.pos = tos.size := Decidable.not_not.mp hne
      exact .inr (.inl ⟨hne, getKind_atEnd h he⟩)

/-! ## Strings and lists behind their header -/

theorem bytes_peeked_byte (h : Peeked s .byte n bv r st) :
    ∃ s', s.bytes = (.ok [bv], s') ∧ Fresh s' r st := by
  unfold Stream.bytes
  simp only [getKind_peeked h, h.byteval]
  exact ⟨_, rfl, ⟨h.r_eq, h.remaining, h.limited, h.stack⟩, rfl⟩

theorem lt_128_iff {x : UInt8} : x < 128 ↔ x ≤ 0x7F := by
  exact Nat.lt_succ_iff

theorem bytes_peeked_string {b : Bytes} (h : Peeked s .string b.length bv (b ++ r) st)
    (hf : Fits b.length (b ++ r) st) (hb : ∀ x, b = [x] → ¬ x ≤ 0x7F) :
    ∃ s', s.bytes = (.ok b, s') ∧ Fresh s' r (bump b.length st) := by
  unfold Stream.bytes
  simp only [getKind_peeked h, readFull_of_fits h.toPos hf]
  split
  · next x =>
    rw [if_neg (mt lt_128_iff.mp (hb x rfl))]
    exact ⟨_, rfl, h.toPos.moved r _⟩
  · exact ⟨_, rfl, h.toPos.moved r _⟩

theorem bytes_peeked_string_inv (h : Peeked s .string n bv r st) (hf : Fits n r st) :
    (∃ b r', r = b ++ r' ∧ b.length = n ∧ ∀ x, b = [x] → ¬ x ≤ 0x7F) ∨
      ∃ e s', s.bytes = (.error e, s') ∧ e ≠ .eol := by
  have hr : r = r.take n ++ r.drop n := (take_append_drop n r).symm
  have hlen : (r.take n).length = n := by
    rw [length_take]
    exact Nat.min_eq_left hf.le
  by_cases hb : ∀ x, r.take n = [x] → ¬ x ≤ 0x7F
  · exact .inl ⟨r.take n, r.drop n, hr, hlen, hb⟩
  · right
    push Not at hb
    obtain ⟨x, hx, hle⟩ := hb
    have hp : Pos s (r.take n ++ r.drop n) st := by rw [← hr]; exact h.toPos
    have hrd := readFull_of_fits hp (by rw [hlen, ← hr]; exact hf)
    rw [hlen] at hrd
    unfold Stream.bytes
    simp only [getKind_peeked h, hrd, hx, if_pos (lt_128_iff.mpr hle)]
    exact ⟨_, _, rfl, by simp⟩

theorem list_peeked (h : Peeked s .list n bv r st) :
    ∃ s', s.list = (.ok n, s') ∧ Fresh s' r (⟨0, n⟩ :: st) := by
  unfold Stream.list
  simp only [getKind_peeked h]
  exact ⟨_, rfl, ⟨h.r_eq, h.remaining, h.limited, by rw [h.stack]⟩, rfl⟩

theorem listEnd_atEnd (h : Pos s r (tos :: st)) (he : tos.pos = tos.size) :
    ∃ s', s.listEnd = (.ok (), s') ∧ Fresh s' r (bump tos.size st) := by
  unfold Stream.listEnd
  simp only [h.stack, ne_eq, he, not_true_eq_false, if_false]
  refine ⟨_, rfl, ⟨h.r_eq, h.remaining, h.limited, ?_⟩, rfl⟩
  cases st <;> rfl

theorem listEnd_notAtEnd (h : Pos s r (tos :: st)) (he : tos.pos ≠ tos.size) :
    s.listEnd = (.error .notAtEOL, s) := by
  unfold Stream.listEnd
  simp [h.stack, if_pos he]

end Geth.Rlp
