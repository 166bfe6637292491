import Geth.Rlp.Encode

/-!
# The encoder produces the canonical encoding

`putint` and `puthead` write the shortest big-endian numbers of the canonical headers. The encode
buffer is a monoid under `EncBuf.append` (string data concatenated, offsets shifted, header sizes
added); every writer appends a buffer that depends on the written value only, so the two-pass
encoding of a value is compositional, and `EncBuf.splice` of the result is the canonical encoding
of the item the value stands for (`encodeToBytes_eq_some_iff`).
-/

namespace Geth.Rlp

open Lib List

/-! ## Integers and headers -/

theorem byte_toNat (i : Nat) : (byte i).toNat = i % 256 := UInt8.toNat_ofNat'

variable {i : Nat}

theorem beNat_putint (h : i < 2 ^ 64) : beNat (putint i) = i := by
  unfold putint
  split_ifs <;>
    simp only [beNat, foldl_cons, foldl_nil, byte_toNat, Nat.shiftRight_eq_div_pow] <;>
    omega

theorem head?_putint_ne_zero (h0 : 0 < i) (h : i < 2 ^ 64) : (putint i).head? ≠ some 0 := by
  intro hz
  unfold putint at hz
  split_ifs at hz <;>
    · simp only [List.head?_cons, Option.some.injEq] at hz
      have hz' := congrArg UInt8.toNat hz
      simp only [byte_toNat, Nat.shiftRight_eq_div_pow, UInt8.toNat_zero] at hz'
      omega

theorem putint_eq (h0 : 0 < i) (h : i < 2 ^ 64) : putint i = beBytes i := by
  have := beBytes_beNat (head?_putint_ne_zero h0 h)
  rw [beNat_putint h] at this
  exact this.symm

theorem intsizeLoop_eq (fuel size i : Nat) (h0 : 0 < i) (h : i < 256 ^ fuel) :
    intsizeLoop fuel size i + 1 = size + (beBytes i).length := by
  induction fuel generalizing size i with
  | zero => simp only [Nat.pow_zero] at h; omega
  | succ fuel ih =>
    rw [intsizeLoop, Nat.shiftRight_eq_div_pow, length_beBytes_of_pos h0]
    by_cases hz : i / 2 ^ 8 = 0
    · rw [if_pos hz, show i / 256 = 0 from hz, beBytes_zero, length_nil]
    · rw [if_neg hz, ih _ _ (Nat.pos_of_ne_zero hz)
        (Nat.div_lt_of_lt_mul (by rw [Nat.pow_succ, Nat.mul_comm] at h; exact h))]
      show size + 1 + (beBytes (i / 256)).length = _
      omega

theorem intsize_eq (h0 : 0 < i) (h : i < 2 ^ 64) : intsize i = (putint i).length := by
  have := intsizeLoop_eq 8 1 i h0 (by omega)
  rw [putint_eq h0 h]
  unfold intsize
  omega

theorem putint_length_le (i : Nat) : (putint i).length ≤ 8 := by
  unfold putint
  split_ifs <;> simp

theorem puthead_eq (s l : UInt8) {n : Nat} (h : n < 2 ^ 64) : puthead s l n = header s l n := by
  unfold puthead header byte
  split
  · rfl
  · rw [putint_eq (by omega) h]

theorem headsize_eq (s l : UInt8) {n : Nat} (h : n < 2 ^ 64) :
    headsize n = (header s l n).length := by
  unfold headsize header
  split
  · rfl
  · rw [intsize_eq (by omega) h, putint_eq (by omega) h, length_cons, Nat.add_comm]

/-! ## The buffer as a monoid -/

/-- Moves a header by `k` bytes of string data. -/
def ListHead.shift (k : Nat) (head : ListHead) : ListHead :=
  { head with offset := k + head.offset }

@[simp] theorem ListHead.shift_offset (k : Nat) (head : ListHead) :
    (head.shift k).offset = k + head.offset := rfl

@[simp] theorem ListHead.shift_encode (k : Nat) (head : ListHead) :
    (head.shift k).encode = head.encode := rfl

namespace EncBuf

/-- The buffer `u` written after the buffer `w`. -/
def append (w u : EncBuf) : EncBuf :=
  ⟨w.str ++ u.str, w.lheads ++ u.lheads.map (ListHead.shift w.str.length), w.lhsize + u.lhsize⟩

/-- The buffer `u` as the contents of one list. -/
def wrap (u : EncBuf) : EncBuf :=
  ⟨u.str, ⟨0, u.size⟩ :: u.lheads, u.lhsize + headsize u.size⟩

@[simp] theorem append_str (w u : EncBuf) : (w.append u).str = w.str ++ u.str := rfl

@[simp] theorem append_size (w u : EncBuf) : (w.append u).size = w.size + u.size := by
  simp only [append, size, length_append]
  omega

@[simp] theorem wrap_size (u : EncBuf) : u.wrap.size = u.size + headsize u.size := by
  simp only [wrap, size]
  omega

@[simp] theorem append_empty (w : EncBuf) : w.append empty = w := by
  simp [append, empty]

@[simp] theorem empty_append (w : EncBuf) : empty.append w = w := by
  have : w.lheads.map (ListHead.shift 0) = w.lheads := by
    conv_rhs => rw [← map_id w.lheads]
    exact List.map_congr_left (fun h _ => by simp [ListHead.shift])
  simp [append, empty, this]

theorem append_assoc (w u v : EncBuf) : (w.append u).append v = w.append (u.append v) := by
  simp only [append, List.append_assoc, map_append, map_map, length_append, Nat.add_assoc]
  congr 3
  exact List.map_congr_left (fun h _ => by simp [ListHead.shift, Nat.add_assoc])

theorem write_eq (w : EncBuf) (b : Bytes) : w.write b = w.append ⟨b, [], 0⟩ := by
  simp [write, append]

theorem listEnd_append (w u : EncBuf) : (w.list.2.append u).listEnd w.list.1 = w.append u.wrap := by
  have hget : (w.list.2.append u).lheads[w.list.1]? = some ⟨w.str.length, w.lhsize⟩ := by
    simp [list, append]
  have hsize : (w.list.2.append u).size - w.str.length - w.lhsize = u.size := by
    simp only [list, append, size, length_append]
    omega
  unfold listEnd
  rw [hget]
  simp only [hsize]
  simp only [list, append, wrap, headsize, map_cons, ListHead.shift, Nat.add_zero]
  congr 1
  · simp
  · split <;> omega

/-! ## What the writers append -/

mutual

/-- The buffer an item is written as. -/
def flat : Item → EncBuf
  | .str b => empty.encodeString b
  | .list items => (flatAll items).wrap

/-- The buffer a sequence of items is written as. -/
def flatAll : List Item → EncBuf
  | [] => empty
  | t :: ts => (flat t).append (flatAll ts)

end

theorem encodeStringHeader_eq (w : EncBuf) (n : Nat) :
    w.encodeStringHeader n = w.append ⟨puthead 0x80 0xB7 n, [], 0⟩ := by
  unfold encodeStringHeader puthead
  split <;> rw [write_eq]

theorem encodeString_eq (w : EncBuf) (b : Bytes) :
    w.encodeString b = w.append (empty.encodeString b) := by
  unfold encodeString
  split
  · split
    · simp [write_eq]
    · simp [write_eq, encodeStringHeader_eq, append_assoc]
  · simp [write_eq, encodeStringHeader_eq, append_assoc]

mutual

theorem writeInterface_eq : ∀ (t : Item) (w : EncBuf), writeInterface t w = w.append (flat t)
  | .str b, w => by rw [writeInterface, flat, encodeString_eq]
  | .list items, w => by
    rw [writeInterface, flat]
    show (writeInterfaces items w.list.2).listEnd w.list.1 = _
    rw [writeInterfaces_eq items w.list.2, listEnd_append]

theorem writeInterfaces_eq : ∀ (ts : List Item) (w : EncBuf),
    writeInterfaces ts w = w.append (flatAll ts)
  | [], w => by rw [writeInterfaces, flatAll, append_empty]
  | t :: ts, w => by
    rw [writeInterfaces, flatAll, writeInterface_eq t w, writeInterfaces_eq ts, append_assoc]

end

/-! ## Interleaving string data and headers -/

/-- The string data from `strpos` on with the headers put in at their offsets. -/
def splice (str : Bytes) : List ListHead → Nat → Bytes
  | [], strpos => str.drop strpos
  | head :: heads, strpos =>
    (str.take head.offset).drop strpos ++ (head.encode ++ splice str heads head.offset)

/-- The offsets of the headers are ascending and lie between `strpos` and the end of the data. -/
def HeadsOk (len : Nat) : List ListHead → Nat → Prop
  | [], strpos => strpos ≤ len
  | head :: heads, strpos => strpos ≤ head.offset ∧ HeadsOk len heads head.offset

variable {len : Nat}

theorem HeadsOk.le : ∀ {heads : List ListHead} {strpos : Nat},
    HeadsOk len heads strpos → strpos ≤ len
  | [], _, h => h
  | _ :: _, _, h => Nat.le_trans h.1 h.2.le

theorem HeadsOk.shift (k len : Nat) : ∀ {heads : List ListHead} {strpos : Nat},
    HeadsOk len heads strpos → HeadsOk (k + len) (heads.map (ListHead.shift k)) (k + strpos)
  | [], _, h => Nat.add_le_add_left h k
  | _ :: _, _, h => ⟨Nat.add_le_add_left h.1 k, HeadsOk.shift k len h.2⟩

theorem HeadsOk.mono {heads : List ListHead} {p q : Nat} (hpq : q ≤ p)
    (h : HeadsOk len heads p) : HeadsOk len heads q := by
  cases heads with
  | nil => exact Nat.le_trans hpq h
  | cons head heads => exact ⟨Nat.le_trans hpq h.1, h.2⟩

theorem HeadsOk.append {k : Nat} {more : List ListHead} (hmore : HeadsOk k more 0) :
    ∀ {heads : List ListHead} {strpos : Nat}, HeadsOk len heads strpos →
      HeadsOk (len + k) (heads ++ more.map (ListHead.shift len)) strpos
  | [], _, h => (HeadsOk.shift len k hmore).mono h
  | _ :: _, _, h => ⟨h.1, HeadsOk.append hmore h.2⟩

theorem splice_shift (s1 s2 : Bytes) : ∀ (heads : List ListHead) (strpos : Nat),
    splice (s1 ++ s2) (heads.map (ListHead.shift s1.length)) (s1.length + strpos) =
      splice s2 heads strpos
  | [], strpos => by simp [splice, drop_append]
  | head :: heads, strpos => by
    simp only [map_cons, splice, ListHead.shift_offset, ListHead.shift_encode,
      splice_shift s1 s2 heads head.offset]
    congr 1
    rw [take_append, take_of_length_le (by omega), Nat.add_sub_cancel_left,
      drop_append, drop_of_length_le (by omega), Nat.add_sub_cancel_left,
      nil_append]

theorem splice_append (s1 s2 : Bytes) (more : List ListHead) :
    ∀ (heads : List ListHead) (strpos : Nat), HeadsOk s1.length heads strpos →
      splice (s1 ++ s2) (heads ++ more.map (ListHead.shift s1.length)) strpos =
        splice s1 heads strpos ++ splice s2 more 0
  | [], strpos, h => by
    cases more with
    | nil =>
      simp only [map_nil, append_nil, splice, drop_zero]
      rw [List.drop_append_of_le_length h]
    | cons head more =>
      simp only [map_cons, nil_append, splice, ListHead.shift_offset,
        ListHead.shift_encode, splice_shift, drop_zero]
      rw [take_append, take_of_length_le (by omega), Nat.add_sub_cancel_left,
        List.drop_append_of_le_length h, List.append_assoc]
  | head :: heads, strpos, h => by
    have hlen : head.offset ≤ s1.length := h.2.le
    simp only [cons_append, splice, splice_append s1 s2 more heads head.offset h.2,
      List.append_assoc]
    rw [take_append_of_le_length hlen]

theorem copyAt_eq (out data : Bytes) (pos : Nat) (h : pos + data.length ≤ out.length) :
    copyAt out pos data = (out.take pos ++ data ++ out.drop (pos + data.length), data.length) := by
  have hmin : min data.length (out.length - pos) = data.length := by omega
  simp [copyAt, hmin]

theorem length_copyAt (out data : Bytes) (pos : Nat) (h : pos + data.length ≤ out.length) :
    (copyAt out pos data).1.length = out.length := by
  rw [copyAt_eq out data pos h]
  simp only [length_append, length_take, length_drop]
  omega

theorem take_copyAt (out data : Bytes) (pos : Nat) (h : pos + data.length ≤ out.length) :
    (copyAt out pos data).1.take (pos + data.length) = out.take pos ++ data := by
  rw [copyAt_eq out data pos h, take_left']
  simp only [length_append, length_take]
  omega

theorem toBytesLoop_eq (str : Bytes) : ∀ (heads : List ListHead) (out : Bytes) (strpos pos : Nat),
    HeadsOk str.length heads strpos → out.length = pos + (splice str heads strpos).length →
      toBytesLoop str heads out strpos pos = some (out.take pos ++ splice str heads strpos)
  | [], out, strpos, pos, _, hlen => by
    simp only [splice] at hlen ⊢
    rw [toBytesLoop, copyAt_eq _ _ _ (by omega), ← hlen, drop_length, append_nil]
  | head :: heads, out, strpos, pos, hok, hlen => by
    have hoff : head.offset ≤ str.length := hok.2.le
    have hdata : ((str.take head.offset).drop strpos).length = head.offset - strpos := by
      rw [length_drop, length_take, Nat.min_eq_left hoff]
    have hstrpos : strpos + (head.offset - strpos) = head.offset := by have := hok.1; omega
    simp only [splice, length_append, hdata] at hlen
    have hfit : pos + ((str.take head.offset).drop strpos).length ≤ out.length := by
      rw [hdata]; omega
    have hlen1 := length_copyAt out _ pos hfit
    have htake1 := take_copyAt out _ pos hfit
    rw [toBytesLoop]
    simp only [copyAt_eq _ _ _ hfit] at hlen1 htake1 ⊢
    rw [hdata] at hlen1 htake1 ⊢
    have hfit2 : pos + (head.offset - strpos) + head.encode.length ≤
        (out.take pos ++ (str.take head.offset).drop strpos ++
          out.drop (pos + (head.offset - strpos))).length := by
      rw [hlen1]; omega
    rw [if_pos hfit2, hstrpos, toBytesLoop_eq str heads _ _ _ hok.2
      (by rw [length_copyAt _ _ _ hfit2, hlen1]; omega), take_copyAt _ _ _ hfit2, htake1]
    simp [splice]

/-- The buffer `u` interleaves to the `u.size` bytes `b`. -/
structure Renders (u : EncBuf) (b : Bytes) : Prop where
  heads : HeadsOk u.str.length u.lheads 0
  splice_eq : splice u.str u.lheads 0 = b
  size_eq : u.size = b.length

theorem Renders.ofStr (b : Bytes) : Renders ⟨b, [], 0⟩ b :=
  ⟨Nat.zero_le _, rfl, rfl⟩

variable {u : EncBuf} {b : Bytes}

theorem Renders.append {w : EncBuf} {c : Bytes} (hw : Renders w b) (hu : Renders u c) :
    Renders (w.append u) (b ++ c) := by
  refine ⟨?_, ?_, ?_⟩
  · rw [append_str, length_append]
    exact HeadsOk.append hu.heads hw.heads
  · rw [← hw.splice_eq, ← hu.splice_eq]
    exact splice_append w.str u.str u.lheads w.lheads 0 hw.heads
  · rw [append_size, hw.size_eq, hu.size_eq, length_append]

theorem Renders.wrap (h : Renders u b) (hlen : b.length < 2 ^ 64) :
    Renders u.wrap (header 0xC0 0xF7 b.length ++ b) := by
  refine ⟨⟨Nat.zero_le _, h.heads⟩, ?_, ?_⟩
  · simp [EncBuf.wrap, splice, ListHead.encode, h.splice_eq, h.size_eq, puthead_eq _ _ hlen]
  · rw [wrap_size, h.size_eq, headsize_eq 0xC0 0xF7 hlen, length_append, Nat.add_comm]

theorem Renders.toBytes (h : Renders u b) (hlen : b.length < 2 ^ 63) : u.toBytes = some b := by
  unfold EncBuf.toBytes
  rw [if_pos (by rw [h.size_eq]; exact hlen), toBytesLoop_eq _ _ _ _ _ h.heads, h.splice_eq]
  · simp
  · rw [length_replicate, h.splice_eq, h.size_eq, Nat.zero_add]

/-! ## Items -/

theorem encodeString_size (b : Bytes) : b.length ≤ (empty.encodeString b).size := by
  unfold encodeString
  split
  · split <;> simp [write, encodeStringHeader, size, empty]
  · simp only [write, size, length_append]
    omega

theorem encodeString_empty (h : b.length < 2 ^ 64) :
    empty.encodeString b = ⟨encodeStr b, [], 0⟩ := by
  unfold EncBuf.encodeString
  split
  · next x =>
    rw [encodeStr_singleton]
    split
    · rfl
    · rw [write_eq, encodeStringHeader_eq, empty_append, puthead_eq _ _ (by decide)]
      simp [append]
  · next b hb =>
    rw [write_eq, encodeStringHeader_eq, empty_append, puthead_eq _ _ h,
      encodeStr_of_ne (fun x hx => absurd hx (hb x))]
    simp [append]

mutual

theorem renders_flat : ∀ (t : Item), (flat t).size < 2 ^ 63 ∨ t.encode.length < 2 ^ 63 →
    Renders (flat t) t.encode
  | .str b, h => by
    have hb : b.length < 2 ^ 64 := by
      rcases h with h | h
      · have := encodeString_size b
        rw [flat] at h
        omega
      · rw [Item.encode_str] at h
        have := le_length_encodeStr b
        omega
    rw [flat, Item.encode_str, encodeString_empty hb]
    exact .ofStr _
  | .list items, h => by
    have hp : (flatAll items).size < 2 ^ 63 ∨ (encodeAll items).length < 2 ^ 63 := by
      rcases h with h | h
      · rw [flat, wrap_size] at h
        exact .inl (by omega)
      · rw [Item.encode_list, length_append] at h
        exact .inr (by omega)
    have hr := renders_flatAll items hp
    have hsize := hr.size_eq
    exact hr.wrap (by omega)

theorem renders_flatAll : ∀ (ts : List Item),
    (flatAll ts).size < 2 ^ 63 ∨ (encodeAll ts).length < 2 ^ 63 →
      Renders (flatAll ts) (encodeAll ts)
  | [], _ => by
    exact .ofStr []
  | t :: ts, h => by
    rw [flatAll, append_size, encodeAll_cons, length_append] at h
    have ht := renders_flat t (by omega)
    have hts := renders_flatAll ts (by omega)
    exact ht.append hts

end

theorem toBytes_flat_iff (t : Item) (b : Bytes) :
    (flat t).toBytes = some b ↔ t.encode = b ∧ b.length < 2 ^ 63 := by
  constructor
  · intro h
    have hsize : (flat t).size < 2 ^ 63 := by
      unfold EncBuf.toBytes at h
      split at h
      · assumption
      · cases h
    have hr := renders_flat t (.inl hsize)
    rw [hr.toBytes (by rw [← hr.size_eq]; exact hsize), Option.some.injEq] at h
    exact ⟨h, by rw [← h, ← hr.size_eq]; exact hsize⟩
  · rintro ⟨rfl, hlen⟩
    exact (renders_flat t (.inr hlen)).toBytes hlen

end EncBuf

/-! ## Typed values -/

mutual

/-- The item a typed value stands for. -/
def GoVal.item : GoType → GoVal → Item
  | .bool, .bool b => .str (if b then [0x01] else [])
  | .uint _, .uint n => .str (beBytes n)
  | .string, .str b => .str b
  | .slice _, .str b => .str b
  | .array _ _, .str b => .str b
  | .slice t, .list vs => .list (vs.map (GoVal.item t))
  | .array _ t, .list vs => .list (vs.map (GoVal.item t))
  | .struct fs, .list vs => .list (itemFields fs vs)
  | .iface, .iface t => t
  | _, _ => .str []

/-- The items of the fields of a struct. -/
def itemFields : Fields → List GoVal → List Item
  | .cons _ t fs, v :: vs => GoVal.item t v :: itemFields fs vs
  | _, _ => []

end

namespace EncBuf

theorem encodeStr_beBytes {n : Nat} (h : ¬ n < 128) (hn : n < 2 ^ 64) :
    encodeStr (beBytes n) = (0x80 + byte (putint n).length) :: putint n := by
  have hp := putint_eq (by omega) hn
  have hlen := putint_length_le n
  rw [← hp, encodeStr_of_ne]
  · unfold header byte
    rw [if_pos (by omega)]
    rfl
  · intro x hx hle
    have hb := beNat_putint hn
    rw [hx] at hb
    simp only [beNat, foldl_cons, foldl_nil] at hb
    have : x.toNat ≤ 127 := hle
    omega

theorem flat_str (b : Bytes) (h : b.length < 2 ^ 64) : flat (.str b) = ⟨encodeStr b, [], 0⟩ := by
  rw [flat, encodeString_empty h]

theorem writeUint_eq (n : Nat) (hn : n < 2 ^ 64) (w : EncBuf) :
    writeUint n w = w.append (flat (.str (beBytes n))) := by
  have hlen : (beBytes n).length < 2 ^ 64 := by
    have := (length_beBytes_le_iff n 8).mpr (by omega)
    omega
  rw [flat_str _ hlen]
  unfold writeUint
  split_ifs with h0 h
  · subst h0
    rw [write_eq, beBytes_zero]
    rfl
  · rw [write_eq, ← putint_eq (by omega) hn]
    have : putint n = [byte n] := by unfold putint; rw [if_pos (by omega)]
    rw [this, encodeStr_singleton, if_pos]
    show (byte n).toNat ≤ 127
    rw [byte_toNat]
    omega
  · rw [write_eq, encodeStr_beBytes h hn]

theorem writeBool_eq (b : Bool) (w : EncBuf) :
    writeBool b w = w.append (flat (.str (if b then [0x01] else []))) := by
  rw [flat_str _ (by cases b <;> simp)]
  cases b <;> simp [writeBool, write_eq, encodeStr, header]

theorem foldl_writer_eq {t : GoType}
    (ih : ∀ (v : GoVal) (w : EncBuf), v.HasType t → writer t v w = w.append (flat (v.item t))) :
    ∀ (vs : List GoVal) (w : EncBuf), (∀ v ∈ vs, v.HasType t) →
      vs.foldl (fun w v => writer t v w) w = w.append (flatAll (vs.map (GoVal.item t)))
  | [], w, _ => by simp [flatAll]
  | v :: vs, w, h => by
    rw [foldl_cons, ih v w (h v mem_cons_self), map_cons, flatAll,
      foldl_writer_eq ih vs _ (fun x hx => h x (mem_cons_of_mem _ hx)), append_assoc]

mutual

theorem writer_eq : ∀ (t : GoType) (v : GoVal) (w : EncBuf), v.HasType t →
    writer t v w = w.append (flat (v.item t))
  | .bool, v, w, h => by
    obtain ⟨b, rfl⟩ := h
    rw [writer, GoVal.item, writeBool_eq]
  | .uint k, v, w, h => by
    obtain ⟨n, rfl, hn⟩ := h
    have : n < 2 ^ 64 := by
      cases k <;> simp only [UintKind.bits] at hn <;> omega
    rw [writer, GoVal.item, writeUint_eq n this]
  | .string, v, w, h => by
    obtain ⟨b, rfl⟩ := h
    rw [writer, GoVal.item, flat, encodeString_eq]
  | .slice t, v, w, h => by
    rw [GoVal.HasType] at h
    split at h
    · obtain ⟨b, rfl⟩ := h
      rw [writer, GoVal.item, flat, encodeString_eq]
    · obtain ⟨vs, rfl, hvs⟩ := h
      rw [writer, GoVal.item, flat]
      show (vs.foldl _ w.list.2).listEnd w.list.1 = _
      rw [foldl_writer_eq (fun v w hv => writer_eq t v w hv) vs _ hvs, listEnd_append]
  | .array n t, v, w, h => by
    rw [GoVal.HasType] at h
    split at h
    · obtain ⟨b, rfl, -⟩ := h
      rw [writer, GoVal.item, flat, encodeString_eq]
    · obtain ⟨vs, rfl, -, hvs⟩ := h
      rw [writer, GoVal.item, flat]
      show (vs.foldl _ w.list.2).listEnd w.list.1 = _
      rw [foldl_writer_eq (fun v w hv => writer_eq t v w hv) vs _ hvs, listEnd_append]
  | .struct fs, v, w, h => by
    obtain ⟨vs, rfl, hvs⟩ := h
    rw [writer, GoVal.item, flat]
    show (writeFields fs vs w.list.2).listEnd w.list.1 = _
    rw [writeFields_eq fs vs _ hvs, listEnd_append]
  | .iface, v, w, h => by
    obtain ⟨t, rfl⟩ := h
    rw [writer, GoVal.item, writeInterface_eq]

theorem writeFields_eq : ∀ (fs : Fields) (vs : List GoVal) (w : EncBuf), HaveTypes vs fs →
    writeFields fs vs w = w.append (flatAll (itemFields fs vs))
  | .nil, vs, w, h => by
    rw [writeFields, itemFields, flatAll, append_empty]
    all_goals simp
  | .cons name t fs, vs, w, h => by
    obtain ⟨v, vs, rfl, hv, hvs⟩ := h
    rw [writeFields, itemFields, flatAll, writer_eq t v w hv, writeFields_eq fs vs _ hvs,
      append_assoc]

end

end EncBuf

theorem encodeToBytes_eq_some_iff {t : GoType} {v : GoVal} (h : v.HasType t) (b : Bytes) :
    encodeToBytes t v = some b ↔ (v.item t).encode = b ∧ b.length < 2 ^ 63 := by
  unfold encodeToBytes
  rw [EncBuf.writer_eq t v _ h, EncBuf.empty_append]
  exact EncBuf.toBytes_flat_iff _ b

end Geth.Rlp
