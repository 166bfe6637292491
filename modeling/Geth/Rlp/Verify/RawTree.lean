import Geth.Rlp.Verify.Canonical
import Geth.Rlp.Verify.Raw

/-!
# Parsing with the raw functions

`parse` takes a whole tree apart with `Split`, `SplitString`, `SplitList` and `CountValues`. It
accepts the encodings of items and nothing else, as the decoder of streams does.
-/

namespace Geth.Rlp

open Lib List Option

/-! ## What `Split` accepts -/

variable {b r c : Bytes} {n : Nat} {k : Kind}

theorem readSize_sound {slen s : Nat} (h : readSize b slen = .ok s) (hpos : 0 < slen) :
    56 ≤ s ∧ (beBytes s).length = slen ∧ b = beBytes s ++ b.drop slen := by
  unfold readSize at h
  split at h
  · cases h
  · next hlen =>
    dsimp only at h
    split at h
    · cases h
    · next hcanon =>
      rw [not_or] at hcanon
      cases h
      have hhead : (b.take slen).head? ≠ some 0 := by
        rw [List.head?_take, if_neg (Nat.ne_of_gt hpos)]
        exact hcanon.2
      rw [beBytes_beNat hhead, length_take, take_append_drop]
      exact ⟨by omega, by omega, rfl⟩

theorem header_of_small {b base : UInt8} (large : UInt8) (h : base.toNat ≤ b.toNat)
    (hlt : b.toNat < base.toNat + 56) : header base large (b - base).toNat = [b] := by
  rw [tag_sub b base h, header, if_pos (by omega), ← eq_tag b base h]

theorem header_of_large {b large : UInt8} (base : UInt8) {rest : Bytes} (h : large.toNat < b.toNat)
    (hsize : readSize rest (b - large).toNat = .ok n) :
    b :: rest = header base large n ++ rest.drop (b - large).toNat ∧
      (header base large n).length = (b - large).toNat + 1 := by
  have hsub := tag_sub b large (Nat.le_of_lt h)
  obtain ⟨hn, hlen, hrest⟩ := readSize_sound hsize (by omega)
  have hhead : header base large n = b :: beBytes n := by
    rw [header, if_neg (by omega), hlen, hsub, ← eq_tag b large (Nat.le_of_lt h)]
  rw [hhead, length_cons, hlen, cons_append, ← hrest]
  exact ⟨rfl, rfl⟩

/-- What `readKind` accepts: a byte, or a header with as many bytes behind it. -/
inductive Heads : Bytes → Kind → Nat → Nat → Prop
  | byte {x : UInt8} {r : Bytes} (h : x ≤ 0x7F) : Heads (x :: r) .byte 0 1
  | string {c r : Bytes} (h : ∀ x, c = [x] → ¬ x ≤ 0x7F) :
    Heads (header 0x80 0xB7 c.length ++ (c ++ r)) .string (header 0x80 0xB7 c.length).length
      c.length
  | list {c r : Bytes} :
    Heads (header 0xC0 0xF7 c.length ++ (c ++ r)) .list (header 0xC0 0xF7 c.length).length c.length

theorem heads_string (hn : n ≤ r.length) (hone : n = 1 → ¬ r.head?.any (· < 128) = true) :
    Heads (header 0x80 0xB7 n ++ r) .string (header 0x80 0xB7 n).length n := by
  have hlen : (r.take n).length = n := by
    rw [length_take]
    omega
  have h : ∀ x, r.take n = [x] → ¬ x ≤ 0x7F := by
    intro x hx hle
    rw [hx, length_singleton] at hlen
    refine hone hlen.symm ?_
    cases r with
    | nil => rw [take_nil] at hx; cases hx
    | cons y r =>
      rw [← hlen, take_succ_cons, take_zero] at hx
      cases hx
      exact decide_eq_true (lt_128_iff.2 hle)
  have := Heads.string (r := r.drop n) h
  rwa [hlen, take_append_drop] at this

theorem heads_list (hn : n ≤ r.length) :
    Heads (header 0xC0 0xF7 n ++ r) .list (header 0xC0 0xF7 n).length n := by
  have hlen : (r.take n).length = n := by
    rw [length_take]
    omega
  have := Heads.list (c := r.take n) (r := r.drop n)
  rwa [hlen, take_append_drop] at this

theorem map_ok {α β : Type} {f : α → β} {x : Except Err α} {y : β} (h : x.map f = .ok y) :
    ∃ a, x = .ok a ∧ f a = y := by
  cases x with
  | error e => cases h
  | ok a => exact ⟨a, rfl, Except.ok.inj h⟩

theorem readKindTag_heads {b : UInt8} {rest : Bytes} {ts cs : Nat}
    (h : readKindTag b rest = .ok (k, ts, cs)) (hfit : cs ≤ rest.length + 1 - ts) :
    Heads (b :: rest) k ts cs := by
  have hB7 : (0xB7 : UInt8).toNat = 183 := rfl
  have hF7 : (0xF7 : UInt8).toNat = 247 := rfl
  have h80 : (0x80 : UInt8).toNat = 128 := rfl
  have hB8 : (0xB8 : UInt8).toNat = 184 := rfl
  have hC0 : (0xC0 : UInt8).toNat = 192 := rfl
  have hF8 : (0xF8 : UInt8).toNat = 248 := rfl
  unfold readKindTag at h
  simp only [UInt8.lt_iff_toNat_lt, h80, hB8, hC0, hF8] at h
  split at h
  · next hb =>
    cases h
    exact .byte (lt_128_iff.1 (UInt8.lt_iff_toNat_lt.2 hb))
  split at h
  · split at h
    · cases h
    · next hone =>
      cases h
      have hhead : header 0x80 0xB7 (b - 0x80).toNat = [b] :=
        header_of_small 0xB7 (by omega) (by omega)
      have hheads := heads_string hfit fun h1 hany => hone ⟨h1, hany⟩
      rwa [hhead] at hheads
  split at h
  · obtain ⟨n, hsize, heq⟩ := map_ok h
    cases heq
    obtain ⟨hbuf, hlen⟩ := header_of_large 0x80 (by omega) hsize
    obtain ⟨hn, -, -⟩ := readSize_sound hsize (by rw [tag_sub b _ (by omega)]; omega)
    rw [hbuf, ← hlen]
    refine heads_string ?_ (by omega)
    rw [length_drop]
    omega
  split at h
  · cases h
    have hhead : header 0xC0 0xF7 (b - 0xC0).toNat = [b] :=
      header_of_small 0xF7 (by omega) (by omega)
    have hheads := heads_list hfit
    rwa [hhead] at hheads
  · obtain ⟨n, hsize, heq⟩ := map_ok h
    cases heq
    obtain ⟨hbuf, hlen⟩ := header_of_large 0xC0 (by omega) hsize
    rw [hbuf, ← hlen]
    refine heads_list ?_
    rw [length_drop]
    omega

theorem readKind_heads {buf : Bytes} {ts cs : Nat} (h : readKind buf = .ok (k, ts, cs)) :
    Heads buf k ts cs := by
  unfold readKind at h
  split at h
  · cases h
  · next b rest =>
    split at h
    · cases h
    · next htag =>
      split at h
      · cases h
      · next hfit =>
        cases h
        exact readKindTag_heads htag (Nat.not_lt.1 hfit)

theorem split_sound (h : split b = .ok (k, c, r)) : (k ≠ .list ∧ b = (Item.str c).encode ++ r) ∨
      (k = .list ∧ b = header 0xC0 0xF7 c.length ++ (c ++ r)) := by
  unfold split at h
  split at h
  · cases h
  · next hkind =>
    cases h
    cases readKind_heads hkind with
    | byte hx =>
      refine .inl ⟨nofun, ?_⟩
      rw [Item.encode_str]
      simp [encodeStr_singleton, hx]
    | @string c r hne =>
      refine .inl ⟨nofun, ?_⟩
      rw [drop_left, take_left, ← drop_drop, drop_left, drop_left,
        Item.encode_str, encodeStr_of_ne hne, append_assoc]
    | @list c r =>
      refine .inr ⟨rfl, ?_⟩
      rw [drop_left, take_left, ← drop_drop, drop_left, drop_left]

theorem splitString_sound (h : splitString b = .ok (c, r)) : b = (Item.str c).encode ++ r := by
  unfold splitString at h
  split at h
  · cases h
  · next k c r hs =>
    split at h
    · cases h
    · next hk =>
      cases h
      rcases split_sound hs with ⟨-, hb⟩ | ⟨hlist, -⟩
      · exact hb
      · exact absurd hlist hk

theorem splitList_sound (h : splitList b = .ok (c, r)) :
    b = header 0xC0 0xF7 c.length ++ (c ++ r) := by
  unfold splitList at h
  split at h
  · cases h
  · next k c r hs =>
    split at h
    · cases h
    · next hk =>
      cases h
      rcases split_sound hs with ⟨hne, -⟩ | ⟨-, hb⟩
      · exact absurd hne hk
      · exact hb

/-! ## The parser -/

/-- So many values, and nothing behind them. -/
def parseValues (parse : Bytes → Option (Item × Bytes)) : Nat → Bytes → Option (List Item)
  | 0, b => if b.length = 0 then some [] else none
  | n + 1, b => do
    let (t, rest) ← parse b
    let ts ← parseValues parse n rest
    some (t :: ts)

/-- The tree at the front of the input, and the rest: the kind is that of `Split`, a list has as
many values as `CountValues` says. A value is shorter than the list around it, so the length of the
input bounds the recursion. -/
def parseValue : Nat → Bytes → Option (Item × Bytes)
  | 0, _ => none
  | fuel + 1, b =>
    match split b with
    | .error _ => none
    | .ok (.list, _, _) =>
      match splitList b with
      | .error _ => none
      | .ok (content, rest) =>
        match countValues content with
        | .error _ => none
        | .ok n => (parseValues (parseValue fuel) n content).map fun ts => (.list ts, rest)
    | .ok _ =>
      match splitString b with
      | .error _ => none
      | .ok (content, rest) => some (.str content, rest)

/-- The tree that the whole input encodes. -/
def parse (b : Bytes) : Option Item :=
  match parseValue (b.length + 1) b with
  | some (t, []) => some t
  | _ => none

theorem parseValues_sound {p : Bytes → Option (Item × Bytes)}
    (hp : ∀ {b t r}, p b = some (t, r) → b = t.encode ++ r) (n : Nat) :
    ∀ {b : Bytes} {ts : List Item}, parseValues p n b = some ts → b = encodeAll ts := by
  induction n with
  | zero =>
    intro b ts h
    rw [parseValues] at h
    split at h
    · next hnil =>
      cases h
      exact length_eq_zero_iff.1 hnil
    · cases h
  | succ n ih =>
    intro b ts h
    obtain ⟨⟨t, rest⟩, ht, h⟩ := bind_eq_some_iff.1 h
    obtain ⟨ts', hts, h⟩ := bind_eq_some_iff.1 h
    cases h
    rw [hp ht, ih hts, encodeAll_cons]

theorem parseValue_sound (fuel : Nat) : ∀ {b : Bytes} {t : Item} {r : Bytes},
    parseValue fuel b = some (t, r) → b = t.encode ++ r := by
  induction fuel with
  | zero => exact nofun
  | succ fuel ih =>
    intro b t r h
    rw [parseValue] at h
    split at h
    · cases h
    · split at h
      · cases h
      · next hlist =>
        split at h
        · cases h
        · obtain ⟨ts, hts, heq⟩ := map_eq_some_iff.1 h
          cases heq
          rw [splitList_sound hlist, parseValues_sound (fun hp => ih hp) _ hts, Item.encode_list,
            append_assoc]
    · split at h
      · cases h
      · next hstr =>
        cases h
        exact splitString_sound hstr

theorem parseValues_encodeAll {p : Bytes → Option (Item × Bytes)} {ts : List Item}
    (hp : ∀ t ∈ ts, ∀ r, p (t.encode ++ r) = some (t, r)) :
    parseValues p ts.length (encodeAll ts) = some ts := by
  induction ts with
  | nil => rfl
  | cons t ts ih =>
    rw [encodeAll_cons, length_cons, parseValues, hp t mem_cons_self]
    have hts := ih fun u hu => hp u (mem_cons_of_mem t hu)
    change (parseValues p ts.length (encodeAll ts)).bind _ = _
    rw [hts]
    rfl

theorem split_str (hc : c.length < 2 ^ 64) (r : Bytes) :
    ∃ k, k ≠ Kind.list ∧ split ((Item.str c).encode ++ r) = .ok (k, c, r) := by
  by_cases hx : ∃ x, c = [x] ∧ x ≤ 0x7F
  · obtain ⟨x, rfl, hle⟩ := hx
    exact ⟨.byte, nofun, split_byte hle r⟩
  · exact ⟨.string, nofun, split_string hc (fun x h hle => hx ⟨x, h, hle⟩) r⟩

theorem parseValue_encode (fuel : Nat) : ∀ (t : Item) (r : Bytes), t.encode.length < fuel →
    t.encode.length < 2 ^ 64 → parseValue fuel (t.encode ++ r) = some (t, r) := by
  induction fuel with
  | zero => exact fun t r h => absurd h (Nat.not_lt_zero _)
  | succ fuel ih =>
    intro t r hfuel hlen
    rw [parseValue]
    cases t with
    | str c =>
      have hc : c.length < 2 ^ 64 := by
        exact Nat.lt_of_le_of_lt (le_length_encodeStr c) hlen
      obtain ⟨k, hk, hsplit⟩ := split_str hc r
      rw [hsplit, splitString_str hc]
      cases k with
      | list => exact absurd rfl hk
      | byte => rfl
      | string => rfl
    | list ts =>
      have hall := length_encodeAll_lt ts
      rw [split_list (by omega), splitList_list (by omega)]
      dsimp only
      rw [countValues_encodeAll (by omega)]
      dsimp only
      have hts : ∀ t ∈ ts, ∀ r, parseValue fuel (t.encode ++ r) = some (t, r) := by
        intro t ht r
        have := length_encode_le_encodeAll ht
        exact ih t r (by omega) (by omega)
      rw [parseValues_encodeAll hts]
      rfl

theorem parse_eq_some_iff (hb : b.length < 2 ^ 64) (t : Item) :
    parse b = some t ↔ t.encode = b := by
  rw [parse]
  constructor
  · intro h
    split at h
    · next hp =>
      cases h
      rw [parseValue_sound _ hp, append_nil]
    · cases h
  · rintro rfl
    have h := parseValue_encode (t.encode.length + 1) t [] (Nat.lt_succ_self _) hb
    rw [append_nil] at h
    rw [h]

/-! ## The two decoders agree -/

/-- Parsing with the raw functions and decoding into `interface{}` accept the same byte slices
(whose length is an `int`) and return the same tree. -/
theorem parse_eq_decodeBytes (b : Bytes) (hb : b.length < 2 ^ 63) (fuel : Nat)
    (hfuel : b.length + 1 < fuel) :
    (∀ t, parse b = some t ↔ decodeBytes fuel .iface b = some (.ok (.iface t))) ∧
    (parse b = none ↔ ∃ err, decodeBytes fuel .iface b = some (.error err)) := by
  have hok : ∀ t, parse b = some t ↔ decodeBytes fuel .iface b = some (.ok (.iface t)) := by
    intro t
    rw [parse_eq_some_iff (by omega), decodeBytes_iface_ok_iff hb hfuel]
    constructor
    · exact fun h => ⟨t, rfl, h⟩
    · rintro ⟨u, hu, henc⟩
      cases hu
      exact henc
  refine ⟨hok, ?_⟩
  obtain ⟨res, hres⟩ := Option.isSome_iff_exists.1 (decodeBytes_iface_isSome hb hfuel)
  cases res with
  | error err =>
    refine iff_of_true ?_ ⟨err, hres⟩
    by_contra hne
    obtain ⟨t, ht⟩ := Option.ne_none_iff_exists'.1 hne
    rw [(hok t).1 ht] at hres
    cases hres
  | ok v =>
    obtain ⟨t, rfl, -⟩ := (decodeBytes_iface_ok_iff hb hfuel v).1 hres
    refine iff_of_false ?_ ?_
    · rw [(hok t).2 hres]
      nofun
    · rintro ⟨err, herr⟩
      rw [hres] at herr
      cases herr

/-- A list of two strings, and the same with a size that is not canonical. -/
theorem parse_eq_decodeBytes_pair : (decodeBytes 6 .iface [0xC3, 0x01, 0x81, 0x80] =
      some (.ok (.iface (.list [.str [1], .str [0x80]])))) ∧
    ∃ err, decodeBytes 6 .iface [0xC3, 0x01, 0x81, 0x01] = some (.error err) :=
  ⟨((parse_eq_decodeBytes [0xC3, 0x01, 0x81, 0x80] (by decide) 6 (by decide)).1 _).1 rfl,
    (parse_eq_decodeBytes [0xC3, 0x01, 0x81, 0x01] (by decide) 6 (by decide)).2.1 rfl⟩

end Geth.Rlp
