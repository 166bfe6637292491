import Geth.Rlp.Verify.Reads

/-!
# What decoders accept

Whatever a decoder returns a value for is the encoding of one item: the converse of `Reads`, for
every Go type. A decoder may leave `Kind` unarmed in one way only, with a zero byte cached
(`Stale`); the next decoder then takes that byte for its value and reads nothing.
-/

namespace Geth.Rlp

open Lib List

variable {α β : Type}

/-- The kind of a zero byte that has been read is still cached. -/
def Stale (s : Stream) (r : Bytes) (st : List ListPos) : Prop :=
  Peeked s .byte 0 0 r st

/-- The states in which a decoder is called and leaves the stream when it succeeds. -/
def Ready (s : Stream) (r : Bytes) (st : List ListPos) : Prop :=
  Fresh s r st ∨ Stale s r st

variable {s : Stream} {r : Bytes} {st : List ListPos} {e : Err} {typ : GoType} {n : Nat}
  {bv : UInt8} {dec : Stream → Run α}

theorem Ready.pos (h : Ready s r st) :
    Pos s r st := by
  rcases h with h | h
  · exact h.toPos
  · exact h.toPos

theorem Fresh.not_stale {r' : Bytes} {st' : List ListPos} (h : Fresh s r st) :
    ¬ Stale s r' st' := by
  intro h'
  have := h'.kind
  rw [h.kind] at this
  cases this

/-- A decoder accepts the encoding of one item, and nothing when a stale byte is cached. -/
structure Accepts (dec : Stream → Run α) : Prop where
  fresh : ∀ {s r st v s'}, Fresh s r st → TopOk r st → dec s = some (.ok v, s') →
    ∃ (it : Item) (r' : Bytes), r = it.encode ++ r' ∧ Fits it.encode.length r st ∧
      Ready s' r' (bump it.encode.length st)
  stale : ∀ {s r st v s'}, Stale s r st → TopOk r st → dec s = some (.ok v, s') → Ready s' r st
  eol : ∀ {s r st s'}, Ready s r st → TopOk r st → dec s = some (.error .eol, s') →
    ¬ NotAtEnd st ∧ Fresh s' r st

/-- A decoder that starts with a call of `Kind`. -/
structure KindFirst (dec : Stream → Run α) : Prop where
  err : ∀ {s e s₁}, s.getKind = (.error e, s₁) →
    ∃ e', dec s = some (.error e', s₁) ∧ (e' = .eol ↔ e = .eol)
  kind : ∀ {s k n bv r st s₁}, s.getKind = (.ok (k, n), s₁) → Peeked s₁ k n bv r st → dec s = dec s₁

/-- A run that does not fail with `EOL`, and leaves a stream with `P` if it succeeds. -/
inductive Ends (P : Stream → Prop) : Run α → Prop
  | none : Ends P none
  | err {e : Err} {s : Stream} (h : e ≠ .eol) : Ends P (some (.error e, s))
  | ok {v : α} {s : Stream} (h : P s) : Ends P (some (.ok v, s))

/-- The rest of the encoding of one item has been read, `n` bytes behind its header. -/
def Took (hdr : Bytes) (n : Nat) (r : Bytes) (st : List ListPos) (s : Stream) : Prop :=
  ∃ it body r', Item.encode it = hdr ++ body ∧ r = body ++ r' ∧ body.length = n ∧
    Ready s r' (bump n st)

/-- Behind the header of a value, a decoder accepts the rest of the encoding of one item. -/
def AcceptsBody (dec : Stream → Run α) : Prop :=
  ∀ ⦃k n bv hdr s r st⦄, Header k n bv hdr → Peeked s k n bv r st → Fits n r st →
    Ends (Took hdr n r st) (dec s)

theorem KindFirst.endsAtEol (h : KindFirst dec) : EndsAtEol dec := by
  intro s r tos st hs he
  obtain ⟨s', hk, hs'⟩ := getKind_atEnd hs he
  obtain ⟨e', hd, hiff⟩ := h.err hk
  rw [hiff.mpr rfl] at hd
  exact ⟨s', hd, hs'⟩

theorem fits_zero (r : Bytes) (st : List ListPos) : Fits 0 r st := by
  cases st with
  | nil => exact Nat.zero_le _
  | cons => exact ⟨Nat.zero_le _, Nat.zero_le _⟩

theorem bump_zero (st : List ListPos) : bump 0 st = st := by
  cases st <;> rfl

theorem AcceptsBody.accepts (hb : AcceptsBody dec) (hk : KindFirst dec) : Accepts dec where
  fresh := by
    intro s r st v s' hs ht hd
    rcases getKind_inv hs ht with ⟨k, n, bv, hdr, r1, s₁, hh, rfl, hf, hg, hp⟩ |
      ⟨-, s₁, hg, -⟩ | ⟨e, s₁, hg, -⟩
    · have htook := hb hh hp (hf.drop rfl)
      rw [← hk.kind hg hp, hd] at htook
      cases htook with
      | ok htook =>
      obtain ⟨it, body, r', hit, rfl, hlen, hr⟩ := htook
      refine ⟨it, r', by rw [hit, append_assoc], ?_, ?_⟩
      · rw [hit, length_append, hlen]
        exact hf
      · rw [hit, length_append, ← bump_bump, hlen]
        exact hr
    all_goals
      obtain ⟨e', hd', -⟩ := hk.err hg
      cases hd.symm.trans hd'
  stale := by
    intro s r st v s' hs _ hd
    have htook := hb (.byte 0 (by decide)) hs (fits_zero r st)
    rw [hd] at htook
    cases htook with
    | ok htook =>
    obtain ⟨it, body, r', -, rfl, hlen, hr⟩ := htook
    rw [length_eq_zero_iff.mp hlen, nil_append]
    rwa [bump_zero] at hr
  eol := by
    intro s r st s' hs ht hd
    rcases hs with hs | hs
    · rcases getKind_inv hs ht with ⟨k, n, bv, hdr, r1, s₁, hh, rfl, hf, hg, hp⟩ |
        ⟨hne, s₁, hg, hs1⟩ | ⟨e, s₁, hg, hne⟩
      · have htook := hb hh hp (hf.drop rfl)
        rw [← hk.kind hg hp, hd] at htook
        cases htook with
        | err h => exact absurd rfl h
      · obtain ⟨e', hd', -⟩ := hk.err hg
        cases hd.symm.trans hd'
        exact ⟨hne, hs1⟩
      · obtain ⟨e', hd', hiff⟩ := hk.err hg
        cases hd.symm.trans hd'
        exact absurd (hiff.mp rfl) hne
    · have htook := hb (.byte 0 (by decide)) hs (fits_zero r st)
      rw [hd] at htook
      cases htook with
      | err h => exact absurd rfl h

/-- Nothing has been read before `Kind` fails, and the body of an item behind its header. -/
structure Proper (dec : Stream → Run α) : Prop where
  first : KindFirst dec
  body : AcceptsBody dec

theorem Proper.accepts (h : Proper dec) : Accepts dec :=
  h.body.accepts h.first

/-! ## Wrapping results and errors -/

@[simp] theorem wrapStreamError_eq_eol : wrapStreamError e typ = .eol ↔ e = .eol := by
  cases e <;> simp [wrapStreamError]

/-- Another result of the same run: neither is a new `EOL`, nor has one gone. -/
inductive Post : Run α → Run β → Prop
  | none : Post none none
  | err {e e' : Err} {s : Stream} (h : e' = .eol ↔ e = .eol) :
    Post (some (.error e, s)) (some (.error e', s))
  | ok {v : α} {v' : β} {s : Stream} : Post (some (.ok v, s)) (some (.ok v', s))
  | reject {v : α} {e : Err} {s : Stream} (h : e ≠ .eol) :
    Post (some (.ok v, s)) (some (.error e, s))

theorem Proper.post {f : Run α → Run β} (h : Proper dec)
    (hf : ∀ run, Post run (f run)) : Proper (fun s => f (dec s)) where
  first.err := by
    intro s e s₁ hg
    obtain ⟨e', hd, hiff⟩ := h.first.err hg
    have hpost := hf (dec s)
    rw [hd] at hpost ⊢
    generalize f _ = run at hpost ⊢
    cases hpost with
    | err h => exact ⟨_, rfl, h.trans hiff⟩
  first.kind := by
    intro s k n bv r st s₁ hg hp
    exact congrArg f (h.first.kind hg hp)
  body := by
    intro k n bv hdr s r st hh hp hfit
    have hends := h.body hh hp hfit
    have hpost := hf (dec s)
    dsimp only
    generalize f (dec s) = run at hpost ⊢
    generalize dec s = run0 at hends hpost
    cases hpost with
    | none => exact .none
    | err h =>
      cases hends with
      | err hne => exact .err (mt h.mp hne)
    | ok =>
      cases hends with
      | ok htook => exact .ok htook
    | reject h => exact .err h

theorem Proper.map (h : Proper dec) (f : α → β) : Proper (fun s => (dec s).map f) :=
  h.post fun run => match run with
    | .none => .none
    | some (.error _, _) => .err Iff.rfl
    | some (.ok _, _) => .ok

theorem Proper.wrapped {op : Stream → Except Err α × Stream}
    (h : Proper (fun s => some (op s))) (typ : GoType) (f : α → β) :
    Proper (fun s => some (Rlp.wrapped typ f (op s))) :=
  h.post (f := Option.map (Rlp.wrapped typ f)) fun run => match run with
    | .none => .none
    | some (.error _, _) => .err wrapStreamError_eq_eol
    | some (.ok _, _) => .ok

/-! ## Strings and integers -/

theorem bytes_kindFirst : KindFirst (fun s => some s.bytes) where
  err := by
    intro s e s₁ hg
    exact ⟨e, by simp [Stream.bytes, hg], Iff.rfl⟩
  kind := by
    intro s k n bv r st s₁ hg hp
    simp [bytes_of_kind hg hp]

theorem Took.byte {s' : Stream} (hx : bv < 0x80) (hs : Ready s' r st) : Took [bv] 0 r st s' := by
  refine ⟨.str [bv], [], r, ?_, rfl, rfl, by rwa [bump_zero]⟩
  rw [Item.encode_str, encodeStr_singleton, if_pos (lt_128_iff.mp hx), append_nil]

theorem Took.string {s' : Stream} {b : Bytes} (hne : ∀ x, b = [x] → ¬ x ≤ 0x7F)
    (hs : Fresh s' r (bump b.length st)) :
    Took (header 0x80 0xB7 b.length) b.length (b ++ r) st s' :=
  ⟨.str b, b, r, by rw [Item.encode_str, encodeStr_of_ne hne], rfl, rfl, .inl hs⟩

theorem bytes_acceptsBody : AcceptsBody (fun s => some s.bytes) := by
  intro k n bv hdr s r st hh hp hf
  dsimp only
  cases hh with
  | byte _ hx =>
    obtain ⟨s₁, hb, hs1⟩ := bytes_peeked_byte hp
    rw [hb]
    exact .ok (.byte hx (.inl hs1))
  | string n hn =>
    rcases bytes_peeked_string_inv hp hf with ⟨b, r', rfl, rfl, hne⟩ | ⟨e, s₁, hb, hne⟩
    · obtain ⟨s₁, hb, hs1⟩ := bytes_peeked_string hp hf hne
      rw [hb]
      exact .ok (.string hne hs1)
    · rw [hb]
      exact .err hne
  | list n hn =>
    simp only [Stream.bytes, getKind_peeked hp]
    exact .err nofun

theorem bytes_proper : Proper (fun s => some s.bytes) := ⟨bytes_kindFirst, bytes_acceptsBody⟩

theorem uint_kindFirst (maxbits : Nat) : KindFirst (fun s => some (s.uint maxbits)) where
  err := by
    intro s e s₁ hg
    exact ⟨e, by simp [Stream.uint, hg], Iff.rfl⟩
  kind := by
    intro s k n bv r st s₁ hg hp
    simp [uint_of_kind hg hp]

theorem uint_peeked_byte (h : Peeked s .byte n bv r st) (hbv : bv ≠ 0) (maxbits : Nat) :
    ∃ s', s.uint maxbits = (.ok bv.toNat, s') ∧ Fresh s' r st := by
  unfold Stream.uint
  simp only [getKind_peeked h, h.byteval, if_neg hbv]
  exact ⟨_, rfl, ⟨h.r_eq, h.remaining, h.limited, h.stack⟩, rfl⟩

theorem uint_peeked_zero (h : Peeked s .byte n 0 r st) (maxbits : Nat) :
    s.uint maxbits = (.error .canonInt, s) := by
  unfold Stream.uint
  simp [getKind_peeked h, h.byteval]

theorem uint_peeked_string (h : Peeked s .string n bv r st) (maxbits : Nat) :
    s.uint maxbits = if n > maxbits / 8 then (.error .uintOverflow, s) else
      match s.readUint n with
      | (.error .canonSize, s) => (.error .canonInt, s)
      | (.error e, s) => (.error e, s)
      | (.ok v, s) => if n > 0 ∧ v < 128 then (.error .canonSize, s) else (.ok v, s) := by
  rw [Stream.uint]
  generalize hk : s.getKind = x
  obtain rfl := hk.symm.trans (getKind_peeked h)
  rfl

theorem uint_acceptsBody (maxbits : Nat) : AcceptsBody (fun s => some (s.uint maxbits)) := by
  intro k n bv hdr s r st hh hp hf
  dsimp only
  cases hh with
  | byte _ hx =>
    by_cases hbv : bv = 0
    · subst hbv
      rw [uint_peeked_zero hp]
      exact .err (by simp)
    · obtain ⟨s₁, hb, hs1⟩ := uint_peeked_byte hp hbv maxbits
      rw [hb]
      exact .ok (.byte hx (.inl hs1))
  | string n hn =>
    rw [uint_peeked_string hp]
    split
    · exact .err (by simp)
    rcases Nat.eq_zero_or_pos n with rfl | hpos
    · refine .ok (Took.string (b := []) (by rintro x ⟨⟩) ?_)
      rw [length_nil, bump_zero]
      exact ⟨⟨hp.r_eq, hp.remaining, hp.limited, hp.stack⟩, rfl⟩
    · rcases readUint_inv hp.toPos hpos with ⟨a, r', rfl, rfl, hfit, hz⟩ | ⟨e, s₁, he, hne⟩
      · rw [readUint_of_fits hp.toPos hfit hpos hz]
        dsimp only
        split
        · exact .err (by simp)
        · next hlarge =>
          refine .ok (.string ?_ (hp.toPos.moved r' _))
          rintro x rfl hle
          have := UInt8.lt_iff_toNat_lt.mp (lt_128_iff.mpr hle)
          exact hlarge ⟨hpos, by simpa [beNat] using this⟩
      · rw [he]
        split
        · exact .err (by simp)
        · next heq =>
          cases heq
          exact .err hne
        · next heq => cases heq
  | list n hn =>
    simp only [Stream.uint, getKind_peeked hp]
    exact .err (by simp)

theorem uint_proper (maxbits : Nat) : Proper (fun s => some (s.uint maxbits)) :=
  ⟨uint_kindFirst maxbits, uint_acceptsBody maxbits⟩

theorem bool_eq (s : Stream) : s.bool = match s.uint 8 with
      | (.error e, s) => (.error e, s)
      | (.ok n, s) => if n = 0 then (.ok false, s) else if n = 1 then (.ok true, s)
        else (.error (.invalidBool n), s) := by
  unfold Stream.bool
  rcases s.uint 8 with ⟨e | n, s₁⟩
  · rfl
  · match n with
    | 0 => rfl
    | 1 => rfl
    | n + 2 => rfl

theorem bool_proper : Proper (fun s => some s.bool) := by
  simp only [bool_eq]
  refine (uint_proper 8).post (f := Option.map fun run => match run with
    | (.error e, s) => (.error e, s)
    | (.ok n, s) => if n = 0 then (.ok false, s) else if n = 1 then (.ok true, s)
      else (.error (.invalidBool n), s)) fun run => ?_
  rcases run with _ | ⟨e | n, s⟩
  · exact .none
  · exact .err Iff.rfl
  · dsimp only [Option.map_some]
    split
    · exact .ok
    · split
      · exact .ok
      · exact .reject nofun

/-! ## Byte arrays -/

theorem decodeByteArray_kindFirst (typ : GoType) (vlen : Nat) :
    KindFirst (fun s => some (decodeByteArray typ vlen s)) where
  err := by
    intro s e s₁ hg
    exact ⟨e, by simp [decodeByteArray, hg], Iff.rfl⟩
  kind := by
    intro s k n bv r st s₁ hg hp
    simp only [decodeByteArray_of_kind hg hp typ vlen]

theorem decodeByteArray_peeked_zero (typ : GoType) (h : Stale s r st) :
    decodeByteArray typ 1 s = (.ok [0], s) := by
  simp only [decodeByteArray, getKind_peeked h, uint_peeked_zero h]
  rfl

theorem byte_toNat_eq (x : UInt8) : byte x.toNat = x := by
  simp [byte]

theorem decodeByteArray_peeked_byte (typ : GoType) (h : Peeked s .byte n bv r st) (hbv : bv ≠ 0) :
    ∃ s', decodeByteArray typ 1 s = (.ok [bv], s') ∧ Fresh s' r st := by
  obtain ⟨s', hu, hs'⟩ := uint_peeked_byte h hbv 64
  refine ⟨s', ?_, hs'⟩
  simp only [decodeByteArray, getKind_peeked h, hu, byte_toNat_eq]
  rfl

theorem decodeByteArray_peeked_string {b : Bytes} (typ : GoType)
    (h : Peeked s .string b.length bv (b ++ r) st) (hf : Fits b.length (b ++ r) st) :
    ∃ s', Fresh s' r (bump b.length st) ∧
      ((∀ x, b = [x] → ¬ x ≤ 0x7F) → decodeByteArray typ b.length s = (.ok b, s')) ∧
      (¬ (∀ x, b = [x] → ¬ x ≤ 0x7F) →
        decodeByteArray typ b.length s = (.error (wrapStreamError .canonSize typ), s')) := by
  refine ⟨s.moved r (bump b.length st), h.toPos.moved _ _, fun hne => ?_, fun hsmall => ?_⟩
  · simp only [decodeByteArray, getKind_peeked h, gt_iff_lt, Nat.lt_irrefl, if_false,
      readFull_of_fits h.toPos hf]
    split
    · next x => rw [if_neg (mt lt_128_iff.mp (hne x rfl))]
    · rfl
  · push Not at hsmall
    obtain ⟨x, rfl, hle⟩ := hsmall
    simp only [decodeByteArray, getKind_peeked h, gt_iff_lt, Nat.lt_irrefl, if_false,
      readFull_of_fits h.toPos hf, if_pos (lt_128_iff.mpr hle)]

theorem decodeByteArray_acceptsBody (typ : GoType) (vlen : Nat) :
    AcceptsBody (fun s => some (decodeByteArray typ vlen s)) := by
  intro k n bv hdr s r st hh hp hf
  dsimp only
  cases hh with
  | byte _ hx =>
    by_cases hlen : vlen = 1
    · subst hlen
      by_cases hbv : bv = 0
      · subst hbv
        rw [decodeByteArray_peeked_zero typ hp]
        exact .ok (.byte hx (.inr hp))
      · obtain ⟨s₁, hb, hs1⟩ := decodeByteArray_peeked_byte typ hp hbv
        rw [hb]
        exact .ok (.byte hx (.inl hs1))
    · simp only [decodeByteArray, getKind_peeked hp]
      by_cases h0 : vlen = 0
      · rw [if_pos h0]
        exact .err nofun
      · rw [if_neg h0, if_pos (by omega)]
        exact .err nofun
  | string n hn =>
    by_cases hlen : vlen = n
    · subst hlen
      obtain ⟨b, r', rfl, rfl⟩ : ∃ b r', r = b ++ r' ∧ vlen = b.length :=
        ⟨r.take vlen, r.drop vlen, (take_append_drop vlen r).symm, (length_take_of_le hf.le).symm⟩
      obtain ⟨s₁, hs1, hok, herr⟩ := decodeByteArray_peeked_string typ hp hf
      by_cases hne : ∀ x, b = [x] → ¬ x ≤ 0x7F
      · rw [hok hne]
        exact .ok (.string hne hs1)
      · rw [herr hne]
        exact .err nofun
    · simp only [decodeByteArray, getKind_peeked hp]
      by_cases hlt : vlen < n
      · rw [if_pos hlt]
        exact .err nofun
      · rw [if_neg hlt, if_pos (by omega)]
        exact .err nofun
  | list n hn =>
    simp only [decodeByteArray, getKind_peeked hp]
    exact .err nofun

/-! ## Runs of element decoders -/

theorem decodeSeq_accepts {ds : List (Stream → Run α)} (h : ∀ d ∈ ds, Accepts d) :
    ∀ {s : Stream} {r : Bytes} {st : List ListPos} {acc vs : List α} {s' : Stream},
      Ready s r st → TopOk r st → decodeSeq ds acc s = some (vs, s') →
      ∃ (its : List Item) (r' : Bytes), r = encodeAll its ++ r' ∧
        Ready s' r' (bump (encodeAll its).length st) ∧ its.length ≤ ds.length ∧
        (Stale s r st → ds ≠ [] → its.length < ds.length) := by
  induction ds with
  | nil =>
    intro s r st acc vs s' hs _ hd
    obtain ⟨-, rfl⟩ := hd
    refine ⟨[], r, by simp, ?_, by simp, fun _ hne => absurd rfl hne⟩
    rw [encodeAll_nil, length_nil, bump_zero]
    exact hs
  | cons d ds ih =>
    intro s r st acc vs s' hs ht hd
    rw [decodeSeq] at hd
    rcases hds : d s with _ | ⟨e | v, s₁⟩
    · simp [hds] at hd
    · simp [hds] at hd
    simp only [hds] at hd
    rcases hs with hs | hs
    · obtain ⟨it, r1, rfl, -, hs1⟩ := (h d (by simp)).fresh hs ht hds
      obtain ⟨its, r', rfl, hs', hle, -⟩ := ih (fun x hx => h x (by simp [hx])) hs1 ht.bump hd
      refine ⟨it :: its, r', by simp, ?_, by simpa using hle, fun hst => absurd hst hs.not_stale⟩
      rw [encodeAll_cons, length_append, ← bump_bump]
      exact hs'
    · have hs1 := (h d (by simp)).stale hs ht hds
      obtain ⟨its, r', rfl, hs', hle, -⟩ := ih (fun x hx => h x (by simp [hx])) hs1 ht hd
      exact ⟨its, r', rfl, hs', by simp; omega, fun _ _ => by simp; omega⟩

theorem decodeSliceElems_accepts (h : Accepts dec) :
    ∀ (fuel : Nat) (acc : List α) {s : Stream} {r : Bytes} {st : List ListPos},
      Ready s r st → TopOk r st → Ends (fun s' => ∃ (its : List Item) (r' : Bytes),
        r = encodeAll its ++ r' ∧ Pos s' r' (bump (encodeAll its).length st))
        (decodeSliceElems dec fuel acc s) := by
  intro fuel
  induction fuel with
  | zero =>
    intro acc s r st _ _
    exact .none
  | succ fuel ih =>
    intro acc s r st hs ht
    rw [decodeSliceElems]
    rcases hds : dec s with _ | ⟨e | v, s₁⟩
    · exact .none
    · by_cases he : e = .eol
      · subst he
        obtain ⟨-, hs1⟩ := h.eol hs ht hds
        exact .ok ⟨[], r, by simp, by simpa [bump_zero] using hs1.toPos⟩
      · cases e <;> first | exact absurd rfl he | exact .err (by rintro ⟨⟩)
    · rcases hs with hs | hs
      · obtain ⟨it, r1, rfl, -, hs1⟩ := h.fresh hs ht hds
        have hends := ih (acc ++ [v]) hs1 ht.bump
        dsimp only
        generalize decodeSliceElems dec fuel (acc ++ [v]) s₁ = run at hends ⊢
        cases hends with
        | none => exact .none
        | err hne => exact .err hne
        | ok hpos =>
          obtain ⟨its, r', rfl, hs'⟩ := hpos
          refine .ok ⟨it :: its, r', by simp, ?_⟩
          rw [encodeAll_cons, length_append, ← bump_bump]
          exact hs'
      · exact ih _ (h.stale hs ht hds) ht

theorem decodeArrayElems_ends (typ : GoType) (dec : Stream → Run α) (n : Nat) :
    ∀ (acc : List α) (s : Stream), Ends (fun s' => ∃ vs,
      decodeArrayElems typ dec n acc s = some (.ok vs, s')) (decodeArrayElems typ dec n acc s) := by
  induction n with
  | zero => exact fun _ _ => .ok ⟨_, rfl⟩
  | succ n ih =>
    intro acc s
    rw [decodeArrayElems]
    rcases dec s with _ | ⟨e | v, s₁⟩
    · exact .none
    · cases e <;> exact .err (by rintro ⟨⟩)
    · exact ih _ _

theorem decodeFields_ends (typ : GoType) (dec : GoType → Stream → Run GoVal) :
    ∀ (fs : Fields) (acc : List GoVal) (s : Stream), Ends (fun s' => ∃ vs,
      decodeFields typ dec fs acc s = some (.ok vs, s')) (decodeFields typ dec fs acc s)
  | .nil, acc, s => .ok ⟨_, rfl⟩
  | .cons name t fs, acc, s => by
    rw [decodeFields]
    rcases dec t s with _ | ⟨e | v, s₁⟩
    · exact .none
    · cases e <;> exact .err (by rintro ⟨⟩)
    · exact decodeFields_ends typ dec fs _ _

/-! ## List containers -/

theorem list_of_err {s₁ : Stream} (h : s.getKind = (.error e, s₁)) : s.list = (.error e, s₁) := by
  unfold Stream.list
  rw [h]

theorem list_peeked_inv {k : Kind} {hdr : Bytes} (hh : Header k n bv hdr)
    (hp : Peeked s k n bv r st) :
    (hdr = header 0xC0 0xF7 n ∧ ∃ s₁, s.list = (.ok n, s₁) ∧ Fresh s₁ r (⟨0, n⟩ :: st)) ∨
      s.list = (.error .expectedList, s) := by
  cases hh with
  | byte =>
    right
    unfold Stream.list
    rw [getKind_peeked hp]
  | string =>
    right
    unfold Stream.list
    rw [getKind_peeked hp]
  | list => exact .inl ⟨rfl, list_peeked hp⟩

theorem listEnd_ends {its : List Item} {f : Except Err Unit × Stream → Except Err α × Stream}
    (hs : Pos s r (bump (encodeAll its).length (⟨0, n⟩ :: st)))
    (hf : ∀ x, Post (some x) (some (f x))) :
    Ends (Took (header 0xC0 0xF7 n) n (encodeAll its ++ r) st) (some (f s.listEnd)) := by
  rw [bump_cons, Nat.zero_add] at hs
  have hpost := hf s.listEnd
  by_cases hn : (encodeAll its).length = n
  · obtain ⟨s₁, he, hs1⟩ := listEnd_atEnd hs hn
    have htook : Took (header 0xC0 0xF7 n) n (encodeAll its ++ r) st s₁ :=
      ⟨.list its, encodeAll its, r, by rw [Item.encode_list, hn], rfl, hn, .inl hs1⟩
    rw [he] at hpost ⊢
    generalize f _ = run at hpost ⊢
    cases hpost with
    | ok => exact .ok htook
    | reject h => exact .err h
  · rw [listEnd_notAtEnd hs hn] at hpost ⊢
    generalize f _ = run at hpost ⊢
    cases hpost with
    | err h => exact .err (mt h.mp nofun)

section Containers

variable {dec : Stream → Run α}

theorem decodeListSlice_kindFirst (typ : GoType) (fuel : Nat) :
    KindFirst (decodeListSlice typ dec fuel) where
  err := by
    intro s e s₁ hg
    refine ⟨wrapStreamError e typ, ?_, wrapStreamError_eq_eol⟩
    simp [decodeListSlice, list_of_err hg]
  kind := by
    intro s k n bv r st s₁ hg hp
    simp [decodeListSlice, list_of_kind hg hp]

theorem decodeListArray_kindFirst (typ : GoType) (vlen : Nat) :
    KindFirst (decodeListArray typ dec vlen) where
  err := by
    intro s e s₁ hg
    refine ⟨wrapStreamError e typ, ?_, wrapStreamError_eq_eol⟩
    simp [decodeListArray, list_of_err hg]
  kind := by
    intro s k n bv r st s₁ hg hp
    simp [decodeListArray, list_of_kind hg hp]

theorem decodeStruct_kindFirst (fs : Fields) (dec : GoType → Stream → Run GoVal) :
    KindFirst (decodeStruct fs dec) where
  err := by
    intro s e s₁ hg
    refine ⟨wrapStreamError e (.struct fs), ?_, wrapStreamError_eq_eol⟩
    simp [decodeStruct, list_of_err hg]
  kind := by
    intro s k n bv r st s₁ hg hp
    simp [decodeStruct, list_of_kind hg hp]

/-- `ListEnd` after the elements `vs`. -/
theorem decodeListSlice_end (its : List Item) {vs : List α}
    (hs : Pos s r (bump (encodeAll its).length (⟨0, n⟩ :: st))) :
    Ends (Took (header 0xC0 0xF7 n) n (encodeAll its ++ r) st) (match s.listEnd with
      | (.error e, s) => some (.error e, s)
      | (.ok _, s) => some (.ok vs, s)) := by
  convert listEnd_ends hs (f := fun x => (x.1.map fun _ => vs, x.2)) ?_ using 1
  · rcases s.listEnd with ⟨_ | _, _⟩ <;> rfl
  · rintro ⟨_ | _, _⟩
    · exact .err Iff.rfl
    · exact .ok

theorem decodeListSlice_acceptsBody (h : Accepts dec) (typ : GoType) (fuel : Nat) :
    AcceptsBody (decodeListSlice typ dec fuel) := by
  intro k n bv hdr s r st hh hp hf
  rcases list_peeked_inv hh hp with ⟨rfl, s₁, hl, hs1⟩ | hl
  · have ht : TopOk r (⟨0, n⟩ :: st) := hf.le
    simp only [decodeListSlice, hl]
    split
    · -- An empty list is closed at once.
      exact decodeListSlice_end [] (by simpa [bump_zero] using hs1.toPos)
    · have hends := decodeSliceElems_accepts h fuel [] (.inl hs1) ht
      generalize decodeSliceElems dec fuel [] s₁ = run at hends ⊢
      cases hends with
      | none => exact .none
      | err hne => exact .err hne
      | ok hpos =>
        obtain ⟨its, r', rfl, hs2⟩ := hpos
        exact decodeListSlice_end its hs2
  · simp only [decodeListSlice, hl]
    exact .err (by simp)

/-- The common end of arrays and structs: a run of decoders, then `ListEnd`. -/
theorem decodeSeq_listEnd {ds : List (Stream → Run α)} (h : ∀ d ∈ ds, Accepts d) {typ : GoType}
    {s₁ s2 : Stream} {n : Nat} {r : Bytes} {st : List ListPos} {vs : List α}
    (hs1 : Fresh s₁ r (⟨0, n⟩ :: st)) (hf : Fits n r st)
    (hds : decodeSeq ds [] s₁ = some (vs, s2)) :
    Ends (Took (header 0xC0 0xF7 n) n r st) (some (wrapped typ (fun _ => vs) s2.listEnd)) := by
  obtain ⟨its, r', rfl, hs2, -, -⟩ := decodeSeq_accepts h (.inl hs1) hf.le hds
  refine listEnd_ends hs2.pos ?_
  rintro ⟨_ | _, _⟩
  · exact .err wrapStreamError_eq_eol
  · exact .ok

theorem decodeListArray_acceptsBody (h : Accepts dec) (typ : GoType) (vlen : Nat) :
    AcceptsBody (decodeListArray typ dec vlen) := by
  intro k n bv hdr s r st hh hp hf
  rcases list_peeked_inv hh hp with ⟨rfl, s₁, hl, hs1⟩ | hl
  · simp only [decodeListArray, hl]
    have hends := decodeArrayElems_ends typ dec vlen [] s₁
    rcases hds : decodeArrayElems typ dec vlen [] s₁ with _ | ⟨e | vs, s2⟩
    · exact .none
    · rw [hds] at hends
      cases hends with
      | err hne => exact .err hne
    · exact decodeSeq_listEnd (fun d hd => by rwa [eq_of_mem_replicate hd]) hs1 hf
        (decodeArrayElems_ok_iff.mp hds)
  · simp only [decodeListArray, hl]
    exact .err (by simp)

theorem accepts_decoders {dec : GoType → Stream → Run GoVal} (h : ∀ t, Accepts (dec t)) :
    ∀ (fs : Fields), ∀ d ∈ fs.decoders dec, Accepts d
  | .nil, d, hd => by simp [Fields.decoders] at hd
  | .cons name t fs, d, hd => by
    rcases mem_cons.mp hd with rfl | hd
    · exact h t
    · exact accepts_decoders h fs d hd

theorem decodeStruct_acceptsBody {dec : GoType → Stream → Run GoVal} (h : ∀ t, Accepts (dec t))
    (fs : Fields) : AcceptsBody (decodeStruct fs dec) := by
  intro k n bv hdr s r st hh hp hf
  rcases list_peeked_inv hh hp with ⟨rfl, s₁, hl, hs1⟩ | hl
  · simp only [decodeStruct, hl]
    have hends := decodeFields_ends (.struct fs) dec fs [] s₁
    rcases hds : decodeFields (.struct fs) dec fs [] s₁ with _ | ⟨e | vs, s2⟩
    · exact .none
    · rw [hds] at hends
      cases hends with
      | err hne => exact .err hne
    · exact decodeSeq_listEnd (accepts_decoders h fs) hs1 hf ((decodeFields_ok_iff fs).mp hds)
  · simp only [decodeStruct, hl]
    exact .err (by simp)

end Containers

/-! ## The decoders -/

theorem decodeInterface_kindFirst (fuel : Nat) : KindFirst (decodeInterface (fuel + 1)) where
  err := by
    intro s e s₁ hg
    exact ⟨e, by simp [decodeInterface, hg], Iff.rfl⟩
  kind := by
    intro s k n bv r st s₁ hg hp
    simp [decodeInterface, hg, getKind_peeked hp]

theorem decodeInterface_acceptsBody {fuel : Nat} (h : Accepts (decodeInterface fuel)) :
    AcceptsBody (decodeInterface (fuel + 1)) := by
  intro k n bv hdr s r st hh hp hf
  rw [decodeInterface, getKind_peeked hp]
  have hstr := (bytes_proper.map Item.str).body hh hp hf
  have hlist := (Proper.map ⟨decodeListSlice_kindFirst (.slice .iface) fuel,
    decodeListSlice_acceptsBody h _ fuel⟩ Item.list).body hh hp hf
  cases k with
  | list => exact hlist
  | byte | string =>
    dsimp only at hstr ⊢
    generalize s.bytes = x at hstr ⊢
    rcases x with ⟨_ | _, _⟩ <;> exact hstr

theorem accepts_none : Accepts (fun _ => (none : Run α)) := ⟨nofun, nofun, nofun⟩

theorem decodeInterface_accepts (fuel : Nat) : Accepts (decodeInterface fuel) := by
  induction fuel with
  | zero => exact accepts_none
  | succ fuel ih => exact (decodeInterface_acceptsBody ih).accepts (decodeInterface_kindFirst fuel)

/-- Every decoder starts with `Kind`, if there is fuel for `decodeInterface` to do so. -/
theorem decoder_proper {fuel : Nat} (h : ∀ t, Accepts (decoder fuel t)) (t : GoType)
    (ht : t = .iface → fuel ≠ 0) : Proper (decoder (fuel + 1) t) := by
  cases t with
  | bool => exact bool_proper.wrapped _ _
  | uint k => exact (uint_proper k.bits).wrapped _ _
  | string => exact bytes_proper.wrapped _ _
  | slice t =>
    by_cases hb : t.isByte = true
    · simp only [decoder, hb, if_true]
      exact bytes_proper.wrapped _ _
    · simp only [decoder, hb]
      exact Proper.map ⟨decodeListSlice_kindFirst _ _, decodeListSlice_acceptsBody (h t) _ _⟩ _
  | array n t =>
    by_cases hb : t.isByte = true
    · simp only [decoder, hb, if_true]
      exact Proper.map ⟨decodeByteArray_kindFirst _ _, decodeByteArray_acceptsBody _ _⟩ _
    · simp only [decoder, hb]
      exact Proper.map ⟨decodeListArray_kindFirst _ _, decodeListArray_acceptsBody (h t) _ _⟩ _
  | struct fs => exact Proper.map ⟨decodeStruct_kindFirst _ _, decodeStruct_acceptsBody h fs⟩ _
  | iface =>
    obtain ⟨fuel, rfl⟩ := Nat.exists_eq_succ_of_ne_zero (ht rfl)
    exact Proper.map ⟨decodeInterface_kindFirst fuel,
      decodeInterface_acceptsBody (decodeInterface_accepts fuel)⟩ _

theorem decoder_accepts (fuel : Nat) : ∀ t, Accepts (decoder fuel t) := by
  induction fuel with
  | zero => exact fun t => accepts_none
  | succ fuel ih =>
    intro t
    by_cases ht : t = .iface → fuel ≠ 0
    · exact (decoder_proper ih t ht).accepts
    · push Not at ht
      obtain ⟨rfl, rfl⟩ := ht
      exact accepts_none

theorem decoder_kindFirst (fuel : Nat) (t : GoType) : KindFirst (decoder (fuel + 2) t) :=
  (decoder_proper (decoder_accepts _) t fun _ => Nat.succ_ne_zero fuel).first

end Geth.Rlp
