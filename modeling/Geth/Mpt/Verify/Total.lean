import Geth.Mpt.Proof
import Geth.Mpt.Verify.Encoding
import Geth.Rlp.Verify.RawTree

/-!
# Decoding arbitrary bytes

An embedded node is shorter than the node around it, so `decodeNode` always returns. It panics where
it comes to a short node with an empty compact key, and nowhere else.
-/

namespace Geth.Mpt

open Lib Rlp Function List

/-! ## The recursion -/

theorem length_lt_of_splitList {b c r : Bytes} (h : splitList b = .ok (c, r)) :
    c.length < b.length := by
  have hpos := header_length_pos 0xC0 0xF7 c.length
  rw [splitList_sound h, length_append, length_append]
  omega

theorem length_le_of_splitString {b c r : Bytes} (h : splitString b = .ok (c, r)) :
    r.length ≤ b.length := by
  rw [splitString_sound h, length_append]
  omega

theorem length_le_of_split {b c r : Bytes} {k : Kind} (h : split b = .ok (k, c, r)) :
    r.length ≤ b.length := by
  rcases split_sound h with ⟨-, hb⟩ | ⟨-, hb⟩
  · rw [hb, length_append]
    omega
  · rw [hb, length_append, length_append]
    omega

section Congr

variable {d d' : Bytes → Except NodeErr LiveNode} {len : Nat}
  (hd : ∀ b : Bytes, b.length ≤ len → d b = d' b)

include hd

theorem decodeRef_congr {buf : Bytes} (hb : buf.length ≤ len) :
    decodeRef d buf = decodeRef d' buf := by
  unfold decodeRef
  rw [hd buf hb]

omit hd in
theorem length_le_of_decodeRef {buf rest : Bytes} {n : LiveNode}
    (h : decodeRef d buf = .ok (n, rest)) : rest.length ≤ buf.length := by
  unfold decodeRef at h
  split at h
  · cases h
  · next hs =>
    split at h
    · cases h
    · split at h
      · cases h
      · cases h
        exact length_le_of_split hs
  · next hs =>
    split at h
    · cases h
      exact length_le_of_split hs
    · split at h
      · cases h
        exact length_le_of_split hs
      · cases h
  · cases h

theorem decodeChildren_congr (is : List (Fin 17)) :
    ∀ (cs : Fin 17 → LiveNode) {elems : Bytes}, elems.length ≤ len →
      decodeChildren d is cs elems = decodeChildren d' is cs elems := by
  induction is with
  | nil => exact fun _ _ _ => rfl
  | cons i is ih =>
    intro cs elems hlen
    rw [decodeChildren, decodeChildren, decodeRef_congr hd hlen]
    split
    · rfl
    · next hr =>
      exact ih _ (Nat.le_trans (length_le_of_decodeRef hr) hlen)

theorem decodeShort_congr {hash : Option Hash} {elems : Bytes} {gen : UInt16}
    (hlen : elems.length ≤ len) : decodeShort d hash elems gen = decodeShort d' hash elems gen := by
  unfold decodeShort
  split
  · rfl
  · next hk =>
    have hrest := Nat.le_trans (length_le_of_splitString hk) hlen
    rw [decodeRef_congr hd hrest]

theorem decodeFull_congr {hash : Option Hash} {elems : Bytes} {gen : UInt16}
    (hlen : elems.length ≤ len) : decodeFull d hash elems gen = decodeFull d' hash elems gen := by
  unfold decodeFull
  rw [decodeChildren_congr hd _ _ hlen]

end Congr

/-- The count of values that `decodeNode` switches on. -/
def elements (elems : Bytes) : Nat :=
  match countValues elems with
  | .ok c => c
  | .error _ => 0

/-- One call of `decodeNode`, with the decoder for embedded nodes. -/
def decodeStep (gen : UInt16) (decode : Bytes → Except NodeErr LiveNode) (hash : Option Hash)
    (buf : Bytes) : Except NodeErr LiveNode :=
  if buf.length = 0 then .error .unexpectedEOF
  else
    match splitList buf with
    | .error err => .error (.decode err)
    | .ok (elems, _) =>
      if elements elems = 2 then wrapping "short" (decodeShort decode hash elems gen)
      else if elements elems = 17 then wrapping "full" (decodeFull decode hash elems gen)
      else .error (.elements (elements elems))

variable {d : Bytes → Except NodeErr LiveNode}

theorem decodeStep_congr {gen : UInt16} {d' : Bytes → Except NodeErr LiveNode}
    {hash : Option Hash} {buf : Bytes} (hd : ∀ b : Bytes, b.length < buf.length → d b = d' b) :
    decodeStep gen d hash buf = decodeStep gen d' hash buf := by
  unfold decodeStep
  split
  · rfl
  · split
    · rfl
    · next elems _ hl =>
      have hlt := length_lt_of_splitList hl
      have hd' : ∀ b : Bytes, b.length ≤ elems.length → d b = d' b :=
        fun b hb => hd b (Nat.lt_of_le_of_lt hb hlt)
      rw [decodeShort_congr hd' (Nat.le_refl _), decodeFull_congr hd' (Nat.le_refl _)]

theorem decodeNodeLoop_fuel (gen : UInt16) (fuel : Nat) :
    ∀ (fuel' : Nat) (hash : Option Hash) (buf : Bytes), buf.length < fuel → buf.length < fuel' →
      decodeNodeLoop gen fuel hash buf = decodeNodeLoop gen fuel' hash buf := by
  induction fuel with
  | zero => exact fun _ _ _ h => absurd h (Nat.not_lt_zero _)
  | succ fuel ih =>
    intro fuel' hash buf h h'
    obtain ⟨fuel', rfl⟩ := Nat.exists_eq_succ_of_ne_zero (Nat.ne_of_gt (Nat.zero_lt_of_lt h'))
    exact decodeStep_congr fun b hb => ih fuel' none b (by omega) (by omega)

theorem decodeNode_eq (hash : Option Hash) (buf : Bytes) (gen : UInt16) :
    decodeNode hash buf gen = decodeStep gen (fun b => decodeNode none b gen) hash buf := by
  exact decodeStep_congr fun b hb => decodeNodeLoop_fuel gen _ _ none b hb (Nat.lt_succ_self _)

/-! ## Empty keys -/

theorem compactToHex_eq_none {kbuf : Bytes} : compactToHex kbuf = none ↔ kbuf = [] := by
  cases kbuf with
  | nil => exact iff_of_true (by decide) rfl
  | cons b bs =>
    refine iff_of_false ?_ (by rintro ⟨⟩)
    have hpos : 0 < (keybytesToHex bs).length := length_pos_iff.2 (keybytesToHex_ne_nil bs)
    rw [compactToHex, keybytesToHex_cons]
    dsimp only
    rw [if_pos]
    · rintro ⟨⟩
    · split
      · rw [length_dropLast, length_cons, length_cons]
        omega
      · rw [length_cons, length_cons]
        omega

/-- The buffer starts with a list that is small enough to be an embedded node. -/
def Embeds (buf : Bytes) : Prop :=
  ∃ c r, split buf = .ok (.list, c, r) ∧ buf.length - r.length ≤ 32

/-- Decoding the buffer comes to a short node with an empty compact key: that of the node itself, of
its child, or of a child of a full node all of whose children before it are decoded. -/
inductive ReadsEmptyKey (gen : UInt16) : Bytes → Prop
  | here {buf elems tail rest : Bytes} (hl : splitList buf = .ok (elems, tail))
    (hc : countValues elems = .ok 2) (hk : splitString elems = .ok ([], rest)) :
    ReadsEmptyKey gen buf
  | short {buf elems tail kbuf rest : Bytes} {key : Hex} (hl : splitList buf = .ok (elems, tail))
    (hc : countValues elems = .ok 2) (hk : splitString elems = .ok (kbuf, rest))
    (hkey : compactToHex kbuf = some key) (hterm : hasTerm key = false) (he : Embeds rest)
    (h : ReadsEmptyKey gen rest) : ReadsEmptyKey gen buf
  | full {buf elems tail rest : Bytes} {pre post : List (Fin 17)} {i : Fin 17}
    {children : Fin 17 → LiveNode} (hl : splitList buf = .ok (elems, tail))
    (hc : countValues elems = .ok 17) (hi : childIndices = pre ++ i :: post)
    (hpre : decodeChildren (fun b => decodeNode none b gen) pre (fun _ => .nil) elems =
      .ok (children, rest)) (he : Embeds rest) (h : ReadsEmptyKey gen rest) : ReadsEmptyKey gen buf

/-! ## Walking through decoded nodes -/

/-- A node through which a walk along a key that ends in the terminator keeps to the key: behind a
terminator there is a value or nothing. -/
inductive Walks : LiveNode → Prop
  | nil : Walks .nil
  | value (v : Bytes) : Walks (.value v)
  | hash (h : Hash) : Walks (.hash h)
  | leaf {key : Hex} {v : Bytes} {flags : NodeFlag} : Walks (.short key (.value v) flags)
  | ext {key : Hex} {n : LiveNode} {flags : NodeFlag} (hkey : 16 ∉ key) (hn : Walks n) :
    Walks (.short key n flags)
  | full {children : Fin 17 → LiveNode} {flags : NodeFlag} (hc : ∀ i, Walks (children i))
    (hval : children 16 = .nil ∨ ∃ v, children 16 = .value v) : Walks (.full children flags)

/-- A terminated key is not used up, so `get` does not panic, and what is left at a hash is again
terminated. -/
theorem get_walks {n : LiveNode} (hn : Walks n) : ∀ {key : Hex}, Terminated 16 key → key ≠ [] →
    ∃ rest m, get n key = some (rest, m) ∧ ∀ h, m = .hash h → Terminated 16 rest ∧ rest ≠ [] := by
  induction hn with
  | nil => exact fun _ _ => ⟨_, _, rfl, nofun⟩
  | value v => exact fun _ _ => ⟨_, _, rfl, nofun⟩
  | hash h => exact fun hkey hne => ⟨_, _, rfl, fun _ _ => ⟨hkey, hne⟩⟩
  | leaf =>
    intro key _ _
    rw [get]
    split
    · exact ⟨_, _, rfl, nofun⟩
    · exact ⟨_, _, rfl, nofun⟩
  | @ext nkey n flags hnkey hn ih =>
    intro key hkey hne
    rw [get]
    split
    · exact ⟨_, _, rfl, nofun⟩
    · next hpre =>
      rw [not_or, not_not] at hpre
      have heq : key = nkey ++ key.drop nkey.length := by
        conv_lhs => rw [← take_append_drop nkey.length key, ← hpre.2]
      refine ih (Terminated.drop (heq ▸ hkey)) fun hnil => ?_
      rw [hnil, append_nil] at heq
      exact hnkey (heq ▸ hkey.mem hne)
  | @full children flags hc hval ih =>
    intro key hkey hne
    cases key with
    | nil => exact absurd rfl hne
    | cons k rest =>
      rw [get]
      by_cases hk : k = 16
      · subst hk
        rcases hval with hnil | ⟨v, hv⟩
        · rw [hnil]
          exact ⟨_, _, rfl, nofun⟩
        · rw [hv]
          exact ⟨_, _, rfl, nofun⟩
      · exact ih k hkey.tail fun hnil => hk (hkey.1.2 hnil)

theorem notMem_flatMap_nibbles (bs : Bytes) :
    (16 : Nibble) ∉ bs.flatMap fun b => [hiNibble b, loNibble b] := by
  intro h
  obtain ⟨b, -, hb⟩ := mem_flatMap.1 h
  rcases mem_cons.1 hb with h16 | hb
  · exact hiNibble_ne b h16.symm
  · exact loNibble_ne b (mem_singleton.1 hb).symm

theorem compactToHex_notMem {kbuf : Bytes} {key : Hex} (h : compactToHex kbuf = some key)
    (hterm : hasTerm key = false) : 16 ∉ key := by
  cases kbuf with
  | nil =>
    have : compactToHex [] = none := compactToHex_eq_none.2 rfl
    cases h
  | cons b bs =>
    have hbase : keybytesToHex (b :: bs) =
        (b :: bs).flatMap (fun b => [hiNibble b, loNibble b]) ++ [16] := rfl
    have hcons := keybytesToHex_cons b bs
    rw [compactToHex, hcons] at h
    dsimp only at h
    rw [← hcons, hbase] at h
    by_cases hflag : (hiNibble b).val < 2
    · rw [if_pos hflag, dropLast_concat] at h
      split at h
      · cases h
        exact fun hmem => notMem_flatMap_nibbles (b :: bs) (mem_of_mem_drop hmem)
      · cases h
    · rw [if_neg hflag] at h
      split at h
      · cases h
        have hlen : 2 - (hiNibble b).val % 2 ≤
            ((b :: bs).flatMap fun b => [hiNibble b, loNibble b]).length := by
          rw [flatMap_cons, length_append, length_cons]
          exact Nat.le_trans (Nat.sub_le _ _) (Nat.le_add_right _ _)
        rw [drop_append_of_le_length hlen, hasTerm, decide_eq_false_iff_not,
          List.getLast?_concat] at hterm
        exact absurd rfl hterm
      · cases h

/-! ## How decoding ends -/

/-- How decoding may end: with a value of which `W` holds, with an error, or, under `P`, with a
panic. -/
inductive Decoded {α : Type} (P : Prop) (W : α → Prop) : Except NodeErr α → Prop
  | ok {a : α} (h : W a) : Decoded P W (.ok a)
  | error {err : NodeErr} (hp : err ≠ .panic) (hf : err ≠ .outOfFuel) : Decoded P W (.error err)
  | panic (h : P) : Decoded P W (.error .panic)

theorem wrapError_ne {err f : NodeErr} {ctx : String} (hf : f = .panic ∨ f = .outOfFuel)
    (h : err ≠ f) : wrapError err ctx ≠ f := by
  rcases hf with rfl | rfl <;> cases err <;> simp_all [wrapError]

theorem Decoded.wrapping {α : Type} {P : Prop} {W : α → Prop} {x : Except NodeErr α} {ctx : String}
    (h : Decoded P W x) : Decoded P W (wrapping ctx x) := by
  cases h with
  | ok h => exact .ok h
  | error hp hf => exact .error (wrapError_ne (.inl rfl) hp) (wrapError_ne (.inr rfl) hf)
  | panic h => exact .panic h

section Decoded

variable {d : Bytes → Except NodeErr LiveNode} {gen : UInt16} {hash : Option Hash}
  {buf elems tail : Bytes}

theorem decodeRef_decoded (hd : Decoded (ReadsEmptyKey gen buf) Walks (d buf)) :
    Decoded (Embeds buf ∧ ReadsEmptyKey gen buf) (fun r => Walks r.1 ∧ r.2.length ≤ buf.length)
      (decodeRef d buf) := by
  unfold decodeRef
  split
  · exact .error nofun nofun
  · next c r hs =>
    split
    · exact .error nofun nofun
    · next hsize =>
      generalize d buf = x at hd
      cases hd with
      | ok h => exact .ok ⟨h, length_le_of_split hs⟩
      | error hp hf => exact .error hp hf
      | panic h => exact .panic ⟨⟨c, r, hs, Nat.not_lt.1 hsize⟩, h⟩
  · next hs =>
    split
    · exact .ok ⟨.nil, length_le_of_split hs⟩
    · split
      · exact .ok ⟨.hash _, length_le_of_split hs⟩
      · exact .error nofun nofun
  · exact .error nofun nofun

variable (hd : ∀ b : Bytes, b.length ≤ elems.length → Decoded (ReadsEmptyKey gen b) Walks (d b))

include hd

theorem decodeShort_decoded (hl : splitList buf = .ok (elems, tail))
    (hc : countValues elems = .ok 2) :
    Decoded (ReadsEmptyKey gen buf) Walks (decodeShort d hash elems gen) := by
  unfold decodeShort
  split
  · exact .error nofun nofun
  · next kbuf rest hk =>
    split
    · next hnone =>
      rw [compactToHex_eq_none] at hnone
      subst hnone
      exact .panic (.here hl hc hk)
    · next key hkey =>
      split
      · split
        · exact .error nofun nofun
        · exact .ok .leaf
      · next hterm =>
        rw [Bool.not_eq_true] at hterm
        have href := decodeRef_decoded (hd rest (length_le_of_splitString hk))
        generalize decodeRef d rest = x at href
        cases href with
        | ok h => exact .ok (.ext (compactToHex_notMem hkey hterm) h.1)
        | error hp hf => exact .error (wrapError_ne (.inl rfl) hp) (wrapError_ne (.inr rfl) hf)
        | panic h => exact .panic (.short hl hc hk hkey hterm h.1 h.2)

theorem decodeChildren_decoded (is : List (Fin 17)) (his : 16 ∉ is) :
    ∀ {cs : Fin 17 → LiveNode} {es : Bytes}, es.length ≤ elems.length → (∀ i, Walks (cs i)) →
      Decoded (∃ pre j post cs' rest, is = pre ++ j :: post ∧
          decodeChildren d pre cs es = .ok (cs', rest) ∧ Embeds rest ∧ ReadsEmptyKey gen rest)
        (fun r => (∀ i, Walks (r.1 i)) ∧ r.1 16 = cs 16) (decodeChildren d is cs es) := by
  induction is with
  | nil => exact fun _ hcs => .ok ⟨hcs, rfl⟩
  | cons i is ih =>
    intro cs es hlen hcs
    rw [mem_cons, not_or] at his
    have href := decodeRef_decoded (hd es hlen)
    rw [decodeChildren]
    cases hr : decodeRef d es with
    | error err =>
      rw [hr] at href
      cases href with
      | error hp hf => exact .error (wrapError_ne (.inl rfl) hp) (wrapError_ne (.inr rfl) hf)
      | panic h => exact .panic ⟨[], i, is, cs, es, rfl, rfl, h⟩
    | ok r =>
      rw [hr] at href
      obtain ⟨hcld, hle⟩ := href
      have hupd : ∀ j, Walks (update cs i r.1 j) := by
        intro j
        by_cases hj : j = i
        · subst hj
          rw [update_self]
          exact hcld
        · rw [update_of_ne hj]
          exact hcs j
      have htail := ih his.2 (Nat.le_trans hle hlen) hupd
      dsimp only
      generalize decodeChildren d is (update cs i r.1) r.2 = x at htail
      cases htail with
      | ok h => exact .ok ⟨h.1, h.2.trans (update_of_ne his.1 _ _)⟩
      | error hp hf => exact .error hp hf
      | panic h =>
        obtain ⟨pre, j, post, cs', rest, rfl, hpre, h⟩ := h
        refine .panic ⟨i :: pre, j, post, cs', rest, rfl, ?_, h⟩
        rw [decodeChildren, hr]
        exact hpre

theorem decodeFull_decoded (hl : splitList buf = .ok (elems, tail))
    (hc : countValues elems = .ok 17) (hdec : d = fun b => decodeNode none b gen) :
    Decoded (ReadsEmptyKey gen buf) Walks (decodeFull d hash elems gen) := by
  have hcs := decodeChildren_decoded hd childIndices (by decide) (Nat.le_refl _) fun _ => .nil
  unfold decodeFull
  generalize hr : decodeChildren d childIndices (fun _ => .nil) elems = x at hcs
  cases hcs with
  | error hp hf => exact .error hp hf
  | panic h =>
    obtain ⟨pre, j, post, cs', rest, hi, hpre, he, h⟩ := h
    exact .panic (.full hl hc hi (hdec ▸ hpre) he h)
  | @ok r h =>
    dsimp only
    split
    · exact .error nofun nofun
    · next val _ _ =>
      refine .ok ?_
      split
      · refine .full (fun i => ?_) (.inr ⟨val, update_self ..⟩)
        by_cases hi : i = 16
        · rw [hi, update_self]
          exact .value val
        · rw [update_of_ne hi]
          exact h.1 i
      · exact .full h.1 (.inl h.2)

end Decoded

theorem elements_eq_iff {elems : Bytes} {c : Nat} (hc : c ≠ 0) :
    elements elems = c ↔ countValues elems = .ok c := by
  unfold elements
  split
  · next h => rw [h, Except.ok.injEq]
  · next h =>
    rw [h]
    exact iff_of_false (fun h0 => hc h0.symm) nofun

/-- Decoding a node ends with a node that can be walked through, with an error, or at an empty
key with a panic. -/
theorem decodeNode_decoded (hash : Option Hash) (buf : Bytes) (gen : UInt16) :
    Decoded (ReadsEmptyKey gen buf) Walks (decodeNode hash buf gen) := by
  induction hn : buf.length using Nat.strong_induction_on generalizing hash buf with
  | _ len ih =>
    subst hn
    rw [decodeNode_eq, decodeStep]
    split
    · exact .error nofun nofun
    · split
      · exact .error nofun nofun
      · next elems tail hl =>
        have hlt := length_lt_of_splitList hl
        have hd : ∀ b : Bytes, b.length ≤ elems.length →
            Decoded (ReadsEmptyKey gen b) Walks (decodeNode none b gen) :=
          fun b hb => ih _ (Nat.lt_of_le_of_lt hb hlt) none b rfl
        split
        · next h2 =>
          exact (decodeShort_decoded hd hl ((elements_eq_iff (by decide)).1 h2)).wrapping
        · split
          · next h17 =>
            exact (decodeFull_decoded hd hl ((elements_eq_iff (by decide)).1 h17) rfl).wrapping
          · exact .error nofun nofun

theorem decodeRef_panic {buf : Bytes} (he : Embeds buf)
    (h : d buf = .error .panic) : decodeRef d buf = .error .panic := by
  obtain ⟨c, r, hs, hsize⟩ := he
  unfold decodeRef
  rw [hs]
  dsimp only
  rw [if_neg (Nat.not_lt.2 hsize), h]

theorem decodeChildren_panic {rest : Bytes}
    {post : List (Fin 17)} {i : Fin 17} {cs' : Fin 17 → LiveNode}
    (h : decodeRef d rest = .error .panic) (pre : List (Fin 17)) :
    ∀ {cs : Fin 17 → LiveNode} {elems : Bytes}, decodeChildren d pre cs elems = .ok (cs', rest) →
      decodeChildren d (pre ++ i :: post) cs elems = .error .panic := by
  induction pre with
  | nil =>
    intro cs elems hpre
    cases hpre
    rw [nil_append, decodeChildren, h]
    rfl
  | cons j pre ih =>
    intro cs elems hpre
    rw [decodeChildren] at hpre
    rw [cons_append, decodeChildren]
    cases hr : decodeRef d elems with
    | error err => rw [hr] at hpre; cases hpre
    | ok r =>
      rw [hr] at hpre
      exact ih hpre

theorem decodeNode_panic {gen : UInt16} {buf : Bytes} (h : ReadsEmptyKey gen buf) :
    ∀ hash, decodeNode hash buf gen = .error .panic := by
  let d := fun b => decodeNode none b gen
  have hstep {buf elems tail : Bytes} {c : Nat} {hash : Option Hash}
      (hl : splitList buf = .ok (elems, tail)) (hc : countValues elems = .ok c) (h0 : c ≠ 0) :
      decodeNode hash buf gen =
        if c = 2 then wrapping "short" (decodeShort d hash elems gen)
        else if c = 17 then wrapping "full" (decodeFull d hash elems gen)
        else .error (.elements c) := by
    have hlt := length_lt_of_splitList hl
    rw [decodeNode_eq, decodeStep, if_neg (by omega), hl]
    dsimp only
    rw [(elements_eq_iff h0).2 hc]
  induction h with
  | here hl hc hk =>
    intro hash
    rw [hstep hl hc (by decide), if_pos rfl, decodeShort, hk]
    rfl
  | short hl hc hk hkey hterm he _ ih =>
    intro hash
    have href := decodeRef_panic (d := d) he (ih none)
    rw [hstep hl hc (by decide), if_pos rfl, decodeShort, hk]
    dsimp only
    rw [hkey]
    dsimp only
    rw [hterm, if_neg Bool.false_ne_true, href]
    rfl
  | full hl hc hi hpre he _ ih =>
    intro hash
    have href := decodeRef_panic (d := d) he (ih none)
    rw [hstep hl hc (by decide), if_neg (by decide), if_pos rfl, decodeFull, hi,
      decodeChildren_panic href _ hpre]
    rfl

theorem decodeNode_panic_iff (hash : Option Hash) (buf : Bytes) (gen : UInt16) :
    decodeNode hash buf gen = .error .panic ↔ ReadsEmptyKey gen buf := by
  refine ⟨fun h => ?_, fun h => decodeNode_panic h hash⟩
  have hdec := decodeNode_decoded hash buf gen
  rw [h] at hdec
  cases hdec with
  | error hp _ => exact absurd rfl hp
  | panic h => exact h

theorem decodeNode_ne_outOfFuel (hash : Option Hash) (buf : Bytes) (gen : UInt16) :
    decodeNode hash buf gen ≠ .error .outOfFuel := by
  intro h
  have hdec := decodeNode_decoded hash buf gen
  rw [h] at hdec
  cases hdec with
  | error _ hf => exact hf rfl

theorem walks_decodeNode {hash : Option Hash} {buf : Bytes} {gen : UInt16} {n : LiveNode}
    (h : decodeNode hash buf gen = .ok n) : Walks n := by
  have hdec := decodeNode_decoded hash buf gen
  rw [h] at hdec
  cases hdec with
  | ok hn => exact hn

theorem verifyProofLoop_panic {proofDb : Hash → Option Bytes} (fuel : Nat) :
    ∀ {i : Nat} {wantHash : Hash} {key : Hex}, Terminated 16 key → key ≠ [] →
      verifyProofLoop proofDb fuel i wantHash key = .error .panic →
      ∃ hash buf, proofDb hash = some buf ∧ decodeNode (some hash) buf 0 = .error .panic := by
  induction fuel with
  | zero => exact fun _ _ h => nomatch h
  | succ fuel ih =>
    intro i wantHash key hkey hne h
    rw [verifyProofLoop] at h
    split at h
    · cases h
    · next buf hbuf =>
      split at h
      · next hdec => exact ⟨wantHash, buf, hbuf, hdec⟩
      · cases h
      · next n hdec =>
        obtain ⟨rest, m, hget, hrest⟩ := get_walks (walks_decodeNode hdec) hkey hne
        rw [hget] at h
        cases m with
        | nil => cases h
        | value v => cases h
        | hash hash =>
          obtain ⟨hterm, hne'⟩ := hrest hash rfl
          exact ih hterm hne' h
        | short key' val flags => exact ih hkey hne h
        | full children flags => exact ih hkey hne h

/-! ## Totality -/

/-- `decodeNode` always returns, a node or an error, unless it comes to an empty compact key; then
it panics. So `VerifyProof` panics only if the proof has a node with an empty compact key. -/
theorem decodeNode_total_iff (hash : Option Hash) (buf : Bytes) (gen : UInt16) :
    decodeNode hash buf gen ≠ .error .outOfFuel ∧
    (decodeNode hash buf gen ≠ .error .panic ↔ ¬ ReadsEmptyKey gen buf) ∧
    ∀ (fuel : Nat) (root : Hash) (key : Bytes) (proofDb : Hash → Option Bytes),
      (∀ h b, proofDb h = some b → ¬ ReadsEmptyKey 0 b) →
        verifyProof fuel root key proofDb ≠ .error .panic := by
  refine ⟨decodeNode_ne_outOfFuel hash buf gen, (decodeNode_panic_iff hash buf gen).not, ?_⟩
  intro fuel root key proofDb hdb h
  obtain ⟨h, b, hb, hpanic⟩ := verifyProofLoop_panic fuel (terminated_keybytesToHex key)
    (keybytesToHex_ne_nil key) h
  exact hdb h b hb ((decodeNode_panic_iff _ b 0).1 hpanic)

/-- The leaf for the empty key. -/
theorem decodeNode_total_leaf : ¬ ReadsEmptyKey 0 [0xC2, 0x20, 0x05] ∧
    verifyProof 1 Hash.zero [] (fun _ => some [0xC2, 0x20, 0x05]) ≠ .error .panic := by
  have htotal := decodeNode_total_iff none [0xC2, 0x20, 0x05] 0
  have hok : decodeNode none [0xC2, 0x20, 0x05] 0 =
      .ok (.short [16] (.value [5]) ⟨none, 0, false⟩) := rfl
  have hkey : ¬ ReadsEmptyKey 0 [0xC2, 0x20, 0x05] := by
    refine htotal.2.1.1 ?_
    rw [hok]
    nofun
  refine ⟨hkey, htotal.2.2 1 Hash.zero [] _ fun h b hb => ?_⟩
  cases hb
  exact hkey

/-- A list of two empty strings, and a proof that holds nothing else. -/
theorem decodeNode_emptyKey : decodeNode none [0xC2, 0x80, 0x80] 0 = .error .panic ∧
    verifyProof 1 Hash.zero [] (fun _ => some [0xC2, 0x80, 0x80]) = .error .panic := by
  have h : ∀ hash gen, decodeNode hash [0xC2, 0x80, 0x80] gen = .error .panic :=
    fun hash gen => (decodeNode_panic_iff hash _ gen).2 (.here rfl rfl rfl)
  refine ⟨h none 0, ?_⟩
  rw [verifyProof, verifyProofLoop]
  dsimp only
  rw [h]

end Geth.Mpt
