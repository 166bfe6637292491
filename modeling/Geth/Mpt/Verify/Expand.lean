import Geth.Mpt.Database
import Geth.Mpt.Verify.Encoding
import Geth.Rlp.Verify.Raw

/-!
# Raw nodes and their way back

The database keeps nodes in collapsed form, in memory as they are and on disk in their encoding.
`Expands` says which live node a raw node stands for; expanding the raw node and decoding its blob
both give that one.
-/

namespace Geth.Mpt

open Lib Rlp List

/-- What stands for the node in the encoding of a full node. -/
def Node.slot {F : Type} (n : Node Bytes F) : Item := if n.isNil then .str [] else n.item

/-- The node is a reference: a hash, or smaller than one. -/
def Inlined {F : Type} (n : Node Bytes F) : Prop := (∃ h, n = .hash h) ∨ n.blob.length < 32

/-- The live node that a raw node stands for, with its hash if it has one: the keys are those whose
compact form is stored, a leaf has a terminator and a value, and children are hashes or inlined. -/
inductive Expands (gen : UInt16) : Option Hash → RawNode → LiveNode → Prop
  | nil : Expands gen none .nil .nil
  | hash (h : Hash) : Expands gen none (.hash h) (.hash h)
  | leaf {hash : Option Hash} {key : Hex} {v : Bytes} (hkey : Terminated 16 key) (hne : key ≠ []) :
    Expands gen hash (.short (hexToCompact key) (.value v) ())
      (.short key (.value v) ⟨hash, gen, false⟩)
  | ext {hash : Option Hash} {key : Hex} {n : RawNode} {m : LiveNode} (hkey : 16 ∉ key)
    (hn : Expands gen none n m) (hnil : n ≠ .nil) (hin : Inlined n) :
    Expands gen hash (.short (hexToCompact key) n ()) (.short key m ⟨hash, gen, false⟩)
  | full {hash : Option Hash} {children : Fin 17 → RawNode} {live : Fin 17 → LiveNode}
    (hc : ∀ i, i ≠ 16 → Expands gen none (children i) (live i))
    (hin : ∀ i, i ≠ 16 → Inlined (children i))
    (hval : (children 16 = .nil ∧ live 16 = .nil) ∨
      ∃ v, v ≠ [] ∧ children 16 = .value v ∧ live 16 = .value v) :
    Expands gen hash (.full children ()) (.full live ⟨hash, gen, false⟩)

/-- The node has an encoding of its own. -/
def Node.Stands {K F : Type} : Node K F → Prop
  | .short .. => True
  | .full .. => True
  | _ => False

section

variable {gen : UInt16} {hash : Option Hash} {n : RawNode} {m : LiveNode}

theorem inlined_nil : Inlined (.nil : RawNode) := .inr (by decide)

variable {F : Type} {decode : Bytes → Except NodeErr LiveNode}

theorem isNil_eq_true {K : Type} {n : Node K F} : n.isNil = true ↔ n = .nil := by
  cases n <;> simp [Node.isNil]

theorem Expands.of_nil (h : Expands gen hash .nil m) : m = .nil := by
  cases h
  rfl

/-! ## Expanding -/

theorem Expands.expandNode (h : Expands gen hash n m) (hne : n ≠ .nil) :
    expandNode gen hash n = some m := by
  induction h with
  | nil => exact absurd rfl hne
  | hash h => rfl
  | leaf hkey hkne =>
    rw [Mpt.expandNode, compactToHex_hexToCompact_of_terminated hkey hkne]
    rfl
  | ext hkey _ hnil _ ih =>
    rw [Mpt.expandNode, compactToHex_hexToCompact_of_notMem hkey, ih hnil]
  | @full hash children live hc hin hval ih =>
    have hchild : ∀ i, children i = .nil ∧ live i = .nil ∨
        Mpt.expandNode gen none (children i) = some (live i) := by
      intro i
      by_cases hi : i = 16
      · subst hi
        rcases hval with hnil | ⟨v, -, hv, hl⟩
        · exact .inl hnil
        · rw [hv, hl]
          exact .inr rfl
      · by_cases hnil : children i = .nil
        · exact .inl ⟨hnil, Expands.of_nil (hnil ▸ hc i hi)⟩
        · exact .inr (ih i hi hnil)
    rw [Mpt.expandNode, if_pos]
    · congr 2
      funext i
      rcases hchild i with ⟨hnil, hl⟩ | hsome
      · rw [hnil, hl]
        rfl
      · rw [hsome]
        rfl
    · intro i
      rcases hchild i with ⟨hnil, -⟩ | hsome
      · exact .inl (isNil_eq_true.2 hnil)
      · exact .inr (by rw [hsome]; rfl)

/-! ## Decoding -/

theorem hash_not_single (h : Hash) : ∀ x, h.val = [x] → ¬ x ≤ 0x7F := by
  intro x hx
  have := h.property
  rw [hx] at this
  simp at this

theorem Node.Stands.item_list {n : Node Bytes F} (h : n.Stands) : ∃ its, n.item = .list its := by
  cases n with
  | short key val flags => exact ⟨_, by rw [Node.item]⟩
  | full children flags => exact ⟨_, by rw [Node.item]⟩
  | _ => exact h.elim

theorem decodeRef_slot (h : Expands gen none n m) (hin : Inlined n)
    (hlen : n.slot.encode.length < 2 ^ 64) (r : Bytes)
    (hdec : n.Stands → n.blob.length < 32 → decode (n.blob ++ r) = .ok m) :
    decodeRef decode (n.slot.encode ++ r) = .ok (m, r) := by
  have hstands : n.Stands → n.blob.length < 32 → decodeRef decode (n.slot.encode ++ r) = .ok
    (m, r) := by
    intro hs hsmall
    obtain ⟨its, hits⟩ := hs.item_list
    have hslot : n.slot = n.item := by
      rw [Node.slot, if_neg]
      rw [isNil_eq_true]
      rintro rfl
      exact hs
    have hblob : (Item.list its).encode = n.blob := by rw [Node.blob, hits]
    have hall := length_encodeAll_lt its
    rw [hblob] at hall
    rw [hslot, hits, decodeRef, split_list (by omega), hblob]
    simp only [length_append, Nat.add_sub_cancel]
    rw [if_neg (by omega), hdec hs hsmall]
  cases h with
  | nil =>
    have hslot : (Node.nil : RawNode).slot = .str [] := rfl
    rfl
  | hash h =>
    have h32 := h.property
    have hslot : (Node.hash h : RawNode).slot = .str h.val := rfl
    rw [hslot, decodeRef, split_string (by rw [h32]; decide) (hash_not_single h)]
    simp only [h32]
    rfl
  | leaf hkey hne => exact hstands trivial (hin.resolve_left nofun)
  | ext hkey hn hnil hin' => exact hstands trivial (hin.resolve_left nofun)
  | full hc hin' hval => exact hstands trivial (hin.resolve_left nofun)

theorem decodeChildren_slots {children : Fin 17 → RawNode} {live : Fin 17 → LiveNode} :
    ∀ (is : List (Fin 17)) (cs : Fin 17 → LiveNode) (r : Bytes),
      (∀ i ∈ is, ∀ r', decodeRef decode ((children i).slot.encode ++ r') = .ok (live i, r')) →
      decodeChildren decode is cs (encodeAll (is.map fun i => (children i).slot) ++ r) =
        .ok (fun i => if i ∈ is then live i else cs i, r)
  | [], cs, r, _ => by simp [decodeChildren]
  | i :: is, cs, r, h => by
    rw [map_cons, encodeAll_cons, append_assoc, decodeChildren, h i mem_cons_self]
    simp only
    rw [decodeChildren_slots is _ r fun j hj => h j (mem_cons_of_mem _ hj)]
    congr 2
    funext j
    by_cases hj : j ∈ is
    · simp [hj]
    · by_cases hji : j = i
      · subst hji
        simp [hj]
      · simp [hj, hji]

theorem item_full (children : Fin 17 → Node Bytes F) (flags : F) : (Node.full children flags).item =
      .list (childIndices.map (fun i => (children i).slot) ++ [(children 16).slot]) := by
  rfl

theorem decodeNodeLoop_list {fuel : Nat} {its : List Item} {r : Bytes}
    (hlen : (Item.list its).encode.length < 2 ^ 64) :
    decodeNodeLoop gen (fuel + 1) hash ((Item.list its).encode ++ r) =
      if its.length = 2 then
        wrapping "short" (decodeShort (decodeNodeLoop gen fuel none) hash (encodeAll its) gen)
      else if its.length = 17 then
        wrapping "full" (decodeFull (decodeNodeLoop gen fuel none) hash (encodeAll its) gen)
      else .error (.elements its.length) := by
  have hall := length_encodeAll_lt its
  have hcount : countValues (encodeAll its) = .ok its.length := countValues_encodeAll (by omega)
  rw [decodeNodeLoop, if_neg (by rw [length_append]; omega), splitList_list (by omega)]
  simp [hcount]

theorem decodeShort_leaf {key : Hex} {v : Bytes} (hkey : Terminated 16 key) (hne : key ≠ [])
    (hk : (hexToCompact key).length < 2 ^ 64) (hv : v.length < 2 ^ 64) :
    decodeShort decode hash (encodeAll [.str (hexToCompact key), .str v]) gen =
      .ok (.short key (.value v) ⟨hash, gen, false⟩) := by
  rw [encodeAll_cons, decodeShort, splitString_str hk]
  simp only [compactToHex_hexToCompact_of_terminated hkey hne, hasTerm_of_terminated hkey hne,
    if_true, encodeAll_cons, encodeAll_nil]
  rw [splitString_str hv]

theorem decodeShort_ext {key : Hex} (hkey : 16 ∉ key) (hk : (hexToCompact key).length < 2 ^ 64)
    (hdec : ∀ r, decodeRef decode (n.slot.encode ++ r) = .ok (m, r)) :
    decodeShort decode hash (encodeAll [.str (hexToCompact key), n.slot]) gen =
      .ok (.short key m ⟨hash, gen, false⟩) := by
  rw [encodeAll_cons, decodeShort, splitString_str hk]
  simp only [compactToHex_hexToCompact_of_notMem hkey, hasTerm_of_notMem hkey, encodeAll_cons,
    encodeAll_nil, hdec]
  rfl

theorem decodeFull_slots {children : Fin 17 → RawNode} {live : Fin 17 → LiveNode}
    (hval : (children 16 = .nil ∧ live 16 = .nil) ∨
      ∃ v, v ≠ [] ∧ children 16 = .value v ∧ live 16 = .value v)
    (hlen : (children 16).slot.encode.length < 2 ^ 64) (hdec : ∀ i ∈ childIndices, ∀ r,
      decodeRef decode ((children i).slot.encode ++ r) = .ok (live i, r)) :
    decodeFull decode hash
        (encodeAll (childIndices.map (fun i => (children i).slot) ++ [(children 16).slot])) gen =
      .ok (.full live ⟨hash, gen, false⟩) := by
  have hmem : ∀ i : Fin 17, i ∈ childIndices ↔ i ≠ 16 := by decide
  rw [encodeAll_append, decodeFull, decodeChildren_slots _ _ _ hdec]
  simp only [encodeAll_cons, encodeAll_nil]
  rcases hval with ⟨hnil, hlive⟩ | ⟨v, hv, hval, hlive⟩
  · have hslot : (children 16).slot = .str [] := by rw [hnil]; rfl
    rw [hslot, splitString_str (by simp)]
    simp only [length_nil, gt_iff_lt, Nat.lt_irrefl, if_false]
    congr 2
    funext i
    by_cases hi : i = 16
    · simp [hmem, hi, hlive]
    · simp [hmem, hi]
  · have hslot : (children 16).slot = .str v := by rw [hval]; rfl
    rw [hslot, Item.encode_str] at hlen
    have hvlen := Nat.lt_of_le_of_lt (le_length_encodeStr v) hlen
    rw [hslot, splitString_str hvlen]
    simp only [if_pos (length_pos_iff.mpr hv)]
    congr 2
    funext i
    by_cases hi : i = 16
    · subst hi
      simp [hlive]
    · simp [hmem, hi]

theorem length_lt_of_str_mem {its : List Item} {b : Bytes} (h : .str b ∈ its) :
    b.length < (Item.list its).encode.length := by
  have hle := length_encode_le_encodeAll h
  have hlt := length_encodeAll_lt its
  have hb := le_length_encodeStr b
  rw [Item.encode_str] at hle
  omega

theorem Expands.decodeNodeLoop (h : Expands gen hash n m) (hs : n.Stands) :
    ∀ (fuel : Nat) (r : Bytes), n.blob.length < fuel → n.blob.length < 2 ^ 64 →
      decodeNodeLoop gen fuel hash (n.blob ++ r) = .ok m := by
  -- An embedded child is shorter than the list around it, so one step of fuel less is enough.
  have hchild : ∀ {c : RawNode} {l : LiveNode} {its : List Item} {fuel : Nat}, c.slot ∈ its →
      (Item.list its).encode.length < fuel + 1 → (Item.list its).encode.length < 2 ^ 64 →
      Expands gen none c l → Inlined c →
      (c.Stands → ∀ (fuel : Nat) (r : Bytes), c.blob.length < fuel → c.blob.length < 2 ^ 64 →
        Mpt.decodeNodeLoop gen fuel none (c.blob ++ r) = .ok l) →
      ∀ r, decodeRef (Mpt.decodeNodeLoop gen fuel none) (c.slot.encode ++ r) = .ok (l, r) := by
    intro c l its fuel hmem hfuel hlen hc hin ih r
    have hle := length_encode_le_encodeAll hmem
    have hlt := length_encodeAll_lt its
    refine decodeRef_slot hc hin (by omega) r fun hcs hsmall => ?_
    have hslot : c.slot.encode = c.blob := by
      rw [Node.slot, if_neg, Node.blob]
      rw [isNil_eq_true]
      rintro rfl
      exact hcs
    rw [hslot] at hle
    exact ih hcs fuel r (by omega) (by omega)
  induction h with
  | nil => exact hs.elim
  | hash h => exact hs.elim
  | @leaf hash key v hkey hne =>
    intro fuel r hfuel hlen
    obtain ⟨fuel, rfl⟩ := Nat.exists_eq_succ_of_ne_zero (Nat.ne_of_gt (Nat.zero_lt_of_lt hfuel))
    have henc : (Node.short (hexToCompact key) (.value v) () : RawNode).blob =
        (Item.list [.str (hexToCompact key), .str v]).encode := rfl
    rw [henc] at hlen ⊢
    have hk := length_lt_of_str_mem (b := hexToCompact key) (mem_cons_self (l := [.str v]))
    have hv := length_lt_of_str_mem (b := v)
      (mem_cons_of_mem (.str (hexToCompact key)) (mem_singleton_self _))
    rw [decodeNodeLoop_list hlen, if_pos (by rfl), decodeShort_leaf hkey hne (by omega) (by omega)]
    rfl
  | @ext hash key n m hkey hn hnil hin ih =>
    intro fuel r hfuel hlen
    obtain ⟨fuel, rfl⟩ := Nat.exists_eq_succ_of_ne_zero (Nat.ne_of_gt (Nat.zero_lt_of_lt hfuel))
    have hslot : n.slot = n.item := by rw [Node.slot, if_neg (mt isNil_eq_true.1 hnil)]
    have henc : (Node.short (hexToCompact key) n () : RawNode).blob =
        (Item.list [.str (hexToCompact key), n.slot]).encode := by
      rw [hslot, Node.blob, Node.item]
    rw [henc] at hlen hfuel ⊢
    have hk := length_lt_of_str_mem (b := hexToCompact key) (mem_cons_self (l := [n.slot]))
    have hdec := hchild (mem_cons_of_mem _ (mem_singleton_self _)) hfuel hlen hn hin
      fun hs => ih hs
    rw [decodeNodeLoop_list hlen, if_pos (by rfl), decodeShort_ext hkey (by omega) hdec]
    rfl
  | @full hash children live hc hin hval ih =>
    intro fuel r hfuel hlen
    obtain ⟨fuel, rfl⟩ := Nat.exists_eq_succ_of_ne_zero (Nat.ne_of_gt (Nat.zero_lt_of_lt hfuel))
    have henc : (Node.full children () : RawNode).blob = (Item.list (childIndices.map
        (fun i => (children i).slot) ++ [(children 16).slot])).encode := by
      rw [Node.blob, item_full]
    rw [henc] at hlen hfuel ⊢
    have hmem : ∀ i ∈ childIndices, i ≠ 16 := by decide
    have hslot : (children 16).slot.encode.length ≤ _ :=
      length_encode_le_encodeAll (mem_append_right
        (childIndices.map fun i => (children i).slot) (mem_singleton_self _))
    have hall := length_encodeAll_lt
      (childIndices.map (fun i => (children i).slot) ++ [(children 16).slot])
    have hchildren : ∀ i ∈ childIndices, ∀ r, decodeRef (Mpt.decodeNodeLoop gen fuel none)
        ((children i).slot.encode ++ r) = .ok (live i, r) := by
      intro i hi
      have hin' : (children i).slot ∈ childIndices.map (fun i => (children i).slot) ++
          [(children 16).slot] :=
        mem_append_left _ (mem_map.mpr ⟨i, hi, rfl⟩)
      exact hchild hin' hfuel hlen (hc i (hmem i hi)) (hin i (hmem i hi)) fun hs => ih i (hmem i hi)
        hs
    have hcount : (childIndices.map (fun i => (children i).slot) ++
        [(children 16).slot]).length = 17 := by
      rw [length_append, length_map]
      rfl
    rw [decodeNodeLoop_list hlen, hcount, if_neg (by decide), if_pos rfl,
      decodeFull_slots hval (Nat.lt_of_le_of_lt hslot (Nat.lt_trans hall hlen)) hchildren]
    rfl

theorem Expands.decodeNode (h : Expands gen hash n m) (hs : n.Stands)
    (hlen : n.blob.length < 2 ^ 64) : decodeNode hash n.blob gen = .ok m := by
  have := h.decodeNodeLoop hs _ [] (Nat.lt_succ_self _) hlen
  rwa [append_nil] at this

end

end Geth.Mpt
