import Geth.Lib.RadixUpdate
import Geth.Mpt.Verify.Rep

/-!
# Reading and updating a trie

On a node that stands for a tree, `tryGet` returns what the tree stores, and `insert` and `delete`
return a node that stands for the updated tree. Whatever is not loaded is read from the database on
the way. Two steps for each nibble of the key are enough, one of them to load a node.
-/

namespace Geth.Mpt

open Lib Rlp Function List

/-- What may stand where `key` is left to be read. -/
abbrev SlotTree (key : Hex) (t : Tree) : Prop := RadixTree.Slot 16 (· ≠ []) key t

/-- The tree `t'` is `t` with `o` stored under `key`. -/
abbrev SetsTree (key : Hex) (o : Option Bytes) (t t' : Tree) : Prop :=
  RadixTree.Sets 16 (· ≠ []) key o t t'

/-- The steps a walk from the node along the key takes. -/
def stepsFor (n : LiveNode) (key : Hex) : Nat :=
  2 * key.length + match n with
    | .hash _ => 2
    | _ => 1

theorem stepsFor_le (n : LiveNode) (key : Hex) : stepsFor n key ≤ 2 * key.length + 2 := by
  unfold stepsFor
  split <;> omega

theorem lt_stepsFor (n : LiveNode) (key : Hex) : 2 * key.length < stepsFor n key := by
  unfold stepsFor
  split <;> omega

variable {n : LiveNode} {key : Hex} {fuel : Nat}

theorem stepsFor_child {m : LiveNode} {rest : Hex} (hlen : rest.length < key.length)
    (h : stepsFor n key ≤ fuel + 1) : stepsFor m rest ≤ fuel := by
  have h1 := lt_stepsFor n key
  have h2 := stepsFor_le m rest
  omega

theorem stepsFor_resolved {h : Hash} (hn : ∀ h, n ≠ .hash h)
    (hfuel : stepsFor (.hash h) key ≤ fuel + 1) : stepsFor n key ≤ fuel := by
  have hlen : 2 * key.length + 2 ≤ fuel + 1 := hfuel
  unfold stepsFor
  split
  · next h => exact absurd rfl (hn h)
  · omega

namespace Trie

section

variable {keccak : Bytes → Hash} {E : Set Bytes} {tr : Trie} {ns : Fin 17 → LiveNode}

/-! ## Reading -/

theorem tryGet_rep (hE : HashOn keccak E) (hdb : tr.db.Sound keccak E) (fuel : Nat) :
    ∀ {root : Bool} {n : LiveNode} {t : Tree} {key : Hex} (path : Hex), Rep keccak tr.db root n t →
      SlotTree key t → Terminated 16 key → stepsFor n key ≤ fuel →
      ∃ n' didResolve, tr.tryGet fuel n path key = .ok (t.lookup key, n', didResolve) ∧
        Rep keccak tr.db root n' t := by
  induction fuel with
  | zero =>
    intro root n t key path _ _ _ hfuel
    have := lt_stepsFor n key
    omega
  | succ fuel ih =>
    intro root n t key path hn hslot hkey hfuel
    cases hn with
    | nil => exact ⟨.nil, false, by rw [tryGet, RadixTree.lookup_nil], .nil⟩
    | @value _ v =>
      obtain rfl := hslot.key_eq_nil
      exact ⟨.value v, false, by rw [tryGet, RadixTree.lookup_value, if_pos rfl], .value⟩
    | @hash _ t hct hs hr =>
      obtain ⟨rn, hres, hrn, hrh⟩ := resolveHash_rep hE hdb hct hs hr path
      have hsteps := stepsFor_resolved hrh hfuel
      obtain ⟨n', d, hget, hn'⟩ := ih path hrn hslot hkey hsteps
      exact ⟨n', true, by rw [tryGet, hres]; simp only [hget], hn'⟩
    | @short _ nkey m u flags hm hf =>
      have hne := hslot.key_ne_nil (by rintro ⟨⟩) (by rintro v ⟨⟩)
      have hcanon := hslot.canon hne (by rintro ⟨⟩)
      rw [tryGet]
      by_cases hpre : nkey <+: key
      · obtain ⟨rest, rfl⟩ := hpre
        rw [if_neg (by simp), drop_left]
        have hlen : rest.length < (nkey ++ rest).length := by
          have := length_pos_iff.mpr hcanon.key_ne_nil
          rw [length_append]
          omega
        obtain ⟨m', d, hget, hm'⟩ := ih (path ++ nkey) hm (hcanon.slot_child hkey) hkey.drop
          (stepsFor_child hlen hfuel)
        rw [RadixTree.lookup_short_append]
        simp only [hget]
        cases d with
        | true => exact ⟨_, _, rfl, .short hm' (hf.withGen _)⟩
        | false => exact ⟨_, _, rfl, .short hm hf⟩
      · rw [if_pos fun htake => hpre (prefix_iff_eq_take.mpr htake.symm),
          RadixTree.lookup_short_eq_none _ hpre]
        exact ⟨_, _, rfl, .short hm hf⟩
    | @full _ ns ts flags hns hf =>
      have hne := hslot.key_ne_nil (by rintro ⟨⟩) (by rintro v ⟨⟩)
      have hcanon := hslot.canon hne (by rintro ⟨⟩)
      obtain ⟨k, rest, rfl⟩ := exists_cons_of_ne_nil hne
      obtain ⟨m', d, hget, hm'⟩ := ih (path ++ [k]) (hns k) (hcanon.child hkey) hkey.tail
        (stepsFor_child (by simp) hfuel)
      rw [tryGet, RadixTree.lookup_full_cons]
      simp only [hget]
      cases d with
      | true =>
        refine ⟨_, _, rfl, .full (fun i => ?_) (hf.withGen _)⟩
        rw [update_apply]
        split
        · next hi => exact hi ▸ hm'
        · exact hns i
      | false => exact ⟨_, _, rfl, .full hns hf⟩

/-! ## Inserting -/

/-- What `insert` makes of the node `v` in an empty place. -/
def attachNode (tr : Trie) (key : Hex) (v : LiveNode) : LiveNode :=
  match key with
  | [] => v
  | k :: key => .short (k :: key) v tr.newFlag

theorem insert_nil (fuel : Nat) (path key : Hex) (v : LiveNode) :
    tr.insert (fuel + 1) .nil path key v = .ok (true, tr.attachNode key v) := by
  cases key with
  | nil => rw [insert]; rfl
  | cons k key => rw [insert]; rfl

theorem rep_attachNode {v : LiveNode} {t : Tree} (key : Hex) (hv : Rep keccak tr.db false v t) :
    Rep keccak tr.db false (tr.attachNode key v) (.attach key t) := by
  cases key with
  | nil => exact hv
  | cons k key => exact .short hv (tr.coherent_newFlag _ _)

theorem exists_parting {key nkey : Hex} {u : Tree} (hc : CanonTree (.short nkey u))
    (hkey : Terminated 16 key) (hne : key ≠ []) (hm : prefixLen key nkey ≠ nkey.length) :
    ∃ p a n b m, nkey = p ++ a :: n ∧ key = p ++ b :: m ∧ a ≠ b ∧
      prefixLen key nkey = p.length := by
  have htake := take_prefixLen key nkey
  have hle := prefixLen_le_left key nkey
  have hnkey := take_append_drop (prefixLen key nkey) nkey
  have hkey' := take_append_drop (prefixLen key nkey) key
  have hlen : (key.take (prefixLen key nkey)).length = prefixLen key nkey := by
    rw [length_take]
    omega
  rw [← htake] at hnkey
  cases hn : nkey.drop (prefixLen key nkey) with
  | nil =>
    rw [hn, append_nil] at hnkey
    exact absurd (by rw [← hlen, hnkey]) hm
  | cons a n =>
    cases hk : key.drop (prefixLen key nkey) with
    | nil =>
      -- The key cannot end inside the short node.
      rw [hk, append_nil] at hkey'
      rw [hkey', hn] at hnkey
      rw [← hnkey] at hc
      exact absurd (hkey.mem hne) hc.notMem_split
    | cons b m =>
      rw [hn] at hnkey
      rw [hk] at hkey'
      exact ⟨_, a, n, b, m, hnkey.symm, hkey'.symm, (drop_prefixLen hk hn).symm, hlen.symm⟩

theorem rep_fork {a b : Nibble} {c1 c2 : LiveNode} {t1 t2 : Tree} {root : Bool}
    (h1 : Rep keccak tr.db false c1 t1) (h2 : Rep keccak tr.db false c2 t2) :
    Rep keccak tr.db root (.full (update (update (fun _ => .nil) a c1) b c2) tr.newFlag)
      (.fork a t1 b t2) := by
  refine .full (fun i => ?_) (tr.coherent_newFlag _ _)
  rw [update_apply, update_apply, update_apply, update_apply]
  split
  · exact h2
  · split
    · exact h1
    · exact .nil

theorem insert_rep (hE : HashOn keccak E) (hdb : tr.db.Sound keccak E) {w : Bytes} (hw : w ≠ [])
    (fuel : Nat) :
    ∀ {root : Bool} {n : LiveNode} {t : Tree} {key : Hex} (path : Hex), Rep keccak tr.db root n t →
      SlotTree key t → Terminated 16 key → stepsFor n key ≤ fuel →
      ∃ dirty n' t', tr.insert fuel n path key (.value w) = .ok (dirty, n') ∧
        Rep keccak tr.db root n' t' ∧ SetsTree key (some w) t t' ∧ (dirty = false → t' = t) := by
  induction fuel with
  | zero =>
    intro root n t key path _ _ _ hfuel
    have := lt_stepsFor n key
    omega
  | succ fuel ih =>
    intro root n t key path hn hslot hkey hfuel
    by_cases hne : key = []
    · subst hne
      by_cases hnil : t = .nil
      · subst hnil
        obtain rfl := hn.eq_nil
        exact ⟨true, _, .value w, by rw [insert]; rfl, .value, .value hslot hw, nofun⟩
      · obtain ⟨v, -, rfl⟩ := hslot.eq_value hnil
        obtain rfl := hn.eq_value
        refine ⟨v != w, _, .value w, by rw [insert]; rfl, .value, .value hslot hw, fun hd => ?_⟩
        rw [bne_eq_false_iff_eq.mp hd]
    · have hlen : ¬ key.length = 0 := fun h => hne (length_eq_zero_iff.mp h)
      cases hn with
      | nil =>
        refine ⟨true, _, .short key (.value w), ?_, .short .value (tr.coherent_newFlag _ _),
          .leaf hkey hne hw, nofun⟩
        rw [insert, if_neg hlen]
      | @value _ v => exact absurd hslot.key_eq_nil hne
      | @hash _ t hct hs hr =>
        obtain ⟨rn, hres, hrn, hrh⟩ := resolveHash_rep hE hdb hct hs hr path
        have hsteps := stepsFor_resolved hrh hfuel
        obtain ⟨d, n', t', hins, hn', hsets, hsame⟩ := ih path hrn hslot hkey hsteps
        rw [insert, if_neg hlen]
        simp only [hres, hins]
        cases d with
        | true => exact ⟨_, _, t', rfl, hn', hsets, nofun⟩
        | false => exact ⟨_, _, t, rfl, hrn, hsame rfl ▸ hsets, fun _ => rfl⟩
      | @short _ nkey m u flags hm hf =>
        have hcanon := hslot.canon hne nofun
        by_cases hmatch : prefixLen key nkey = nkey.length
        · obtain ⟨rest, rfl⟩ := prefixLen_eq_length_iff.mp hmatch
          have hlt : rest.length < (nkey ++ rest).length := by
            have := length_pos_iff.mpr hcanon.key_ne_nil
            rw [length_append]
            omega
          obtain ⟨d, m', u', hins, hm', hsets, hsame⟩ := ih (path ++ nkey) hm
            (hcanon.slot_child hkey) hkey.drop (stepsFor_child hlt hfuel)
          rw [insert, if_neg hlen]
          simp only [hmatch, if_true, take_left, drop_left, hins]
          cases d with
          | true =>
            exact ⟨_, _, .short nkey u', rfl, .short hm' (tr.coherent_newFlag _ _),
              hsets.short hcanon hkey, nofun⟩
          | false =>
            rw [hsame rfl] at hsets
            exact ⟨_, _, .short nkey u, rfl, .short hm hf, hsets.short hcanon hkey, fun _ => rfl⟩
        · obtain ⟨p, a, n, b, k, rfl, rfl, hab, hp⟩ := exists_parting hcanon hkey hne hmatch
          have hpos : 0 < fuel := by
            have := lt_stepsFor (.short (p ++ a :: n) m flags) (p ++ b :: k)
            omega
          obtain ⟨fuel, rfl⟩ := Nat.exists_eq_succ_of_ne_zero (Nat.ne_of_gt hpos)
          have hbranch : ∀ root, Rep keccak tr.db root (.full (update (update
              (fun _ => .nil) a (tr.attachNode n m)) b (tr.attachNode k (.value w))) tr.newFlag)
              (.fork a (.attach n u) b (.attach k (.value w))) :=
            fun root => rep_fork (rep_attachNode n hm) (rep_attachNode k .value)
          have hsets := RadixTree.Sets.split hcanon hkey hab hw
          rw [hp] at hmatch
          rw [insert, if_neg hlen]
          simp only [hp, if_neg hmatch, drop_left, take_left, insert_nil]
          cases p with
          | nil => exact ⟨_, _, _, rfl, hbranch root, hsets, nofun⟩
          | cons c p =>
            exact ⟨_, _, _, rfl, .short (hbranch false) (tr.coherent_newFlag _ _), hsets, nofun⟩
      | @full _ ns ts flags hns hf =>
        have hcanon := hslot.canon hne nofun
        obtain ⟨k, rest, rfl⟩ := exists_cons_of_ne_nil hne
        obtain ⟨d, m', u', hins, hm', hsets, hsame⟩ := ih (path ++ [k]) (hns k)
          (hcanon.child hkey) hkey.tail (stepsFor_child (by simp) hfuel)
        rw [insert, if_neg hlen]
        simp only [hins]
        cases d with
        | true =>
          refine ⟨_, _, .full (update ts k u'), rfl,
            .full (fun i => ?_) (tr.coherent_newFlag _ _), hsets.full hcanon hkey, nofun⟩
          rw [update_apply, update_apply]
          split
          · exact hm'
          · exact hns i
        | false =>
          rw [hsame rfl] at hsets
          exact ⟨_, _, .full ts, rfl, .full hns hf, hsets.full_same hcanon, fun _ => rfl⟩

/-! ## Deleting -/

/-- What the loop of `delete` finds in a list of children. -/
def leftOf : List (Fin 17) → Left
  | [] => .none
  | [i] => .one i
  | _ => .many

theorem entriesLeft_eq (ns : Fin 17 → LiveNode) :
    entriesLeft ns = leftOf ((List.finRange 17).filter fun i => !(ns i).isNil) := by
  rw [entriesLeft]
  induction List.finRange 17 using List.reverseRecOn with
  | nil => rfl
  | append_singleton l i ih =>
    rw [foldl_append, ih, filter_append]
    cases hi : (ns i).isNil with
    | true => simp [hi]
    | false =>
      simp only [foldl_cons, foldl_nil, hi, filter_cons, filter_nil]
      rcases l.filter fun i => !(ns i).isNil with _ | ⟨a, _ | ⟨b, l⟩⟩ <;> rfl

theorem entriesLeft_one {i : Fin 17} (h : entriesLeft ns = .one i) :
    (ns i).isNil = false ∧ ∀ j, j ≠ i → (ns j).isNil = true := by
  have hfilter : (List.finRange 17).filter (fun i => !(ns i).isNil) = [i] := by
    rw [entriesLeft_eq] at h
    unfold leftOf at h
    split at h
    · cases h
    · next heq => rw [heq, Left.one.inj h]
    · cases h
  have hmem : ∀ j, (ns j).isNil = false ↔ j = i := by
    intro j
    have hj : j ∈ [i] ↔ j = i := mem_singleton
    rw [← hj, ← hfilter]
    simp
  refine ⟨(hmem i).mpr rfl, fun j hj => ?_⟩
  rw [← Bool.not_eq_false]
  exact fun hn => hj ((hmem j).mp hn)

theorem entriesLeft_many (h : ∀ i, entriesLeft ns ≠ .one i) {k : Fin 17}
    (hk : (ns k).isNil = false) :
    ∃ i j, i ≠ j ∧ (ns i).isNil = false ∧ (ns j).isNil = false := by
  have hmem : ∀ {j}, j ∈ (List.finRange 17).filter (fun i => !(ns i).isNil) ↔
      (ns j).isNil = false := by simp
  have hnodup := (nodup_finRange 17).filter fun i => !(ns i).isNil
  have hin := hmem.mpr hk
  simp only [entriesLeft_eq] at h
  rcases hl : (List.finRange 17).filter (fun i => !(ns i).isNil) with _ | ⟨i, _ | ⟨j, l⟩⟩
  · rw [hl] at hin
    cases hin
  · exact absurd (by rw [hl]; rfl) (h i)
  · rw [hl] at hnodup
    refine ⟨i, j, fun hij => ?_, hmem.mp ?_, hmem.mp ?_⟩
    · subst hij
      simp at hnodup
    · rw [hl]
      simp
    · rw [hl]
      simp

theorem resolve_rep (hE : HashOn keccak E) (hdb : tr.db.Sound keccak E) {root : Bool}
    {t : Tree} (hn : Rep keccak tr.db root n t) (path : Hex) :
    ∃ rn, tr.resolve n path = .ok rn ∧ Rep keccak tr.db root rn t ∧ ∀ h, rn ≠ .hash h := by
  cases hn with
  | nil => exact ⟨_, rfl, .nil, nofun⟩
  | value => exact ⟨_, rfl, .value, nofun⟩
  | hash hct hs hr => exact resolveHash_rep hE hdb hct hs hr path
  | short hm hf => exact ⟨_, rfl, .short hm hf, nofun⟩
  | full hns hf => exact ⟨_, rfl, .full hns hf, nofun⟩

theorem reduceFull_rep (hE : HashOn keccak E) (hdb : tr.db.Sound keccak E)
    {ts : Fin 17 → Tree} {k : Nibble} {rest : Hex} {u' : Tree}
    {m' : LiveNode} (hcanon : CanonTree (.full ts)) (hkey : Terminated 16 (k :: rest))
    (hns : ∀ i, Rep keccak tr.db false (ns i) (ts i)) (hm' : Rep keccak tr.db false m' u')
    (hsets : SetsTree rest none (ts k) u') (path : Hex) (root : Bool) :
    ∃ n' t', tr.reduceFull (update ns k m') path = .ok (true, n') ∧
      Rep keccak tr.db root n' t' ∧ SetsTree (k :: rest) none (.full ts) t' ∧
      ∀ h, n' ≠ .hash h := by
  have hrep : ∀ i, Rep keccak tr.db false (update ns k m' i) (update ts k u' i) := by
    intro i
    rw [update_apply, update_apply]
    split
    · exact hm'
    · exact hns i
  have hnil : ∀ i, (update ns k m' i).isNil = true ↔ update ts k u' i = .nil :=
    fun i => (hrep i).isNil_iff
  have hchildren := hcanon.children.update hkey hsets.slot
  rw [reduceFull]
  by_cases hone : ∃ pos, entriesLeft (update ns k m') = .one pos
  · obtain ⟨pos, hleft⟩ := hone
    obtain ⟨hpos, hothers⟩ := entriesLeft_one hleft
    have hsole : ∀ i, i ≠ pos → update ts k u' i = .nil :=
      fun i hi => (hnil i).mp (hothers i hi)
    have hne : update ts k u' pos ≠ .nil := by
      intro h
      rw [(hnil pos).mpr h] at hpos
      cases hpos
    have hother : (∀ key t, update ts k u' pos ≠ .short key t) →
        ∃ t', Rep keccak tr.db root (.short [pos] (update ns k m' pos) tr.newFlag) t' ∧
          SetsTree (k :: rest) none (.full ts) t' :=
      fun h => ⟨_, .short (hrep pos) (tr.coherent_newFlag _ _),
        hsets.full_sole_other hcanon hkey hsole hne h⟩
    simp only [hleft]
    by_cases h16 : pos = 16
    · subst h16
      obtain ⟨v, -, hv⟩ := hchildren.value_child hne
      obtain ⟨t', hr, hs⟩ := hother fun key t => by rw [hv]; exact nofun
      exact ⟨_, t', rfl, hr, hs, nofun⟩
    · obtain ⟨rn, hres, hrn, hrh⟩ := resolve_rep hE hdb (hrep pos) path
      simp only [ne_eq, h16, not_false_eq_true, if_true, hres]
      generalize hu : update ts k u' pos = u at hrn hother
      cases hrn with
      | nil => exact absurd hu hne
      | value =>
        obtain ⟨t', hr, hs⟩ := hother nofun
        exact ⟨_, t', rfl, hr, hs, nofun⟩
      | hash hct hs hr => exact absurd rfl (hrh _)
      | short hm hf =>
        exact ⟨_, _, rfl, .short hm (tr.coherent_newFlag _ _),
          hsets.full_sole_short hcanon hkey hsole h16 hu, nofun⟩
      | full hns' hf =>
        obtain ⟨t', hr, hs⟩ := hother nofun
        exact ⟨_, t', rfl, hr, hs, nofun⟩
  · have hsome : ∃ i, (update ns k m' i).isNil = false := by
      -- One of two children is not the one that has changed.
      have htwo : ∃ a b, a ≠ b ∧ ts a ≠ .nil ∧ ts b ≠ .nil := by cases hcanon; assumption
      obtain ⟨a, b, hab, ha, hb⟩ := htwo
      have hkeep : ∀ i, i ≠ k → ts i ≠ .nil → (update ns k m' i).isNil = false := by
        intro i hi hne
        rw [← Bool.not_eq_true, hnil, update_of_ne hi]
        exact hne
      by_cases hak : a = k
      · exact ⟨b, hkeep b (fun hbk => hab (hak.trans hbk.symm)) hb⟩
      · exact ⟨a, hkeep a hak ha⟩
    obtain ⟨c, hc⟩ := hsome
    obtain ⟨i, j, hij, hi, hj⟩ := entriesLeft_many (fun i hi => hone ⟨i, hi⟩) hc
    have hne : ∀ i, (update ns k m' i).isNil = false → update ts k u' i ≠ .nil := by
      intro i hi h
      rw [(hnil i).mpr h] at hi
      cases hi
    have hmany := hsets.full_many hcanon hkey ⟨i, j, hij, hne i hi, hne j hj⟩
    refine ⟨_, _, ?_, .full hrep (tr.coherent_newFlag _ _), hmany, nofun⟩
    cases hleft : entriesLeft (update ns k m') with
    | one pos => exact absurd ⟨pos, hleft⟩ hone
    | none => rfl
    | many => rfl

theorem delete_rep (hE : HashOn keccak E) (hdb : tr.db.Sound keccak E) (fuel : Nat) :
    ∀ {root : Bool} {n : LiveNode} {t : Tree} {key : Hex} (path : Hex), Rep keccak tr.db root n t →
      SlotTree key t → Terminated 16 key → stepsFor n key ≤ fuel →
      ∃ dirty n' t', tr.delete fuel n path key = .ok (dirty, n') ∧
        Rep keccak tr.db root n' t' ∧ SetsTree key none t t' ∧ (dirty = false → t' = t) ∧
        (dirty = true → ∀ h, n' ≠ .hash h) := by
  induction fuel with
  | zero =>
    intro root n t key path _ _ _ hfuel
    have := lt_stepsFor n key
    omega
  | succ fuel ih =>
    intro root n t key path hn hslot hkey hfuel
    cases hn with
    | nil => exact ⟨false, .nil, .nil, by rw [delete], .nil, .none_of_nil key, fun _ => rfl, nofun⟩
    | @value _ v =>
      obtain rfl := hslot.key_eq_nil
      exact ⟨true, .nil, .nil, by rw [delete], .nil, .none_of_value v, nofun, fun _ => nofun⟩
    | @hash _ t hct hs hr =>
      obtain ⟨rn, hres, hrn, hrh⟩ := resolveHash_rep hE hdb hct hs hr path
      have hsteps := stepsFor_resolved hrh hfuel
      obtain ⟨d, n', t', hdel, hn', hsets, hsame, hnh⟩ := ih path hrn hslot hkey hsteps
      rw [delete]
      simp only [hres, hdel]
      cases d with
      | true => exact ⟨_, _, t', rfl, hn', hsets, nofun, hnh⟩
      | false => exact ⟨_, _, t, rfl, hrn, hsame rfl ▸ hsets, fun _ => rfl, nofun⟩
    | @short _ nkey m u flags hm hf =>
      have hne := hslot.key_ne_nil nofun nofun
      have hcanon := hslot.canon hne nofun
      rw [delete]
      by_cases hpre : nkey <+: key
      · obtain ⟨rest, rfl⟩ := hpre
        have hmatch : prefixLen (nkey ++ rest) nkey = nkey.length :=
          prefixLen_eq_length_iff.mpr (prefix_append _ _)
        simp only [hmatch, Nat.lt_irrefl, if_false]
        cases hcanon with
        | @leaf _ v hk hkne hv =>
          obtain rfl := hkey.eq_nil_of_append hk hkne
          rw [append_nil, if_pos rfl]
          exact ⟨_, _, .nil, rfl, .nil, .none_of_leaf nkey v, nofun, fun _ => nofun⟩
        | @ext _ ts hk hkne hts =>
          have hrest : rest ≠ [] := by
            rintro rfl
            rw [append_nil] at hkey
            exact hk (hkey.mem hkne)
          have hpos := length_pos_iff.mpr hrest
          have hkpos := length_pos_iff.mpr hkne
          obtain ⟨d, m', u', hdel, hm', hsets, hsame, hnh⟩ := ih (path ++ nkey) hm
            (hts.slot hrest) hkey.drop
            (stepsFor_child (by rw [length_append]; omega) hfuel)
          rw [if_neg (by rw [length_append]; omega), take_left, drop_left]
          simp only [hdel]
          cases d with
          | false =>
            rw [hsame rfl] at hsets
            exact ⟨_, _, .short nkey (.full ts), rfl, .short hm hf,
              hsets.short_same (.ext hk hkne hts), fun _ => rfl, nofun⟩
          | true =>
            have hcanon' := hsets.slot.canon hrest (hsets.ne_nil_of_full hts)
            cases hm' with
            | nil => cases hcanon'
            | value => cases hcanon'
            | hash hct hs hr => exact absurd rfl (hnh rfl _)
            | short hc hcf =>
              exact ⟨_, _, _, rfl, .short hc (tr.coherent_newFlag _ _),
                hsets.merge hcanon' hk hrest, nofun, fun _ => nofun⟩
            | full hcs hcf =>
              exact ⟨_, _, _, rfl, .short (.full hcs hcf) (tr.coherent_newFlag _ _),
                hsets.short_full hcanon' hk hkne, nofun, fun _ => nofun⟩
      · have hlt : prefixLen key nkey < nkey.length :=
          Nat.lt_of_le_of_ne (prefixLen_le_right _ _) fun h => hpre (prefixLen_eq_length_iff.mp h)
        simp only [hlt, if_true]
        exact ⟨_, _, _, rfl, .short hm hf, .none_of_miss hslot hpre, fun _ => rfl, nofun⟩
    | @full _ ns ts flags hns hf =>
      have hne := hslot.key_ne_nil nofun nofun
      have hcanon := hslot.canon hne nofun
      obtain ⟨k, rest, rfl⟩ := exists_cons_of_ne_nil hne
      obtain ⟨d, m', u', hdel, hm', hsets, hsame, -⟩ := ih (path ++ [k]) (hns k)
        (hcanon.child hkey) hkey.tail (stepsFor_child (by simp) hfuel)
      rw [delete]
      simp only [hdel]
      cases d with
      | false =>
        rw [hsame rfl] at hsets
        exact ⟨_, _, .full ts, rfl, .full hns hf, hsets.full_same hcanon, fun _ => rfl, nofun⟩
      | true =>
        obtain ⟨n', t', hred, hn', hsets', hnh⟩ :=
          reduceFull_rep hE hdb hcanon hkey hns hm' hsets path root
        exact ⟨true, n', t', by simpa using hred, hn', hsets', nofun, fun _ => hnh⟩

end

end Trie

end Geth.Mpt
