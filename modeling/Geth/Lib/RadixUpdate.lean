import Geth.Lib.RadixTree

/-!
# Updates of radix trees

`Sets key o t t'` says that `t'` stores `o` under `key`, is otherwise as `t`, and has the form that
is due where `key` is left to be read. The lemmas follow an update from a child to its parent, with
every change of form on the way: a short node that is split, a branch with one child left, two
short nodes that are merged.
-/

namespace Geth.Lib.RadixTree

open Function List

variable {A V : Type} [DecidableEq A] {τ : A} {ok : V → Prop}

/-- The tree `t'` stores `o` under `key` and everything else as `t` does. -/
structure Sets (τ : A) (ok : V → Prop) (key : List A) (o : Option V) (t t' : RadixTree A V) :
    Prop where
  slot : Slot τ ok key t'
  lookup : ∀ x, t'.lookup x = if x = key then o else t.lookup x

variable {key k : List A} {t t' : RadixTree A V} {w : V} {ts : A → RadixTree A V} {o : Option V}
  {b a : A}

omit [DecidableEq A] in
theorem Slot.canon (h : Slot τ ok key t) (hkey : key ≠ []) (ht : t ≠ .nil) : Canon τ ok t := by
  have := h ht
  rwa [if_neg hkey] at this

omit [DecidableEq A] in
theorem Slot.eq_value (h : Slot τ ok [] t) (ht : t ≠ .nil) : ∃ v, ok v ∧ t = .value v := by
  have := h ht
  rwa [if_pos rfl] at this

omit [DecidableEq A] in
theorem slot_nil (key : List A) : Slot τ ok key (.nil : RadixTree A V) := fun h => absurd rfl h

omit [DecidableEq A] in
theorem Canon.slot (h : Canon τ ok t) (hkey : key ≠ []) :
    Slot τ ok key t := by
  intro _
  rwa [if_neg hkey]

omit [DecidableEq A] in
theorem Slot.key_ne_nil (h : Slot τ ok key t) (ht : t ≠ .nil) (hv : ∀ v, t ≠ .value v) :
    key ≠ [] := by
  rintro rfl
  obtain ⟨v, -, rfl⟩ := h.eq_value ht
  exact hv v rfl

omit [DecidableEq A] in
theorem Slot.key_eq_nil {v : V} (h : Slot τ ok key (.value v)) : key = [] := by
  by_contra hne
  cases h.canon hne nofun

omit [DecidableEq A] in
theorem Canon.slot_child {rest : List A} (h : Canon τ ok (.short k t))
    (hkey : Terminated τ (k ++ rest)) : Slot τ ok rest t := by
  cases h with
  | @leaf k v hk hne hv =>
    intro _
    rw [if_pos (hkey.eq_nil_of_append hk hne)]
    exact ⟨v, hv, rfl⟩
  | @ext k ts hk hne hts =>
    apply hts.slot
    rintro rfl
    rw [append_nil] at hkey
    exact hk (hkey.mem hne)

omit [DecidableEq A] in
theorem Canon.key_ne_nil (h : Canon τ ok (.short k t)) : k ≠ [] := by
  cases h <;> assumption

/-! ## Storing a value -/

theorem Sets.value (ht : Slot τ ok [] t) (hw : ok w) : Sets τ ok [] (some w) t (.value w) := by
  refine ⟨fun _ => by rw [if_pos rfl]; exact ⟨w, hw, rfl⟩, fun x => ?_⟩
  rw [lookup_value]
  by_cases hx : x = []
  · rw [if_pos hx, if_pos hx]
  · rw [if_neg hx, if_neg hx]
    by_cases hnil : t = .nil
    · rw [hnil, lookup_nil]
    · obtain ⟨v, -, rfl⟩ := ht.eq_value hnil
      rw [lookup_value, if_neg hx]

theorem Sets.leaf (hkey : Terminated τ key) (hne : key ≠ []) (hw : ok w) :
    Sets τ ok key (some w) .nil (.short key (.value w)) := by
  refine ⟨Canon.slot (.leaf hkey hne hw) hne, fun x => ?_⟩
  rw [lookup_short_value, lookup_nil]

theorem Sets.full_of_full
    (hs : Sets τ ok key (some w) (.full ts) t') (h : Canon τ ok (.full ts)) (hkey : key ≠ []) :
    ∃ ts', t' = .full ts' ∧ Canon τ ok (.full ts') := by
  obtain ⟨a, b, x, y, hab, hx, hy⟩ := h.two_lookups
  have hsome : ∀ z, (full ts).lookup z ≠ none → t'.lookup z ≠ none := by
    intro z hz
    rw [hs.lookup]
    split
    · rintro ⟨⟩
    · exact hz
  have hnil : t' ≠ .nil := by
    rintro rfl
    exact hsome _ hx (lookup_nil _)
  have hc := hs.slot.canon hkey hnil
  cases t' with
  | nil => exact absurd rfl hnil
  | value v => cases hc
  | full ts' => exact ⟨ts', rfl, hc⟩
  | short k t =>
    have hpre := prefix_of_parting (k := []) hab (prefix_of_lookup_short (hsome _ hx))
      (prefix_of_lookup_short (hsome _ hy))
    exact absurd (prefix_nil.mp hpre) hc.key_ne_nil

variable {rest : List A}

theorem Sets.short (hs : Sets τ ok rest (some w) t t')
    (h : Canon τ ok (.short k t)) (hkey : Terminated τ (k ++ rest)) :
    Sets τ ok (k ++ rest) (some w) (.short k t) (.short k t') := by
  refine ⟨Canon.slot ?_ (by simp [h.key_ne_nil]), lookup_short_of_child hs.lookup⟩
  cases h with
  | @leaf k v hk hne hv =>
    obtain rfl := hkey.eq_nil_of_append hk hne
    have hnil : t' ≠ .nil := by
      rintro rfl
      have := hs.lookup []
      cases this
    obtain ⟨w', hw', rfl⟩ := hs.slot.eq_value hnil
    exact .leaf hk hne hw'
  | @ext k ts hk hne hts =>
    have hrest : rest ≠ [] := by
      rintro rfl
      rw [append_nil] at hkey
      exact hk (hkey.mem hne)
    obtain ⟨ts', rfl, hts'⟩ := hs.full_of_full hts hrest
    exact .ext hk hne hts'

theorem Sets.split {p n m : List A} (h : Canon τ ok (.short (p ++ a :: n) t))
    (hm : Terminated τ (p ++ b :: m)) (hab : a ≠ b) (hw : ok w) :
    Sets τ ok (p ++ b :: m) (some w) (.short (p ++ a :: n) t)
      (attach p (fork a (attach n t) b (attach m (.value w)))) :=
  ⟨Canon.slot (h.split hm hab hw) (by simp), lookup_split hab p n m t w⟩

theorem Sets.full
    (hs : Sets τ ok rest (some w) (ts a) t') (h : Canon τ ok (.full ts))
    (hkey : Terminated τ (a :: rest)) :
    Sets τ ok (a :: rest) (some w) (.full ts) (.full (update ts a t')) := by
  have hnil : t' ≠ .nil := by
    rintro rfl
    have := hs.lookup rest
    rw [lookup_nil, if_pos rfl] at this
    cases this
  refine ⟨Canon.slot ((h.children.update hkey hs.slot).canon ?_) (by simp),
    lookup_update_of_child hs.lookup⟩
  have htwo : ∃ b c, b ≠ c ∧ ts b ≠ .nil ∧ ts c ≠ .nil := by cases h; assumption
  obtain ⟨b, c, hbc, hb, hc⟩ := htwo
  refine ⟨b, c, hbc, ?_, ?_⟩ <;> rw [update_apply] <;> split <;> assumption

/-! ## Removing a value -/

theorem Sets.none_of_nil (key : List A) : Sets τ ok key none (.nil : RadixTree A V) .nil :=
  ⟨slot_nil key, fun x => by simp⟩

theorem Sets.none_of_value (v : V) : Sets τ ok [] none (.value v) .nil := by
  refine ⟨slot_nil _, fun x => ?_⟩
  rw [lookup_nil, lookup_value]
  split <;> rfl

theorem Sets.none_of_leaf (k : List A) (v : V) : Sets τ ok k none (.short k (.value v)) .nil := by
  refine ⟨slot_nil _, fun x => ?_⟩
  rw [lookup_nil, lookup_short_value]
  split <;> rfl

theorem Sets.none_of_miss (h : Slot τ ok key (.short k t)) (hk : ¬ k <+: key) :
    Sets τ ok key none (.short k t) (.short k t) := by
  refine ⟨h, fun x => ?_⟩
  split
  · next hx => rw [hx, lookup_short_eq_none _ hk]
  · rfl

theorem Sets.ne_nil_of_full (hs : Sets τ ok key o (.full ts) t') (h : Canon τ ok (.full ts)) :
    t' ≠ .nil := by
  obtain ⟨a, b, x, y, hab, hx, hy⟩ := h.two_lookups
  rintro rfl
  have hkey : ∀ z, (RadixTree.full ts).lookup z ≠ none → z = key := by
    intro z hz
    by_contra hne
    have := hs.lookup z
    rw [lookup_nil, if_neg hne] at this
    exact hz this.symm
  have := (hkey _ hx).trans (hkey _ hy).symm
  exact hab (List.cons.inj this).1

/-- Below a short node the branch may have become a short node; then the two are merged. -/
theorem Sets.merge {rest k' : List A}
    (hs : Sets τ ok rest o t (.short k' t')) (h : Canon τ ok (.short k' t')) (hk : τ ∉ k)
    (hrest : rest ≠ []) : Sets τ ok (k ++ rest) o (.short k t) (.short (k ++ k') t') := by
  refine ⟨Canon.slot (h.prepend hk) (by simp [hrest]), fun x => ?_⟩
  rw [← lookup_short_short]
  exact lookup_short_of_child hs.lookup x

theorem Sets.short_full {ts' : A → RadixTree A V}
    (hs : Sets τ ok rest o t (.full ts')) (h : Canon τ ok (.full ts')) (hk : τ ∉ k) (hne : k ≠ []) :
    Sets τ ok (k ++ rest) o (.short k t) (.short k (.full ts')) :=
  ⟨Canon.slot (.ext hk hne h) (by simp [hne]), lookup_short_of_child hs.lookup⟩

theorem Sets.short_same (hs : Sets τ ok rest o t t) (h : Canon τ ok (.short k t)) :
    Sets τ ok (k ++ rest) o (.short k t) (.short k t) :=
  ⟨h.slot (by simp [h.key_ne_nil]), lookup_short_of_child hs.lookup⟩

theorem Sets.full_same
    (hs : Sets τ ok rest o (ts a) (ts a)) (h : Canon τ ok (.full ts)) :
    Sets τ ok (a :: rest) o (.full ts) (.full ts) := by
  refine ⟨h.slot (by simp), fun x => ?_⟩
  have := lookup_update_of_child hs.lookup x
  rwa [update_eq_self] at this

section Remove

variable {ts : A → RadixTree A V} {a : A} {rest : List A} {o : Option V} {t' : RadixTree A V}

theorem Sets.full_many (hs : Sets τ ok rest o (ts a) t') (h : Canon τ ok (.full ts))
    (hkey : Terminated τ (a :: rest))
    (htwo : ∃ b c, b ≠ c ∧ update ts a t' b ≠ .nil ∧ update ts a t' c ≠ .nil) :
    Sets τ ok (a :: rest) o (.full ts) (.full (update ts a t')) :=
  ⟨Canon.slot ((h.children.update hkey hs.slot).canon htwo) (by simp),
    lookup_update_of_child hs.lookup⟩

theorem Sets.full_sole {u : RadixTree A V} (hs : Sets τ ok rest o (ts a) t')
    (hsole : ∀ c, c ≠ b → update ts a t' c = .nil) (hu : Canon τ ok u)
    (hlookup : ∀ x, u.lookup x = (RadixTree.short [b] (update ts a t' b)).lookup x) :
    Sets τ ok (a :: rest) o (.full ts) u := by
  refine ⟨hu.slot (by simp), fun x => ?_⟩
  rw [hlookup, ← lookup_sole hsole]
  exact lookup_update_of_child hs.lookup x

theorem Sets.full_sole_short {k : List A} {t : RadixTree A V}
    (hs : Sets τ ok rest o (ts a) t') (h : Canon τ ok (.full ts)) (hkey : Terminated τ (a :: rest))
    (hsole : ∀ c, c ≠ b → update ts a t' c = .nil) (hb : b ≠ τ)
    (hchild : update ts a t' b = .short k t) :
    Sets τ ok (a :: rest) o (.full ts) (.short (b :: k) t) := by
  have hc := (h.children.update hkey hs.slot).canon_child hb (by rw [hchild]; exact nofun)
  rw [hchild] at hc
  refine hs.full_sole hsole (hc.prepend (p := [b]) (by simpa using Ne.symm hb)) fun x => ?_
  rw [hchild, lookup_short_short]
  rfl

theorem Sets.full_sole_other (hs : Sets τ ok rest o (ts a) t') (h : Canon τ ok (.full ts))
    (hkey : Terminated τ (a :: rest)) (hsole : ∀ c, c ≠ b → update ts a t' c = .nil)
    (hne : update ts a t' b ≠ .nil) (hchild : ∀ k t, update ts a t' b ≠ .short k t) :
    Sets τ ok (a :: rest) o (.full ts) (.short [b] (update ts a t' b)) := by
  have hch := h.children.update hkey hs.slot
  refine hs.full_sole hsole ?_ fun x => rfl
  by_cases hb : b = τ
  · subst hb
    obtain ⟨v, hv, heq⟩ := hch.value_child hne
    rw [heq]
    exact .leaf ⟨by simp, trivial⟩ (by simp) hv
  · have hc := hch.canon_child hb hne
    cases hu : update ts a t' b with
    | nil => exact absurd hu hne
    | value v =>
      rw [hu] at hc
      cases hc
    | short k t => exact absurd hu (hchild k t)
    | full ts' =>
      rw [hu] at hc
      exact .ext (by simpa using Ne.symm hb) (by simp) hc

end Remove

end Geth.Lib.RadixTree
