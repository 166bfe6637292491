import Mathlib.Data.List.Infix

/-!
# Radix trees with a terminator

A radix tree over an alphabet `A` stores a finite map from words to values. Words that end in a
terminator `τ` and have it nowhere else are prefix-free, so that a value can only sit behind a
terminator. `Canon` is the canonical form: short nodes are not chained and every branch has at least
two children. There is only one canonical tree for a map (`Canon.unique`). The rest of the module
says what the local changes of an insertion or deletion do to the map and to the form.
-/

namespace Geth.Lib

open Function List

/-- A radix tree: a short node leads to its child by a word, a full node branches on a letter. -/
inductive RadixTree (A V : Type) where
  | nil
  | value (v : V)
  | short (key : List A) (val : RadixTree A V)
  | full (children : A → RadixTree A V)

/-- The terminator ends the word and occurs nowhere else in it. The empty word, what is left of a
word behind its terminator, counts as terminated. -/
def Terminated {A : Type} (τ : A) : List A → Prop
  | [] => True
  | a :: key => (a = τ ↔ key = []) ∧ Terminated τ key

section Words

variable {A : Type} {τ : A}

variable {a : A} {key p : List A}

theorem Terminated.tail (h : Terminated τ (a :: key)) : Terminated τ key :=
  h.2

theorem Terminated.drop (h : Terminated τ (p ++ key)) : Terminated τ key := by
  induction p with
  | nil => exact h
  | cons a p ih => exact ih h.2

theorem Terminated.notMem (h : Terminated τ (p ++ a :: key)) : τ ∉ p := by
  induction p with
  | nil => simp
  | cons b p ih =>
    intro hmem
    rcases mem_cons.mp hmem with rfl | hmem
    · have := h.1.mp rfl
      simp at this
    · exact ih h.2 hmem

theorem terminated_append (hp : τ ∉ p) (hkey : Terminated τ key) (hne : key ≠ []) :
    Terminated τ (p ++ key) := by
  induction p with
  | nil => exact hkey
  | cons a p ih =>
    rw [mem_cons, not_or] at hp
    refine ⟨?_, ih hp.2⟩
    constructor
    · intro ha
      exact absurd ha.symm hp.1
    · intro hnil
      exact absurd (append_eq_nil_iff.mp hnil).2 hne

theorem Terminated.eq_nil_of_append {rest : List A} (h : Terminated τ (key ++ rest))
    (hkey : Terminated τ key) (hne : key ≠ []) : rest = [] := by
  induction key with
  | nil => exact absurd rfl hne
  | cons a key ih =>
    by_cases hnil : key = []
    · subst hnil
      exact h.1.mp (hkey.1.mpr rfl)
    · exact ih h.2 hkey.2 hnil

theorem Terminated.mem (h : Terminated τ key) (hne : key ≠ []) : τ ∈ key := by
  induction key with
  | nil => exact absurd rfl hne
  | cons a key ih =>
    by_cases hnil : key = []
    · rw [h.1.mpr hnil]
      exact mem_cons_self
    · exact mem_cons_of_mem _ (ih h.2 hnil)

theorem prefix_of_parting {k k' x y : List A} {b : A} (hab : a ≠ b) (ha : k' <+: k ++ a :: x)
    (hb : k' <+: k ++ b :: y) : k' <+: k := by
  rcases prefix_or_prefix_of_prefix ha (prefix_append k (a :: x)) with h | ⟨c, rfl⟩
  · exact h
  · rw [prefix_append_right_inj] at ha hb
    cases c with
    | nil => rw [append_nil]
    | cons c cs =>
      rw [cons_prefix_cons] at ha hb
      exact absurd (ha.1.symm.trans hb.1) hab

end Words

namespace RadixTree

variable {A V : Type} [DecidableEq A]

/-- The value stored under a word. -/
def lookup : RadixTree A V → List A → Option V
  | .nil, _ => none
  | .value v, [] => some v
  | .value _, _ :: _ => none
  | .short k t, key => if k <+: key then t.lookup (key.drop k.length) else none
  | .full _, [] => none
  | .full ts, a :: key => (ts a).lookup key

@[simp] theorem lookup_nil (key : List A) : (nil : RadixTree A V).lookup key = none := by
  rw [lookup]

@[simp] theorem lookup_full_cons (ts : A → RadixTree A V) (a : A) (key : List A) :
    (full ts).lookup (a :: key) = (ts a).lookup key := by
  rw [lookup]

@[simp] theorem lookup_full_nil (ts : A → RadixTree A V) : (full ts).lookup [] = none := by
  rw [lookup]

theorem lookup_value (v : V) (key : List A) :
    (value v : RadixTree A V).lookup key = if key = [] then some v else none := by
  cases key <;> simp [lookup]

theorem lookup_short (k : List A) (t : RadixTree A V) (key : List A) :
    (short k t).lookup key = if k <+: key then t.lookup (key.drop k.length) else none := by
  rw [lookup]

@[simp] theorem lookup_short_append (k : List A) (t : RadixTree A V) (key : List A) :
    (short k t).lookup (k ++ key) = t.lookup key := by
  rw [lookup_short, if_pos (prefix_append k key), drop_left]

variable {k key : List A} {t : RadixTree A V} {a : A}

theorem lookup_short_eq_none (t : RadixTree A V) (h : ¬ k <+: key) :
    (short k t).lookup key = none := by
  rw [lookup_short, if_neg h]

theorem prefix_of_lookup_short (h : (short k t).lookup key ≠ none) : k <+: key := by
  by_contra hk
  exact h (lookup_short_eq_none t hk)

theorem lookup_short_value (k : List A) (v : V) (key : List A) :
    (short k (value v)).lookup key = if key = k then some v else none := by
  by_cases hk : k <+: key
  · obtain ⟨rest, rfl⟩ := hk
    rw [lookup_short_append, lookup_value]
    simp
  · rw [lookup_short_eq_none _ hk, if_neg]
    rintro rfl
    exact hk (prefix_refl _)

theorem lookup_short_short (k k' : List A) (t : RadixTree A V) (key : List A) :
    (short k (short k' t)).lookup key = (short (k ++ k') t).lookup key := by
  by_cases hk : k <+: key
  · obtain ⟨rest, rfl⟩ := hk
    rw [lookup_short_append, lookup_short, lookup_short]
    simp [← drop_drop]
  · rw [lookup_short_eq_none _ hk, lookup_short_eq_none]
    exact fun h => hk ((prefix_append k k').trans h)

/-! ## Canonical form -/

/-- The canonical form of a tree that is not empty. Values satisfy `ok`. -/
inductive Canon (τ : A) (ok : V → Prop) : RadixTree A V → Prop
  | leaf {key : List A} {v : V} (hkey : Terminated τ key) (hne : key ≠ []) (hv : ok v) :
      Canon τ ok (.short key (.value v))
  | ext {key : List A} {ts : A → RadixTree A V} (hkey : τ ∉ key) (hne : key ≠ [])
      (hts : Canon τ ok (.full ts)) : Canon τ ok (.short key (.full ts))
  | branch {ts : A → RadixTree A V} (hts : ∀ a, a ≠ τ → ts a ≠ .nil → Canon τ ok (ts a))
      (hval : ts τ ≠ .nil → ∃ v, ok v ∧ ts τ = .value v)
      (htwo : ∃ a b, a ≠ b ∧ ts a ≠ .nil ∧ ts b ≠ .nil) : Canon τ ok (.full ts)

/-- What may stand where the word `key` is left to be read. -/
def Slot (τ : A) (ok : V → Prop) (key : List A) (t : RadixTree A V) : Prop :=
  t ≠ .nil → if key = [] then ∃ v, ok v ∧ t = .value v else Canon τ ok t

section Canon

variable {τ : A} {ok : V → Prop}

variable {t : RadixTree A V} {ts : A → RadixTree A V}

omit [DecidableEq A] in
theorem Canon.ne_nil (h : Canon τ ok t) : t ≠ .nil := by
  cases h <;> simp

theorem Canon.child (h : Canon τ ok (.full ts)) {a : A} {key : List A}
    (hkey : Terminated τ (a :: key)) : Slot τ ok key (ts a) := by
  intro hne
  cases h with
  | branch hts hval htwo =>
    by_cases ha : a = τ
    · rw [if_pos (hkey.1.mp ha)]
      subst ha
      exact hval hne
    · rw [if_neg fun hnil => ha (hkey.1.mpr hnil)]
      exact hts a ha hne

theorem Canon.exists_lookup (h : Canon τ ok t) : ∃ key, t.lookup key ≠ none := by
  induction h with
  | @leaf key v hkey hne hv => exact ⟨key, by simp [lookup_short_value]⟩
  | @ext key ts hkey hne hts ih =>
    obtain ⟨rest, hrest⟩ := ih
    exact ⟨key ++ rest, by rwa [lookup_short_append]⟩
  | @branch ts hts hval htwo ih =>
    obtain ⟨a, -, -, ha, -⟩ := htwo
    by_cases hτ : a = τ
    · subst hτ
      obtain ⟨v, -, hv⟩ := hval ha
      exact ⟨[a], by simp [hv, lookup_value]⟩
    · obtain ⟨key, hkey⟩ := ih a hτ ha
      exact ⟨a :: key, by rwa [lookup_full_cons]⟩

theorem Canon.child_lookup (h : Canon τ ok (.full ts)) {a : A} (ha : ts a ≠ .nil) :
    ∃ key, (ts a).lookup key ≠ none := by
  cases h with
  | branch hts hval htwo =>
    by_cases hτ : a = τ
    · subst hτ
      obtain ⟨v, -, hv⟩ := hval ha
      exact ⟨[], by simp [hv, lookup_value]⟩
    · exact (hts a hτ ha).exists_lookup

theorem Canon.two_lookups (h : Canon τ ok (.full ts)) :
    ∃ a b x y, a ≠ b ∧ (full ts).lookup (a :: x) ≠ none ∧ (full ts).lookup (b :: y) ≠ none := by
  have htwo : ∃ a b, a ≠ b ∧ ts a ≠ .nil ∧ ts b ≠ .nil := by cases h; assumption
  obtain ⟨a, b, hab, ha, hb⟩ := htwo
  obtain ⟨x, hx⟩ := h.child_lookup ha
  obtain ⟨y, hy⟩ := h.child_lookup hb
  exact ⟨a, b, x, y, hab, by rwa [lookup_full_cons], by rwa [lookup_full_cons]⟩

theorem Canon.not_single (h : Canon τ ok (.full ts)) (k key : List A) (v : V)
    (heq : ∀ x, (short k (full ts)).lookup x = if x = key then some v else none) :
    False := by
  obtain ⟨a, b, x, y, hab, hx, hy⟩ := h.two_lookups
  have hsingle : ∀ z, (full ts).lookup z ≠ none → k ++ z = key := by
    intro z hz
    by_contra hne
    have := heq (k ++ z)
    rw [lookup_short_append, if_neg hne] at this
    exact hz this
  have := (hsingle _ hx).trans (hsingle _ hy).symm
  rw [append_cancel_left_eq, List.cons.injEq] at this
  exact hab this.1

theorem Canon.prefix_of_short (h : Canon τ ok (.full ts)) (k k' : List A) (t' : RadixTree A V)
    (heq : ∀ x, (short k (full ts)).lookup x = (short k' t').lookup x) :
    k' <+: k := by
  obtain ⟨a, b, x, y, hab, hx, hy⟩ := h.two_lookups
  refine prefix_of_parting hab (x := x) (y := y) (prefix_of_lookup_short (t := t') ?_)
    (prefix_of_lookup_short (t := t') ?_)
  · rwa [← heq, lookup_short_append]
  · rwa [← heq, lookup_short_append]

theorem lookup_short_nil (t : RadixTree A V) (key : List A) :
    (short [] t).lookup key = t.lookup key :=
  lookup_short_append [] t key

theorem Canon.unique {t' : RadixTree A V} (h : Canon τ ok t) (h' : Canon τ ok t')
    (heq : ∀ key, t.lookup key = t'.lookup key) : t = t' := by
  induction h generalizing t' with
  | @leaf key v hkey hne hv =>
    have hsingle : ∀ x, t'.lookup x = if x = key then some v else none := by
      intro x
      rw [← heq, lookup_short_value]
    cases h' with
    | @leaf key' v' hkey' hne' hv' =>
      have hx := hsingle key
      rw [lookup_short_value, if_pos rfl] at hx
      split at hx
      · next hk =>
        cases hx
        rw [hk]
      · cases hx
    | @ext key' ts' hkey' hne' hts' => exact (hts'.not_single _ _ _ hsingle).elim
    | @branch ts' hts' hval' htwo' =>
      refine (Canon.not_single (.branch hts' hval' htwo') [] key v fun x => ?_).elim
      exact hsingle x
  | @ext key ts hkey hne hts ih =>
    cases h' with
    | @leaf key' v' hkey' hne' hv' =>
      exact (hts.not_single key key' v' fun x => by rw [heq, lookup_short_value]).elim
    | @ext key' ts' hkey' hne' hts' =>
      have hk : key = key' := by
        have h1 := hts.prefix_of_short _ _ _ heq
        have h2 := hts'.prefix_of_short _ _ _ fun x => (heq x).symm
        exact h2.eq_of_length (Nat.le_antisymm h2.length_le h1.length_le)
      subst hk
      rw [ih hts' fun x => by
        have := heq (key ++ x)
        rwa [lookup_short_append, lookup_short_append] at this]
    | @branch ts' hts' hval' htwo' =>
      have hpre := Canon.prefix_of_short (.branch hts' hval' htwo') [] key (.full ts) fun x => by
        rw [lookup_short_nil, heq]
      exact absurd (prefix_nil.mp hpre) hne
  | @branch ts hts hval htwo ih =>
    cases h' with
    | @leaf key' v' hkey' hne' hv' =>
      refine (Canon.not_single (.branch hts hval htwo) [] key' v' fun x => ?_).elim
      rw [lookup_short_nil, heq, lookup_short_value]
    | @ext key' ts' hkey' hne' hts' =>
      have hpre := Canon.prefix_of_short (.branch hts hval htwo) [] key' (.full ts') fun x => by
        rw [lookup_short_nil, heq]
      exact absurd (prefix_nil.mp hpre) hne'
    | @branch ts' hts' hval' htwo' =>
      congr 1
      funext a
      have hc : ∀ key, (ts a).lookup key = (ts' a).lookup key := by
        intro key
        have := heq (a :: key)
        rwa [lookup_full_cons, lookup_full_cons] at this
      by_cases hnil : ts a = .nil
      · by_contra hne
        have hne' : ts' a ≠ .nil := fun h => hne (hnil.trans h.symm)
        obtain ⟨key, hkey⟩ := Canon.child_lookup (.branch hts' hval' htwo') hne'
        rw [← hc, hnil, lookup_nil] at hkey
        exact hkey rfl
      · have hnil' : ts' a ≠ .nil := by
          intro hnil'
          obtain ⟨key, hkey⟩ := Canon.child_lookup (.branch hts hval htwo) hnil
          rw [hc, hnil', lookup_nil] at hkey
          exact hkey rfl
        by_cases hτ : a = τ
        · subst hτ
          obtain ⟨v, -, hv⟩ := hval hnil
          obtain ⟨v', -, hv'⟩ := hval' hnil'
          have := hc []
          rw [hv, hv', lookup_value, lookup_value, if_pos rfl, if_pos rfl] at this
          rw [hv, hv', Option.some.inj this]
        · exact ih a hτ hnil (hts' a hτ hnil') hc

end Canon

/-! ## Local changes -/

/-- The tree `t` below the word `key`. -/
def attach (key : List A) (t : RadixTree A V) : RadixTree A V :=
  match key with
  | [] => t
  | a :: key => .short (a :: key) t

/-- A branch with two children. -/
def fork (a : A) (t : RadixTree A V) (b : A) (u : RadixTree A V) : RadixTree A V :=
  .full (Function.update (Function.update (fun _ => .nil) a t) b u)

theorem lookup_attach (k : List A) (t : RadixTree A V) (key : List A) :
    (attach k t).lookup key = (short k t).lookup key := by
  cases k with
  | nil => rw [attach, lookup_short_nil]
  | cons a k => rw [attach]

theorem lookup_update (ts : A → RadixTree A V) (a : A) (t : RadixTree A V) (b : A) (key : List A) :
    (full (update ts a t)).lookup (b :: key) =
      if b = a then t.lookup key else (ts b).lookup key := by
  rw [lookup_full_cons, update_apply]
  split <;> rfl

theorem lookup_update_of_child {ts : A → RadixTree A V} {o : Option V}
    (h : ∀ x, t.lookup x = if x = key then o else (ts a).lookup x) (x : List A) :
    (full (update ts a t)).lookup x =
      if x = a :: key then o else (full ts).lookup x := by
  cases x with
  | nil => simp
  | cons b x =>
    rw [lookup_update, lookup_full_cons]
    by_cases hb : b = a
    · subst hb
      rw [if_pos rfl, h]
      simp
    · rw [if_neg hb, if_neg]
      intro heq
      exact hb (List.cons.inj heq).1

theorem lookup_short_of_child {t' : RadixTree A V} {o : Option V}
    (h : ∀ x, t'.lookup x = if x = key then o else t.lookup x) (x : List A) :
    (short k t').lookup x = if x = k ++ key then o else (short k t).lookup x := by
  by_cases hk : k <+: x
  · obtain ⟨rest, rfl⟩ := hk
    simp [lookup_short_append, h]
  · rw [lookup_short_eq_none _ hk, lookup_short_eq_none _ hk, if_neg]
    rintro rfl
    exact hk (prefix_append k key)

theorem lookup_split {b : A} (hab : a ≠ b) (p n m : List A) (t : RadixTree A V) (w : V) (x : List A)
    :
    (attach p (fork a (attach n t) b (attach m (value w)))).lookup x =
      if x = p ++ b :: m then some w else (short (p ++ a :: n) t).lookup x := by
  rw [lookup_attach]
  by_cases hp : p <+: x
  · obtain ⟨rest, rfl⟩ := hp
    rw [lookup_short_append, ← lookup_short_short, lookup_short_append, fork]
    simp only [append_cancel_left_eq]
    cases rest with
    | nil =>
      rw [lookup_full_nil, if_neg (by simp), lookup_short_eq_none]
      simp
    | cons c rest =>
      rw [lookup_update]
      by_cases hcb : c = b
      · subst hcb
        rw [if_pos rfl, lookup_attach, lookup_short_value, lookup_short_eq_none]
        · simp
        · rw [cons_prefix_cons]
          exact fun h => hab h.1
      · rw [if_neg hcb, if_neg fun h => hcb (List.cons.inj h).1, update_apply]
        by_cases hca : c = a
        · subst hca
          rw [if_pos rfl, lookup_attach]
          have : (short (c :: n) t).lookup (c :: rest) =
              (short [c] (short n t)).lookup ([c] ++ rest) := by
            rw [lookup_short_short]
            rfl
          rw [this, lookup_short_append]
        · rw [if_neg hca, lookup_nil, lookup_short_eq_none]
          rw [cons_prefix_cons]
          exact fun h => hca h.1.symm
  · rw [lookup_short_eq_none _ hp, lookup_short_eq_none, if_neg]
    · rintro rfl
      exact hp (prefix_append p _)
    · exact fun h => hp ((prefix_append p _).trans h)

theorem lookup_sole {ts : A → RadixTree A V} (h : ∀ b, b ≠ a → ts b = .nil) (x : List A) :
    (full ts).lookup x = (short [a] (ts a)).lookup x := by
  cases x with
  | nil =>
    rw [lookup_full_nil, lookup_short_eq_none]
    simp
  | cons b x =>
    rw [lookup_full_cons]
    by_cases hb : b = a
    · subst hb
      exact (lookup_short_append [b] (ts b) x).symm
    · rw [h b hb, lookup_nil, lookup_short_eq_none]
      rw [cons_prefix_cons]
      exact fun hab => hb hab.1.symm

section Canon

variable {τ : A} {ok : V → Prop}

variable {p n : List A} {t : RadixTree A V} {a : A} {ts : A → RadixTree A V}

omit [DecidableEq A] in
theorem Canon.prepend {k : List A} (h : Canon τ ok (.short k t)) (hp : τ ∉ p) :
    Canon τ ok (.short (p ++ k) t) := by
  cases h with
  | leaf hkey hne hv => exact .leaf (terminated_append hp hkey hne) (by simp [hne]) hv
  | ext hkey hne hts =>
    exact .ext (fun hmem => (mem_append.mp hmem).elim hp hkey) (by simp [hne]) hts

omit [DecidableEq A] in
theorem Canon.slot_attach (h : Canon τ ok (.short (p ++ a :: n) t)) :
    attach n t ≠ .nil ∧ (a ≠ τ → Canon τ ok (attach n t)) ∧
      (a = τ → ∃ v, ok v ∧ attach n t = .value v) := by
  cases h with
  | @leaf key v hkey hne hv =>
    have hterm := Terminated.drop hkey
    cases n with
    | nil => exact ⟨by simp [attach], fun ha => absurd (hterm.1.mpr rfl) ha, fun _ => ⟨v, hv, rfl⟩⟩
    | cons c n =>
      refine ⟨by simp [attach], fun _ => .leaf hterm.2 (by simp) hv, fun ha => ?_⟩
      have := hterm.1.mp ha
      simp at this
  | @ext key ts hkey hne hts =>
    have ha : τ ≠ a := fun ha => hkey (by simp [ha])
    cases n with
    | nil => exact ⟨by simp [attach], fun _ => hts, fun h => absurd h.symm ha⟩
    | cons c n =>
      refine ⟨by simp [attach], fun _ => .ext (fun hmem => hkey ?_) (by simp) hts,
        fun h => absurd h.symm ha⟩
      simp only [mem_append, mem_cons] at hmem ⊢
      tauto

omit [DecidableEq A] in
theorem Canon.notMem_split (h : Canon τ ok (.short (p ++ a :: n) t)) : τ ∉ p := by
  cases h with
  | leaf hkey hne hv => exact hkey.notMem
  | ext hkey hne hts => exact fun hmem => hkey (by simp [hmem])

omit [DecidableEq A] in
theorem Canon.attach (h : Canon τ ok (.full ts)) (hp : τ ∉ p) :
    Canon τ ok (RadixTree.attach p (.full ts)) := by
  cases p with
  | nil => exact h
  | cons a p => exact .ext hp (by simp) h

theorem Canon.split {m : List A} {b : A} {w : V} (h : Canon τ ok (.short (p ++ a :: n) t))
    (hm : Terminated τ (p ++ b :: m)) (hab : a ≠ b) (hw : ok w) :
    Canon τ ok (RadixTree.attach p
      (fork a (RadixTree.attach n t) b (RadixTree.attach m (.value w)))) := by
  obtain ⟨hane, hacanon, haval⟩ := h.slot_attach
  have hleaf : Canon τ ok (.short (p ++ b :: m) (.value w)) := .leaf hm (by simp) hw
  obtain ⟨hbne, hbcanon, hbval⟩ := hleaf.slot_attach
  refine Canon.attach (.branch ?_ ?_ ?_) h.notMem_split
  · intro c hc hne
    rw [update_apply, update_apply] at hne ⊢
    split at hne
    · next hcb =>
      rw [if_pos hcb]
      exact hbcanon (hcb ▸ hc)
    · next hcb =>
      rw [if_neg hcb]
      split at hne
      · next hca =>
        rw [if_pos hca]
        exact hacanon (hca ▸ hc)
      · exact absurd rfl hne
  · intro hne
    rw [update_apply, update_apply] at hne ⊢
    split at hne
    · next hcb =>
      rw [if_pos hcb]
      exact hbval hcb.symm
    · next hcb =>
      rw [if_neg hcb]
      split at hne
      · next hca =>
        rw [if_pos hca]
        exact haval hca.symm
      · exact absurd rfl hne
  · refine ⟨a, b, hab, ?_, ?_⟩
    · rwa [update_of_ne hab, update_self]
    · rwa [update_self]

/-- The children of a branch that may have become too few. -/
def Children (τ : A) (ok : V → Prop) (ts : A → RadixTree A V) : Prop :=
  ∀ a key, Terminated τ (a :: key) → Slot τ ok key (ts a)

omit [DecidableEq A] in
theorem Children.canon_child (h : Children τ ok ts) (ha : a ≠ τ) (hne : ts a ≠ .nil) :
    Canon τ ok (ts a) := by
  have := h a [τ] ⟨by simp [ha], by simp [Terminated]⟩ hne
  simpa using this

omit [DecidableEq A] in
theorem Children.value_child (h : Children τ ok ts) (hne : ts τ ≠ .nil) :
    ∃ v, ok v ∧ ts τ = .value v := by
  have := h τ [] ⟨by simp, trivial⟩ hne
  simpa using this

theorem Canon.children (h : Canon τ ok (.full ts)) :
    Children τ ok ts := fun _ _ hkey => h.child hkey

theorem Children.update (h : Children τ ok ts) {key : List A} (hkey : Terminated τ (a :: key))
    (ht : Slot τ ok key t) :
    Children τ ok (update ts a t) := by
  intro b x hx
  rw [update_apply]
  split
  · next hb =>
    subst hb
    have hnil : key = [] ↔ x = [] := hkey.1.symm.trans hx.1
    intro hne
    have := ht hne
    simpa [hnil] using this
  · exact h b x hx

omit [DecidableEq A] in
theorem Children.canon (h : Children τ ok ts) (htwo : ∃ a b, a ≠ b ∧ ts a ≠ .nil ∧ ts b ≠ .nil) :
    Canon τ ok (.full ts) :=
  .branch (fun _ ha hne => h.canon_child ha hne) h.value_child htwo

end Canon

end RadixTree

end Geth.Lib
