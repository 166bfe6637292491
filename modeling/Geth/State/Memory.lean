import Geth.State.Backend
import Mathlib.Algebra.BigOperators.Finprod

/-!
# A backend in memory

The laws of a backend can be met: tries are finite maps, the database is the list of the maps that
have been committed and of the blobs that have been inserted. The hash of a map is a sum over its
entries, so that it does not depend on their order.
-/

namespace Geth.State.Memory

open Lib Function List

/-- A mixing function for byte strings. -/
def mix (b : Bytes) : Nat := b.foldl (fun acc x => (acc * 257 + x.toNat + 1) % 2 ^ 256) 7

/-- The hash of a blob. -/
def keccak (b : Bytes) : Hash := bytesToHash (beBytes (mix b))

/-- A finite map. -/
structure Trie where
  entries : List (Bytes × Bytes)
  nodup : (entries.map Prod.fst).Nodup
  deriving DecidableEq

namespace Trie

/-- No entries. -/
def empty : Trie := ⟨[], .nil⟩

/-- The map without a key. -/
def erase (t : Trie) (key : Bytes) : Trie where
  entries := t.entries.filter fun p => p.1 ≠ key
  nodup := t.nodup.sublist (List.filter_sublist.map _)

/-- The map with a key set. -/
def set (t : Trie) (key value : Bytes) : Trie where
  entries := (key, value) :: (t.erase key).entries
  nodup := by
    rw [List.map_cons, List.nodup_cons]
    refine ⟨fun hmem => ?_, (t.erase key).nodup⟩
    obtain ⟨p, hp, hkey⟩ := List.mem_map.mp hmem
    have := (List.mem_filter.mp hp).2
    simp [hkey] at this

/-- The content of a map. -/
def content (t : Trie) : Content := fun key => t.entries.lookup key

/-- The weight of an entry in the hash. -/
def weight (key value : Bytes) : Nat := mix (key ++ 0 :: value) + 1

/-- The hash of a map. -/
def hash (t : Trie) : Hash :=
  bytesToHash (beBytes (t.entries.map fun p => weight p.1 p.2).sum)

theorem lookup_filter (l : List (Bytes × Bytes)) (key k : Bytes) :
    (l.filter fun p => p.1 ≠ key).lookup k = if k = key then none else l.lookup k := by
  induction l with
  | nil => simp
  | cons p l ih =>
    obtain ⟨k', v⟩ := p
    by_cases hk : k = k'
    · subst hk
      by_cases hkey : k = key
      · rw [filter_cons_of_neg (by simpa using hkey), ih, if_pos hkey, if_pos hkey]
      · rw [filter_cons_of_pos (by simpa using hkey)]
        simp [hkey]
    · have hne : (k == k') = false := beq_eq_false_iff_ne.mpr hk
      have hcons : List.lookup k ((k', v) :: l) = l.lookup k := by rw [lookup_cons, hne]
      rw [hcons, ← ih]
      by_cases hkey : k' = key
      · rw [filter_cons_of_neg (by simpa using hkey)]
      · rw [filter_cons_of_pos (by simpa using hkey), lookup_cons, hne]

theorem content_erase (t : Trie) (key : Bytes) :
    (t.erase key).content = update t.content key none := by
  funext k
  rw [content, erase, lookup_filter]
  by_cases hk : k = key
  · rw [if_pos hk, hk, update_self]
  · rw [if_neg hk, update_of_ne hk]
    rfl

theorem content_set (t : Trie) (key value : Bytes) :
    (t.set key value).content = update t.content key (some value) := by
  funext k
  rw [content, set]
  by_cases hk : k = key
  · subst hk
    simp
  · have hne : (k == key) = false := beq_eq_false_iff_ne.mpr hk
    have := congrFun (t.content_erase key) k
    rw [update_of_ne hk] at this ⊢
    simp only [lookup_cons, hne]
    exact this

theorem lookup_of_mem {l : List (Bytes × Bytes)} (h : (l.map Prod.fst).Nodup) {p : Bytes × Bytes}
    (hp : p ∈ l) : l.lookup p.1 = some p.2 := by
  induction l with
  | nil => cases hp
  | cons q l ih =>
    obtain ⟨k, v⟩ := q
    rw [map_cons, nodup_cons] at h
    rcases mem_cons.mp hp with rfl | hp
    · simp
    · have hne : (p.1 == k) = false :=
        beq_eq_false_iff_ne.mpr fun he => h.1 (mem_map.mpr ⟨p, hp, he⟩)
      rw [lookup_cons, hne]
      exact ih h.2 hp

theorem mem_of_lookup {l : List (Bytes × Bytes)} {key value : Bytes}
    (h : l.lookup key = some value) : key ∈ l.map Prod.fst := by
  induction l with
  | nil => cases h
  | cons q l ih =>
    obtain ⟨k, v⟩ := q
    by_cases hk : key = k
    · simp [hk]
    · have hne : (key == k) = false := beq_eq_false_iff_ne.mpr hk
      rw [lookup_cons, hne] at h
      exact mem_cons_of_mem _ (ih h)

/-- The weight of a key in a content. -/
def weightAt (m : Content) (key : Bytes) : Nat :=
  match m key with
  | some value => weight key value
  | none => 0

/-- The hash as a function of the content. -/
noncomputable def rootOf (m : Content) : Hash := bytesToHash (beBytes (∑ᶠ key, weightAt m key))

theorem sum_eq_finsum (t : Trie) :
    (t.entries.map fun p => weight p.1 p.2).sum = ∑ᶠ key, weightAt t.content key := by
  have hsupport : Function.support (weightAt t.content) ⊆
      ((t.entries.map Prod.fst).toFinset : Set Bytes) := by
    intro key hkey
    rw [mem_support, weightAt] at hkey
    cases hlook : t.content key with
    | none => exact absurd (by rw [hlook]) hkey
    | some value => simpa using mem_of_lookup hlook
  rw [finsum_eq_sum_of_support_subset _ hsupport, sum_toFinset _ t.nodup, map_map]
  congr 1
  apply map_congr_left
  intro p hp
  have hlook : t.content p.1 = some p.2 := lookup_of_mem t.nodup hp
  simp [weightAt, hlook]

theorem hash_eq (t : Trie) : t.hash = rootOf t.content := by
  rw [hash, rootOf, sum_eq_finsum]

end Trie

/-- The maps and the blobs that have been written. -/
structure Db where
  maps : List Trie
  blobs : List (Hash × Bytes)
  deriving DecidableEq

namespace Db

/-- Nothing has been written. -/
def empty : Db := ⟨[], []⟩

/-- The map with a hash; the hash zero is that of the empty map. -/
def openTrie (d : Db) (root : Hash) : Except Unit Trie :=
  if root = Hash.zero then .ok .empty
  else
    match d.maps.find? fun t => t.hash = root with
    | some t => .ok t
    | none => .error ()

theorem openTrie_zero (d : Db) : d.openTrie Hash.zero = .ok .empty := if_pos rfl

/-- The blob with a hash. -/
def node (d : Db) (hash : Hash) : Option Bytes × Option Unit :=
  match d.blobs.lookup hash with
  | some blob => (some blob, none)
  | none => (none, some ())

end Db

/-- The backend. -/
def backend : Backend where
  Db := Db
  Trie := Trie
  Err := Unit
  keccak := keccak
  openTrie := Db.openTrie
  openStorageTrie := fun d _ root => d.openTrie root
  openEmptyTrie := fun _ _ => .empty
  contractCode := fun d _ hash => d.node hash
  contractCodeSize := fun d _ hash => (((d.node hash).1.getD []).length, (d.node hash).2)
  insertBlob := fun d hash blob => { d with blobs := (hash, blob) :: d.blobs }
  tryGet := fun _ t key => ((t.content key).getD [], none, t)
  tryUpdate := fun _ t key value => (none, t.set key value)
  tryDelete := fun _ t key => (none, t.erase key)
  hash := fun t => (t.hash, t)
  commit := fun d t => (.ok t.hash, t, { d with maps := t :: d.maps })

/-! ## The laws -/

/-- No two different maps or blobs have met under one hash. -/
structure Clean (d : Db) : Prop where
  maps : ∀ t ∈ d.maps, ∀ u ∈ d.maps, t.hash = u.hash → t.content = u.content
  zero : ∀ t ∈ d.maps, t.hash = Hash.zero → t.content = fun _ => none
  blobs : ∀ p ∈ d.blobs, ∀ q ∈ d.blobs, p.1 = q.1 → p.2 = q.2
  empty : ∀ p ∈ d.blobs, p.1 = keccak [] → p.2 = []

/-- Absence of collisions as it can be evaluated. -/
def Db.check (d : Db) : Bool :=
  d.maps.all (fun t => d.maps.all fun u => t.hash ≠ u.hash || t.entries = u.entries) &&
  d.maps.all (fun t => t.hash ≠ Hash.zero || t.entries = []) &&
  d.blobs.all (fun p => d.blobs.all fun q => p.1 ≠ q.1 || p.2 = q.2) &&
  d.blobs.all (fun p => p.1 ≠ keccak [] || p.2 = [])

variable {d d' : Db}

theorem clean_of_check (h : d.check = true) : Clean d := by
  simp only [Db.check, Bool.and_eq_true, all_eq_true, Bool.or_eq_true, decide_eq_true_eq,
    ne_eq] at h
  obtain ⟨⟨⟨hmaps, hzero⟩, hblobs⟩, hempty⟩ := h
  refine ⟨fun t ht u hu he => ?_, fun t ht he => ?_, fun p hp q hq he => ?_, fun p hp he => ?_⟩
  · have hentries := (hmaps t ht u hu).resolve_left (not_not.mpr he)
    funext key
    rw [Trie.content, Trie.content, hentries]
  · have hentries := (hzero t ht).resolve_left (not_not.mpr he)
    funext key
    rw [Trie.content, hentries, lookup_nil]
  · exact (hblobs p hp q hq).resolve_left (not_not.mpr he)
  · exact (hempty p hp).resolve_left (not_not.mpr he)

/-- All that is in `d` is in `d'`, too. -/
def Sub (d d' : Db) : Prop := d.maps ⊆ d'.maps ∧ d.blobs ⊆ d'.blobs

/-- The database has grown without a collision. -/
def Le (d d' : Db) : Prop := d = d' ∨ (Sub d d' ∧ Clean d')

theorem Clean.of_sub (h : Clean d') (hs : Sub d d') : Clean d :=
  ⟨fun t ht u hu => h.maps t (hs.1 ht) u (hs.1 hu), fun t ht => h.zero t (hs.1 ht),
    fun p hp q hq => h.blobs p (hs.2 hp) q (hs.2 hq), fun p hp => h.empty p (hs.2 hp)⟩

theorem Le.trans {d'' : Db} (h : Le d d') (h' : Le d' d'') : Le d d'' := by
  rcases h with rfl | ⟨hs, hc⟩
  · exact h'
  · rcases h' with rfl | ⟨hs', hc'⟩
    · exact .inr ⟨hs, hc⟩
    · exact .inr ⟨⟨fun _ ht => hs'.1 (hs.1 ht), fun _ hp => hs'.2 (hs.2 hp)⟩, hc'⟩

theorem openTrie_of_mem (h : Clean d) {t : Trie} (ht : t ∈ d.maps) :
    ∃ u, d.openTrie t.hash = .ok u ∧ u.content = t.content := by
  rw [Db.openTrie]
  split
  · next hz =>
    refine ⟨.empty, rfl, ?_⟩
    rw [h.zero t ht hz]
    rfl
  · cases hf : d.maps.find? fun u => u.hash = t.hash with
    | none =>
      have := List.find?_eq_none.mp hf t ht
      simp at this
    | some u =>
      have hu : u.hash = t.hash := by simpa using List.find?_some hf
      exact ⟨u, rfl, h.maps u (mem_of_find?_eq_some hf) t ht hu⟩

theorem Le.openTrie (h : Le d d') {root : Hash} {t : Trie}
    (ht : d.openTrie root = .ok t) : ∃ u, d'.openTrie root = .ok u ∧ u.content = t.content := by
  rcases h with rfl | ⟨hs, hc⟩
  · exact ⟨t, ht, rfl⟩
  · rw [Db.openTrie] at ht
    split at ht
    · next hz =>
      cases ht
      exact ⟨.empty, by rw [Db.openTrie, if_pos hz], rfl⟩
    · split at ht
      · next hf =>
        cases ht
        have hu : t.hash = root := by simpa using List.find?_some hf
        rw [← hu]
        exact openTrie_of_mem hc (hs.1 (mem_of_find?_eq_some hf))
      · cases ht

theorem node_of_mem (h : Clean d) {p : Hash × Bytes} (hp : p ∈ d.blobs) :
    d.node p.1 = (some p.2, none) := by
  have hlook : d.blobs.lookup p.1 = some p.2 := by
    have hall := h.blobs p hp
    generalize d.blobs = blobs at hp hall
    induction blobs with
    | nil => cases hp
    | cons q qs ih =>
      by_cases hq : p.1 = q.1
      · rw [hall q mem_cons_self hq, hq, lookup_cons, beq_self_eq_true]
      · have hne : (p.1 == q.1) = false := beq_eq_false_iff_ne.mpr hq
        rw [lookup_cons, hne]
        apply ih
        · rcases mem_cons.mp hp with rfl | hp
          · exact absurd rfl hq
          · exact hp
        · exact fun q' hq' => hall q' (mem_cons_of_mem _ hq')
  rw [Db.node, hlook]

theorem mem_of_node {hash : Hash} {c : Bytes} {err : Option Unit}
    (h : d.node hash = (some c, err)) : (hash, c) ∈ d.blobs := by
  rw [Db.node] at h
  split at h
  · next blob hlook =>
    cases h
    generalize d.blobs = blobs at hlook
    induction blobs with
    | nil => cases hlook
    | cons q qs ih =>
      by_cases hq : hash = q.1
      · rw [lookup_cons, hq, beq_self_eq_true] at hlook
        cases hlook
        rw [hq]
        exact mem_cons_self
      · have hne : (hash == q.1) = false := beq_eq_false_iff_ne.mpr hq
        rw [lookup_cons, hne] at hlook
        exact mem_cons_of_mem _ (ih hlook)
  · cases h

theorem sub_commit (d : Db) (t : Trie) : Sub d { d with maps := t :: d.maps } :=
  ⟨fun _ ht => mem_cons_of_mem _ ht, fun _ hp => hp⟩

theorem sub_insertBlob (d : Db) (hash : Hash) (blob : Bytes) :
    Sub d { d with blobs := (hash, blob) :: d.blobs } :=
  ⟨fun _ ht => ht, fun _ hp => mem_cons_of_mem _ hp⟩

/-- The backend in memory is lawful, for all keys: it does not hash them. -/
noncomputable def lawful : Lawful backend where
  keys := fun _ => Set.univ
  content := fun _ => Trie.content
  root := fun _ => Trie.rootOf
  Ok := fun _ _ _ => True
  Le := Le
  Collided := fun d => ¬ Clean d
  mem_keys := fun _ _ => trivial
  tryGet_eq := fun {_ _ t} _ {_} _ => ⟨t, rfl, rfl, trivial⟩
  tryUpdate_eq := fun {_ _ t} _ {key} _ {value} _ => ⟨_, rfl, t.content_set key value, trivial⟩
  tryDelete_eq := fun {_ _ t} _ {key} _ => ⟨_, rfl, t.content_erase key, trivial⟩
  hash_eq := fun {_ _ t} _ => ⟨t, by rw [← t.hash_eq]; rfl, rfl, trivial⟩
  commit_eq := fun {_ d t} _ => by
    refine ⟨t, { d with maps := t :: d.maps }, by rw [← t.hash_eq]; rfl, rfl, fun hc => ?_⟩
    have hc := not_not.mp hc
    obtain ⟨u, hopen, hcontent⟩ := openTrie_of_mem hc (List.mem_cons_self : t ∈ t :: d.maps)
    rw [t.hash_eq] at hopen
    exact ⟨.inr ⟨sub_commit d t, hc⟩, trivial, ⟨u, hopen, hcontent, trivial⟩,
      fun _ => ⟨u, hopen, hcontent, trivial⟩⟩
  collided_commit := fun {d} t h hc => h (hc.of_sub (sub_commit d t))
  collided_insertBlob := fun {d} hash blob h hc => h (hc.of_sub (sub_insertBlob d hash blob))
  insertBlob_eq := fun {d c} hc => by
    have hc := not_not.mp hc
    have hmem : (keccak c, c) ∈ (keccak c, c) :: d.blobs := List.mem_cons_self
    exact ⟨.inr ⟨sub_insertBlob d _ c, hc⟩, fun _ => node_of_mem hc hmem,
      fun he => hc.empty _ hmem he⟩
  openStorageTrie_zero := fun d _ => ⟨Trie.empty, Db.openTrie_zero d, rfl, trivial⟩
  le_refl := fun _ => .inl rfl
  le_trans := Le.trans
  le_ok := fun _ _ => trivial
  le_openStorageTrie := fun hle ht _ => by
    obtain ⟨u, hu, hcontent⟩ := Le.openTrie hle ht
    exact ⟨u, hu, hcontent, trivial⟩
  le_contractCode := fun {d d' a h c} hle hc => by
    rcases hle with rfl | ⟨hs, hclean⟩
    · exact hc
    · exact node_of_mem hclean (hs.2 (mem_of_node hc))

theorem lawful_known (addr : Address) : lawful.Known addr := trivial

theorem lawful_knownSlot (key : Hash) : lawful.KnownSlot key := trivial

theorem lawful_collisionFree : lawful.CollisionFree := ⟨lawful_known, lawful_knownSlot⟩

end Geth.State.Memory
