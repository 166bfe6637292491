import Geth.Lib.RadixWalk
import Geth.Mpt.Iterator
import Geth.Mpt.Verify.FiniteMap

/-!
# What an iteration yields

The iterator visits the nodes of the tree that the trie stands for in preorder, so what is left of
an iteration is a list of visits, of which each step takes the first. Seeking drops those whose path
is smaller than the start. Nodes may be missing from the database; then an error is reported.
-/

namespace Geth.Mpt

open Lib Option List

/-- Visits that are left: the paths, with the values at the leaves. -/
abbrev Visits := List (Hex × Option Bytes)

/-- The visits of a tree below a path. -/
abbrev Tree.visits (t : Tree) (path : Hex) : Visits := t.walk (List.finRange 17) path

/-- The visits of a tree below a path after the tree itself and its first `index` children. -/
abbrev Tree.rest (t : Tree) (index : Nat) (path : Hex) : Visits :=
  t.later (List.finRange 17) index path

/-- The visits of a trie: the root is visited even if there is none. -/
def Tree.rootVisits (t : Tree) : Visits := ([], t.val?) :: t.rest 0 []

/-- The visits that are not before the start. -/
def Visits.since (left : Visits) (hex : Hex) : Visits := left.dropWhile fun x => decide (x.1 < hex)

theorem Visits.since_cons (x : Hex × Option Bytes) (left : Visits) (hex : Hex) :
    Visits.since (x :: left) hex = if x.1 < hex then left.since hex else x :: left := by
  simp [Visits.since, dropWhile_cons]

/-- The value of a node. -/
def Node.value? {K F : Type} : Node K F → Option Bytes
  | .value v => some v
  | _ => none

/-! ## Nodes that may be missing -/

theorem Database.node_eq_none_iff {db : Database} {h : Hash} (hz : h ≠ Hash.zero) {gen : UInt16} :
    db.node h gen = none ↔ db.blob h = none := by
  rw [Database.node, if_neg hz, Database.blob]
  cases db.nodes.lookup h with
  | some n => exact iff_of_false (by rintro ⟨⟩) (by rintro ⟨⟩)
  | none => exact map_eq_none_iff

/-- A map and its tree, the whole database of a trie that stands for it and what is left of that. -/
structure Setting where
  keccak : Bytes → Hash
  E : Set Bytes
  whole : Database
  db : Database
  gen : UInt16
  m : Bytes → Option Bytes
  t : Tree
  hashOn : HashOn keccak E
  sound : whole.Sound keccak E
  soundLeft : db.Sound keccak E
  part : db.Keeps whole
  stores : Stores t m

namespace Setting

variable (S : Setting)

/-- The node stands for the tree, except that the database may have lost nodes. -/
inductive Covers : LiveNode → Tree → Prop
  | nil : Covers .nil .nil
  | value {v : Bytes} : Covers (.value v) (.value v)
  | hash {h : Hash} {t : Tree} (hne : t ≠ .nil)
      (hload : ∀ n, S.db.node h S.gen = some (some n) → Covers n t)
      (hnot : ∀ h', S.db.node h S.gen ≠ some (some (.hash h')))
      (hreturns : S.db.node h S.gen ≠ some none)
      (hthere : S.whole.Keeps S.db → S.db.node h S.gen ≠ none) : Covers (.hash h) t
  | short {key : Hex} {n : LiveNode} {t : Tree} {flags : NodeFlag} (hne : t ≠ .nil)
      (hn : Covers n t) : Covers (.short key n flags) (.short key t)
  | full {ns : Fin 17 → LiveNode} {ts : Fin 17 → Tree} {flags : NodeFlag}
      (hn : ∀ i, Covers (ns i) (ts i)) : Covers (.full ns flags) (.full ts)

/-- The error is that of a node that the database has lost. -/
def Lost (err : TrieErr) : Prop :=
  ¬ S.whole.Keeps S.db ∧ ∃ h path, err = .missingNode h path ∧ S.db.blob h = none

variable {S}

variable {t : Tree} {n : LiveNode} {tr : Trie} {it : NodeIterator} {left : Visits} {hex : Hex}
  {key v : Bytes} {fuel : Nat}

theorem node_cases (hc : CanonTree t) (hold : Holds S.keccak S.whole t) :
    (S.db.node (S.keccak (encTree S.keccak t)) S.gen = none ∧ ¬ S.whole.Keeps S.db) ∨
      S.db.node (S.keccak (encTree S.keccak t)) S.gen =
        some (some (loaded S.keccak S.gen (some (S.keccak (encTree S.keccak t))) t)) := by
  cases hblob : S.db.blob (S.keccak (encTree S.keccak t)) with
  | some b =>
    obtain rfl : encTree S.keccak t = b := Option.some.inj (hold.symm.trans (S.part hblob))
    exact .inr (S.soundLeft.node_eq S.hashOn hc hblob S.gen)
  | none =>
    have hz := S.hashOn.ne_zero _ (S.sound.holds_mem hold)
    refine .inl ⟨(Database.node_eq_none_iff hz).2 hblob, fun hkeeps => ?_⟩
    rw [hkeeps hold] at hblob
    cases hblob

/-- A tree that may stand below a node. -/
def Proper (t : Tree) : Prop := t = .nil ∨ (∃ v, t = .value v) ∨ CanonTree t

theorem Proper.canon (h : Proper t) (hnil : t ≠ .nil) (hval : ∀ v, t ≠ .value v) : CanonTree t :=
  (h.resolve_left hnil).resolve_left fun ⟨v, hv⟩ => hval v hv

theorem proper_short {key : Hex} (h : CanonTree (.short key t)) : t ≠ .nil ∧ Proper t := by
  cases h with
  | leaf _ _ _ => exact ⟨nofun, .inr (.inl ⟨_, rfl⟩)⟩
  | ext _ _ hts => exact ⟨nofun, .inr (.inr hts)⟩

theorem proper_full {ts : Fin 17 → Tree} (h : CanonTree (.full ts)) (i : Fin 17) :
    Proper (ts i) := by
  cases h with
  | branch hts hval _ =>
    by_cases hnil : ts i = .nil
    · exact .inl hnil
    · by_cases hi : i = 16
      · subst hi
        obtain ⟨v, -, hv⟩ := hval hnil
        exact .inr (.inl ⟨v, hv⟩)
      · exact .inr (.inr (hts i hi hnil))

/-- A hash node is either lost or loaded, so that it is enough to look at what is not one. -/
theorem covers_of_loaded (hne : t ≠ .nil)
    (hloaded : ∀ {root n}, Rep S.keccak S.whole root n t → (∀ h, n ≠ .hash h) → S.Covers n t)
    {root : Bool} (h : Rep S.keccak S.whole root n t) : S.Covers n t := by
  by_cases hn : ∀ h, n ≠ .hash h
  · exact hloaded h hn
  · cases h with
    | hash hc hs hr =>
      have hnot : ∀ h,
          loaded S.keccak S.gen (some (S.keccak (encTree S.keccak t))) t ≠ .hash h := by
        intro h
        cases hc <;> rw [loaded] <;> rintro ⟨⟩
      have hrep := Rep.loaded S.gen hc root (some (S.keccak (encTree S.keccak t))) hs
        fun h hh => ⟨(Option.some.inj hh).symm, hr⟩
      refine .hash hne ?_ ?_ ?_ ?_ <;>
        rcases node_cases hc (hs.1 hr) with ⟨hnode, hlost⟩ | hnode <;>
        rw [hnode]
      · rintro n ⟨⟩
      · rintro n ⟨⟩
        exact hloaded hrep hnot
      · rintro h ⟨⟩
      · exact fun h hh => hnot h (Option.some.inj (Option.some.inj hh))
      · rintro ⟨⟩
      · rintro ⟨⟩
      · exact fun hkeeps => absurd hkeeps hlost
      · rintro - ⟨⟩
    | _ => exact absurd (by rintro h ⟨⟩) hn

theorem covers_of_rep (hp : Proper t) :
    ∀ {root : Bool} {n : LiveNode}, Rep S.keccak S.whole root n t → S.Covers n t := by
  induction t with
  | nil =>
    intro root n h
    rw [h.eq_nil]
    exact .nil
  | value v =>
    intro root n h
    rw [h.eq_value]
    exact .value
  | short key t ih =>
    obtain ⟨hne, hp⟩ := proper_short (hp.canon nofun nofun)
    refine covers_of_loaded (t := .short key t) nofun fun h hn => ?_
    cases h with
    | hash => exact absurd rfl (hn _)
    | short hn' _ => exact .short hne (ih hp hn')
  | full ts ih =>
    intro root n
    have hp := proper_full (hp.canon nofun nofun)
    refine covers_of_loaded (t := .full ts) nofun fun h hn => ?_
    cases h with
    | hash => exact absurd rfl (hn _)
    | full hn' _ => exact .full fun i => ih i (hp i) (hn' i)

/-! ## The stack -/

/-- A trie that stands for the map over the whole database, but has what is left of it. -/
structure Part (S : Setting) (tr : Trie) : Prop where
  inv : Inv S.keccak S.E { tr with db := S.whole } S.m
  db : tr.db = S.db
  gen : tr.cachegen = S.gen

theorem Covers.value?_eq (h : S.Covers n t) (hn : ∀ h, n ≠ .hash h) : n.value? = t.val? := by
  cases h with
  | hash => exact absurd rfl (hn _)
  | _ => rfl

theorem Covers.isNil_iff (h : S.Covers n t) : n.isNil = true ↔ t = .nil := by
  cases h with
  | nil => exact iff_of_true rfl rfl
  | hash hne => exact iff_of_false Bool.false_ne_true hne
  | _ => exact iff_of_false Bool.false_ne_true nofun

theorem Covers.resolve (hpart : S.Part tr) (h : S.Covers n t) (path : Hex) :
    (∃ n', tr.resolve n path = .ok n' ∧ S.Covers n' t ∧ ∀ h, n' ≠ .hash h) ∨
      ∃ err, tr.resolve n path = .error err ∧ S.Lost err := by
  cases h with
  | @hash h t hne hload hnot hreturns hthere =>
    rw [Trie.resolve, Trie.resolveHash, hpart.db, hpart.gen]
    cases hnode : S.db.node h S.gen with
    | none =>
      refine .inr ⟨_, rfl, fun hc => hthere hc hnode, h, path, rfl, ?_⟩
      have hz : h ≠ Hash.zero := by
        rintro rfl
        cases hnode
      exact (Database.node_eq_none_iff hz).1 hnode
    | some n =>
      cases n with
      | none => exact absurd hnode hreturns
      | some n => exact .inl ⟨n, rfl, hload n hnode, fun h' hn => hnot h' (hn ▸ hnode)⟩
  | nil => exact .inl ⟨_, rfl, .nil, by rintro h ⟨⟩⟩
  | value => exact .inl ⟨_, rfl, .value, by rintro h ⟨⟩⟩
  | short hne hn => exact .inl ⟨_, rfl, .short hne hn, by rintro h ⟨⟩⟩
  | full hn => exact .inl ⟨_, rfl, .full hn, by rintro h ⟨⟩⟩

theorem drop_finRange (i : Fin 17) :
    (List.finRange 17).drop i.val = i :: (List.finRange 17).drop (i.val + 1) := by
  rw [drop_eq_getElem_cons (by rw [length_finRange]; exact i.isLt)]
  simp

theorem Covers.nextChild (h : S.Covers n t) (hn : ∀ h, n ≠ .hash h) (index : Nat) (path : Hex) :
    (NodeIterator.nextChild n index path = none ∧ t.rest index path = []) ∨
      ∃ child childPath i t', NodeIterator.nextChild n index path = some (child, childPath, i) ∧
        S.Covers child t' ∧ t' ≠ .nil ∧ path <+: childPath ∧
        t.rest i path = t.rest index path ∧
        t.rest index path = t'.visits childPath ++ t.rest (i + 1) path := by
  cases h with
  | hash => exact absurd rfl (hn _)
  | nil => exact .inl ⟨rfl, rfl⟩
  | value => exact .inl ⟨rfl, rfl⟩
  | @short key n t flags hne hcov =>
    cases index with
    | zero =>
      exact .inr ⟨n, path ++ key, 0, t, rfl, hcov, hne, prefix_append _ _, rfl, (append_nil _).symm⟩
    | succ index => exact .inl ⟨rfl, rfl⟩
  | @full ns ts flags hcov =>
    have hnil : ∀ i, (!(ns i).isNil) = false → (ts i).visits (path ++ [i]) = [] := by
      intro i hi
      rw [(hcov i).isNil_iff.1 (by simpa using hi)]
      rfl
    cases hfind : ((List.finRange 17).drop index).find? (fun i => !(ns i).isNil) with
    | none =>
      refine .inl ⟨by rw [NodeIterator.nextChild, hfind]; rfl, ?_⟩
      exact flatMap_eq_nil_iff.2 fun i hi =>
        hnil i (Bool.not_eq_true _ ▸ List.find?_eq_none.1 hfind i hi)
    | some i =>
      obtain ⟨hi, before, after, hsplit, hbefore⟩ := List.find?_eq_some_iff_append.1 hfind
      -- The child stands at its own position among the children.
      have hget : (List.finRange 17)[index + before.length]? = some i := by
        rw [← List.getElem?_drop, hsplit]
        simp
      obtain ⟨hlt, hpos⟩ := List.getElem?_eq_some_iff.1 hget
      rw [getElem_finRange] at hpos
      have hafter : after = (List.finRange 17).drop (i.val + 1) := by
        rw [← hpos, Fin.val_cast, Nat.add_assoc, ← drop_drop, hsplit]
        simp
      have hskip : before.flatMap (fun i => (ts i).visits (path ++ [i])) = [] :=
        flatMap_eq_nil_iff.2 fun i hi => hnil i (Bool.not_eq_true _ ▸ by simpa using hbefore i hi)
      have hrest : Tree.rest (.full ts) index path =
          (ts i).visits (path ++ [i]) ++ Tree.rest (.full ts) (i + 1) path := by
        simp [RadixTree.later, hsplit, hskip, hafter]
      refine .inr ⟨ns i, path ++ [i], i, ts i, by rw [NodeIterator.nextChild, hfind]; rfl, hcov i,
        fun h => ?_, prefix_append _ _, ?_, hrest⟩
      · rw [(hcov i).isNil_iff.2 h] at hi
        cases hi
      · rw [hrest]
        simp [RadixTree.later, drop_finRange]

/-- A stack of nodes, and the visits that are left of them. -/
inductive Frames (S : Setting) : List NodeIteratorState → Hex → Visits → Prop
  | nil {path : Hex} : S.Frames [] path []
  | cons {node : LiveNode} {index pathlen : Nat} {rest : List NodeIteratorState} {path : Hex}
      {t : Tree} {left : Visits} (hnode : S.Covers node t)
      (hnot : ∀ h, node ≠ .hash h) (hrest : S.Frames rest (path.take pathlen) left) :
      S.Frames (⟨node, index, pathlen⟩ :: rest) path (t.rest index path ++ left)

theorem Frames.pop (h : S.Frames it.stack it.path left) (hne : it.stack ≠ []) :
    ∃ below left', left = below ++ left' ∧ (∀ x ∈ below, it.path <+: x.1) ∧
      S.Frames it.pop.stack it.pop.path left' := by
  unfold NodeIterator.pop
  cases hstack : it.stack with
  | nil => exact absurd hstack hne
  | cons st rest =>
    rw [hstack] at h
    cases h with
    | cons hnode hnot hrest =>
      exact ⟨_, _, rfl, fun x hx => RadixTree.prefix_of_mem_later hx, hrest⟩

/-! ## The node iterator -/

/-- The iterator has some visits left. -/
structure Ready (S : Setting) (it : NodeIterator) (left : Visits) : Prop where
  trie : ∃ tr, it.trie = some tr ∧ S.Part tr
  left : (it.stack = [] ∧ it.path = [] ∧ left = S.t.rootVisits) ∨
    it.stack ≠ [] ∧ S.Frames it.stack it.path left

theorem Part.hash (h : S.Part tr) :
    ∃ hash tr', tr.hash S.keccak = some (hash, tr') ∧ S.Part tr' := by
  obtain ⟨hash, tr', hhash, -, hinv⟩ := h.inv.hash
  obtain ⟨hashed, hof, heq⟩ := map_eq_some_iff.1 hhash
  cases heq
  refine ⟨hash, { tr with root := (tr.hashRoot S.keccak false).2.1 }, ?_, hinv, h.db, h.gen⟩
  exact map_eq_some_iff.2 ⟨hash, hof, rfl⟩

/-- What `peek` gives where some visits are left: the end, a node that has been lost, or the first
of the visits. -/
inductive Step (S : Setting) (left : Visits) (it : NodeIterator) :
    Except IteratorErr (NodeIteratorState × Hex) → Prop
  | atEnd (hleft : left = []) : S.Step left it (.error .iteratorEnd)
  | lost {err : TrieErr} (hready : S.Ready it left) (hlost : S.Lost err) :
      S.Step left it (.error (.trie err))
  | found {state : NodeIteratorState} {path : Hex} {left' : Visits} (hready : S.Ready it left)
      (hleft : left = (path, state.node.value?) :: left')
      (hpushed : S.Ready (it.push state path) left') : S.Step left it (.ok (state, path))

theorem Frames.climb (htrie : it.trie = some tr) (hpart : S.Part tr)
    {stack : List NodeIteratorState} {path : Hex} (h : S.Frames stack path left) :
    ∃ stack' path' res, NodeIterator.climb tr stack path = (stack', path', res) ∧ path' <+: path ∧
      S.Step left { it with stack := stack', path := path' } res := by
  induction h with
  | nil => exact ⟨_, _, _, rfl, prefix_refl _, .atEnd rfl⟩
  | @cons node index pathlen rest path t left hnode hnot hrest ih =>
    rw [NodeIterator.climb]
    rcases hnode.nextChild hnot index path with
      ⟨hnext, hleft⟩ | ⟨child, childPath, i, t', hnext, hchild, hne, hpath, hsame, hleft⟩
    · simp only [hnext, hleft, nil_append]
      obtain ⟨stack', path', res, hclimb, hpath, hstep⟩ := ih
      exact ⟨stack', path', res, hclimb, hpath.trans (List.take_prefix _ _), hstep⟩
    · simp only [hnext]
      have hframes : S.Frames (⟨node, i, pathlen⟩ :: rest) path (t.rest index path ++ left) := by
        rw [← hsame]
        exact .cons hnode hnot hrest
      rcases hchild.resolve hpart childPath with ⟨n, hres, hn, hn'⟩ | ⟨err, hres, hlost⟩
      · rw [hres]
        have hafter : S.Frames (⟨node, i + 1, pathlen⟩ :: rest) (childPath.take path.length)
            (t.rest (i + 1) path ++ left) := by
          rw [← prefix_iff_eq_take.1 hpath]
          exact .cons hnode hnot hrest
        have hpushed : S.Frames (⟨n, 0, path.length⟩ :: ⟨node, i + 1, pathlen⟩ :: rest) childPath
            (t'.rest 0 childPath ++ (t.rest (i + 1) path ++ left)) := .cons hn hn' hafter
        refine ⟨_, _, _, rfl, prefix_refl _, .found ⟨⟨tr, htrie, hpart⟩, .inr ⟨nofun, hframes⟩⟩
          ?_ ⟨⟨tr, htrie, hpart⟩, .inr ⟨nofun, hpushed⟩⟩⟩
        rw [hleft, Tree.visits, RadixTree.walk_eq hne, hn.value?_eq hn', cons_append,
          cons_append, append_assoc]
      · rw [hres]
        exact ⟨_, _, _, rfl, prefix_refl _, .lost ⟨⟨tr, htrie, hpart⟩, .inr ⟨nofun, hframes⟩⟩ hlost⟩

theorem peek_frames (htrie : it.trie = some tr) (hpart : S.Part tr) (hne : it.stack ≠ []) {d : Bool}
    (hframes : S.Frames (if d then it else it.pop).stack (if d then it else it.pop).path left) :
    ∃ it' res, it.peek S.keccak d = some (it', res) ∧ it'.path <+: it.path ∧
      S.Step left it' res := by
  have hsame : (if d then it else it.pop).trie = some tr ∧
      (if d then it else it.pop).path <+: it.path := by
    unfold NodeIterator.pop
    split <;> [skip; split]
    · exact ⟨htrie, prefix_refl _⟩
    · exact ⟨htrie, prefix_refl _⟩
    · exact ⟨htrie, take_prefix _ _⟩
  obtain ⟨stack, path, res, hclimb, hpath, hstep⟩ := hframes.climb hsame.1 hpart
  refine ⟨_, res, ?_, hpath.trans hsame.2, hstep⟩
  rw [NodeIterator.peek, htrie]
  cases hstack : it.stack with
  | nil => exact absurd hstack hne
  | cons st rest => simp [hclimb]

theorem peek_root (h : S.Ready it left) (hstack : it.stack = []) (d : Bool) :
    ∃ it' res, it.peek S.keccak d = some (it', res) ∧ it'.stack = [] ∧ S.Step left it' res := by
  obtain ⟨⟨tr, htrie, hpart⟩, ⟨-, hpath, hleft⟩ | ⟨hne, -⟩⟩ := h
  case inr => exact absurd hstack hne
  obtain ⟨hash, tr', hhash, hpart'⟩ := hpart.hash
  have hready : S.Ready { it with trie := some tr' } left :=
    ⟨⟨tr', rfl, hpart'⟩, .inl ⟨hstack, hpath, hleft⟩⟩
  -- The root covers the tree of the map, which is the only one.
  have hcovers : S.Covers tr'.root S.t := by
    obtain ⟨t', hrep, hst'⟩ := hpart'.inv.tree
    obtain rfl := S.stores.unique hst'
    refine covers_of_rep ?_ hrep
    by_cases hnil : S.t = .nil
    · exact .inl hnil
    · exact .inr (.inr (S.stores.canon hnil))
  rcases hcovers.resolve hpart' [] with ⟨n, hres, hn, hnot⟩ | ⟨err, hres, hlost⟩
  · have hvisit : left = ([], n.value?) :: S.t.rest 0 [] := by
      rw [hleft, Tree.rootVisits, hn.value?_eq hnot]
    have hframes : S.Frames [⟨n, 0, 0⟩] [] (S.t.rest 0 [] ++ []) :=
      .cons hn hnot .nil
    refine ⟨{ it with trie := some tr' }, .ok (⟨n, 0, 0⟩, []), ?_, hstack,
      .found hready hvisit ⟨⟨tr', rfl, hpart'⟩, .inr ⟨nofun, ?_⟩⟩⟩
    · rw [NodeIterator.peek, htrie]
      simp [hstack, hhash, hres]
    · simpa [NodeIterator.push, hstack] using hframes
  · refine ⟨{ it with trie := some tr' }, .error (.trie err), ?_, hstack, .lost hready hlost⟩
    rw [NodeIterator.peek, htrie]
    simp [hstack, hhash, hres]

theorem Ready.peek (h : S.Ready it left) :
    ∃ it' res, it.peek S.keccak true = some (it', res) ∧ S.Step left it' res := by
  by_cases hstack : it.stack = []
  · obtain ⟨it', res, hpeek, -, hstep⟩ := peek_root h hstack true
    exact ⟨it', res, hpeek, hstep⟩
  · obtain ⟨⟨tr, htrie, hpart⟩, hleft⟩ := h
    obtain ⟨-, hframes⟩ := hleft.resolve_left fun hnil => hstack hnil.1
    obtain ⟨it', res, hpeek, -, hstep⟩ := peek_frames (d := true) htrie hpart hstack hframes
    exact ⟨it', res, hpeek, hstep⟩

/-! ## Seeking -/

theorem lt_of_below {path x : Hex} (hlt : path < hex) (hnot : ¬ path <+: hex) (hx : path <+: x) :
    x < hex := by
  induction path generalizing x hex with
  | nil => exact absurd nil_prefix hnot
  | cons a path ih =>
    obtain ⟨y, rfl⟩ := hx
    cases hex with
    | nil => exact absurd hlt (not_lt_nil _)
    | cons b hex =>
      rw [cons_append, cons_lt_cons_iff] at *
      rcases hlt with hab | ⟨rfl, hlt⟩
      · exact .inl hab
      · refine .inr ⟨rfl, ih hlt ?_ (prefix_append _ _)⟩
        rwa [cons_prefix_cons, and_iff_right rfl] at hnot

/-- A step of `seek`, which skips what lies below the path if that does not lead to the start. -/
theorem Ready.peek_seek (h : S.Ready it left) (hpath : it.stack ≠ [] → it.path < hex) :
    ∃ it' res left', it.peek S.keccak (it.path.isPrefixOf hex) = some (it', res) ∧
      (it'.stack ≠ [] → it'.path < hex) ∧ left'.since hex = left.since hex ∧
      left'.length ≤ left.length ∧ S.Step left' it' res := by
  by_cases hstack : it.stack = []
  · obtain ⟨it', res, hpeek, hnil, hstep⟩ := peek_root h hstack (it.path.isPrefixOf hex)
    exact ⟨it', res, left, hpeek, fun hne => absurd hnil hne, rfl, Nat.le_refl _, hstep⟩
  · obtain ⟨⟨tr, htrie, hpart⟩, hleft⟩ := h
    obtain ⟨-, hframes⟩ := hleft.resolve_left fun hnil => hstack hnil.1
    have hlt := hpath hstack
    have hbelow : ∀ {path}, path <+: it.path → path < hex :=
      fun h => List.lt_of_le_of_lt h.le hlt
    cases hd : it.path.isPrefixOf hex with
    | true =>
      obtain ⟨it', res, hpeek, hle, hstep⟩ := peek_frames (d := true) htrie hpart hstack hframes
      exact ⟨it', res, left, hpeek, fun _ => hbelow hle, rfl, Nat.le_refl _, hstep⟩
    | false =>
      have hnot : ¬ it.path <+: hex := by
        rw [← isPrefixOf_iff_prefix, hd]
        exact Bool.false_ne_true
      obtain ⟨below, left', rfl, hskip, hframes⟩ := hframes.pop hstack
      obtain ⟨it', res, hpeek, hle, hstep⟩ := peek_frames (d := false) htrie hpart hstack hframes
      refine ⟨it', res, left', hpeek, fun _ => hbelow hle, ?_, by simp, hstep⟩
      exact (dropWhile_append_of_pos fun x hx =>
        decide_eq_true (lt_of_below hlt hnot (hskip x hx))).symm

/-- `seek` has stopped, and can be repeated: what it will leave, and a bound on what is left now. -/
structure Paused (S : Setting) (it : NodeIterator) (hex : Hex) (left : Visits) (n : Nat) :
    Prop where
  ready : ∃ now, S.Ready it now ∧ now.since hex = left ∧ now.length ≤ n
  path : it.stack ≠ [] → it.path < hex

/-- The ends of `seek`: just before the start, past the last visit, or at a node that has been
lost. -/
inductive Sought (S : Setting) (key : Bytes) (left : Visits) (n : Nat) (it : NodeIterator) :
    Option IteratorErr → Prop
  | before (hready : S.Ready it left) (hle : left.length ≤ n) : Sought S key left n it none
  | atEnd (hleft : left = []) : Sought S key left n it (some .iteratorEnd)
  | lost {err : TrieErr} (hlost : S.Lost err)
      (hpaused : S.Paused it (keybytesToHex key).dropLast left n) :
      Sought S key left n it (some (.seekError key err))

theorem Paused.seek : ∀ {it : NodeIterator} {left : Visits} {n : Nat},
      S.Paused it (keybytesToHex key).dropLast left n → n < fuel →
      ∃ it' err, NodeIterator.seek S.keccak key fuel it = some (it', err) ∧
        S.Sought key left n it' err := by
  induction fuel with
  | zero => exact fun _ hn => absurd hn (Nat.not_lt_zero _)
  | succ fuel ih =>
    intro it left n h hn
    obtain ⟨now, hready, hsince, hlen⟩ := h.ready
    obtain ⟨it', res, now', hpeek, hpath, hsince', hlen', hstep⟩ := hready.peek_seek h.path
    rw [hsince] at hsince'
    rw [NodeIterator.seek, hpeek]
    simp only [bind_eq_bind, bind_some]
    cases hstep with
    | atEnd hnow =>
      refine ⟨it', _, rfl, .atEnd ?_⟩
      rw [← hsince', hnow]
      rfl
    | lost hready' hlost =>
      exact ⟨it', _, rfl, .lost hlost ⟨⟨now', hready', hsince', by omega⟩, hpath⟩⟩
    | @found state path rest hready' hnow hpushed =>
      subst hnow
      rw [length_cons] at hlen'
      dsimp only
      split
      case isTrue hlt =>
        rw [Visits.since_cons, if_pos hlt] at hsince'
        obtain ⟨it'', err, hseek, hsought⟩ := ih (n := n - 1)
          ⟨⟨rest, hpushed, hsince', by omega⟩, fun _ => hlt⟩ (by omega)
        refine ⟨it'', err, hseek, ?_⟩
        cases hsought with
        | before hready hle => exact .before hready (by omega)
        | atEnd hleft => exact .atEnd hleft
        | lost hlost hpaused =>
          obtain ⟨now, hready, hsince, hlen⟩ := hpaused.ready
          exact .lost hlost ⟨⟨now, hready, hsince, by omega⟩, hpaused.path⟩
      case isFalse hge =>
        rw [Visits.since_cons, if_neg hge] at hsince'
        subst hsince'
        exact ⟨it', none, rfl, .before hready' (by rw [length_cons]; omega)⟩

/-- Where an iterator stands, with what is left of its iteration. -/
inductive At (S : Setting) (it : NodeIterator) (left : Visits) (n : Nat) : Prop
  | ready (herr : it.err = none) (hready : S.Ready it left) (hle : left.length ≤ n)
  | atEnd (herr : it.err = some .iteratorEnd) (hleft : left = [])
  | lost {key : Bytes} {err : TrieErr} (herr : it.err = some (.seekError key err))
      (hpaused : S.Paused it (keybytesToHex key).dropLast left n)

/-- The end of an iteration: nothing is left, or a node has been lost. -/
def Ended (S : Setting) (left : Visits) (err : Option TrieErr) : Prop :=
  (left = [] ∧ err = none) ∨ ∃ e, err = some e ∧ S.Lost e

/-- A step of `Next`: to the first of the visits, or the end. -/
inductive Stepped (S : Setting) (left : Visits) (n : Nat) (it : NodeIterator) : Bool → Prop
  | moved {st : NodeIteratorState} {rest : List NodeIteratorState} {left' : Visits}
      (hstack : it.stack = st :: rest) (hleft : left = (it.path, st.node.value?) :: left')
      (hat : S.At it left' left'.length) (hlt : left'.length < n) : Stepped S left n it true
  | ended (hended : S.Ended left it.error) : Stepped S left n it false

theorem Ready.stepForward {n : Nat} (h : S.Ready it left) (hle : left.length ≤ n) :
    ∃ moved it', it.stepForward S.keccak true = some (moved, it') ∧ S.Stepped left n it' moved := by
  obtain ⟨it', res, hpeek, hstep⟩ := h.peek
  rw [NodeIterator.stepForward, hpeek]
  cases hstep with
  | atEnd hleft => exact ⟨_, _, rfl, .ended (.inl ⟨hleft, rfl⟩)⟩
  | lost _ hlost => exact ⟨_, _, rfl, .ended (.inr ⟨_, rfl, hlost⟩)⟩
  | found _ hleft hpushed =>
    subst hleft
    exact ⟨_, _, rfl, .moved rfl rfl (.ready rfl ⟨hpushed.trie, hpushed.left⟩ (Nat.le_refl _)) hle⟩

theorem At.next {n : Nat} (h : S.At it left n) (hn : n < fuel) :
    ∃ moved it', it.next S.keccak fuel true = some (moved, it') ∧ S.Stepped left n it' moved := by
  unfold NodeIterator.next
  cases h with
  | ready herr hready hle =>
    simp only [herr]
    exact hready.stepForward hle
  | atEnd herr hleft =>
    simp only [herr]
    exact ⟨_, _, rfl, .ended (.inl ⟨hleft, by rw [NodeIterator.error, herr]⟩)⟩
  | lost herr hpaused =>
    simp only [herr]
    obtain ⟨it', err, hseek, hsought⟩ := hpaused.seek hn
    simp only [hseek, bind_eq_bind, bind_some]
    cases hsought with
    | before hready hle => exact hready.stepForward hle
    | atEnd hleft => exact ⟨_, _, rfl, .ended (.inl ⟨hleft, rfl⟩)⟩
    | lost hlost _ => exact ⟨_, _, rfl, .ended (.inr ⟨_, rfl, hlost⟩)⟩

/-! ## The key-value iterator -/

/-- The leaves are the visits that end in a terminator. -/
def Leafy (left : Visits) : Prop :=
  ∀ x ∈ left, (x.2 = none → hasTerm x.1 = false) ∧ (x.2 ≠ none → ∃ key, x.1 = keybytesToHex key)

/-- The key and value of a leaf. -/
def leaf? (x : Hex × Option Bytes) : Option (Bytes × Bytes) :=
  (hexToKeybytes x.1).bind fun key => x.2.map fun v => (key, v)

/-- The keys and values of the leaves. -/
def leaves (left : Visits) : List (Bytes × Bytes) := left.filterMap leaf?

theorem length_keybytesToHex (key : Bytes) : (keybytesToHex key).length = 2 * key.length + 1 := by
  induction key with
  | nil => rfl
  | cons b key ih =>
    rw [keybytesToHex_cons, length_cons, length_cons, ih, length_cons]
    omega

theorem hexToKeybytes_keybytesToHex (key : Bytes) : hexToKeybytes (keybytesToHex key) =
    some key := by
  have hlen := length_keybytesToHex key
  obtain ⟨ns, hmem, hns⟩ :=
    Terminated.exists_eq_append (terminated_keybytesToHex key) (keybytesToHex_ne_nil key)
  rw [hns, length_append, length_singleton] at hlen
  have hback := keybytesToHex_decodeNibbles ns (by omega) hmem
  rw [← hns, keybytesToHex_inj] at hback
  rw [hns, hexToKeybytes, if_pos (by simp [hasTerm] : hasTerm (ns ++ [16]) = true),
    dropLast_concat, if_neg (by omega), hback]

theorem leaf?_keybytesToHex (key v : Bytes) : leaf? (keybytesToHex key, some v) =
    some (key, v) := by
  rw [leaf?, hexToKeybytes_keybytesToHex]
  rfl

/-- What `Next` of a key-value iterator does: it yields the first of the leaves, or ends. -/
inductive Yields (S : Setting) (left : Visits) (n : Nat) (it : Iterator) : Bool → Prop
  | leaf {key v : Bytes} {left' : Visits} (hleaves : leaves left = (key, v) :: leaves left')
      (hkey : it.key = some key) (hvalue : it.value = some v)
      (hat : S.At it.nodeIt left' left'.length) (hleafy : Leafy left') (hlt : left'.length < n) :
      Yields S left n it true
  | ended (hended : (leaves left = [] ∧ it.err = none) ∨ ∃ e, it.err = some e ∧ S.Lost e) :
      Yields S left n it false

theorem At.nextLeaf : ∀ {it : Iterator} {left : Visits} {n : Nat},
    S.At it.nodeIt left n → Leafy left → n + 1 < fuel →
    ∃ more it', it.next S.keccak fuel = some (more, it') ∧ S.Yields left n it' more := by
  induction fuel with
  | zero => exact fun _ _ hn => absurd hn (Nat.not_lt_zero _)
  | succ fuel ih =>
    intro it left n h hleafy hn
    obtain ⟨moved, nodeIt, hnext, hstepped⟩ := h.next (Nat.lt_of_succ_lt_succ hn)
    rw [Iterator.next, hnext]
    simp only [bind_eq_bind, bind_some]
    cases hstepped with
    | ended hended => exact ⟨_, _, rfl, .ended (hended.imp_left fun h => ⟨by rw [h.1]; rfl, h.2⟩)⟩
    | @moved st rest left' hstack hleft hat hlt =>
      subst hleft
      obtain ⟨hnone, hsome⟩ := hleafy _ mem_cons_self
      dsimp only at hnone hsome ⊢
      have hleafy' : Leafy left' := fun x hx => hleafy x (mem_cons_of_mem _ hx)
      have hleaf : nodeIt.leaf = st.node.value?.isSome := by
        cases hv : st.node.value? with
        | none => exact hnone hv
        | some v =>
          obtain ⟨key, hkey⟩ := hsome (by rw [hv]; exact nofun)
          exact (congrArg hasTerm hkey).trans
            (hasTerm_of_terminated (terminated_keybytesToHex key) (keybytesToHex_ne_nil key))
      cases hv : st.node.value? with
      | none =>
        -- Not at a leaf: the loop goes on.
        rw [hv] at hleaf
        have hskip : leaves ((nodeIt.path, none) :: left') = leaves left' := by
          rw [leaves, filterMap_cons_none (by simp [leaf?]), leaves]
        obtain ⟨more, it', hloop, hyields⟩ :=
          @ih { it with nodeIt := nodeIt } left' left'.length hat hleafy' (by omega)
        rw [if_neg (by rw [hleaf]; exact nofun)]
        refine ⟨more, it', hloop, ?_⟩
        cases hyields with
        | leaf hleaves hkey hvalue hat hleafy hlt' =>
          exact .leaf (hskip.trans hleaves) hkey hvalue hat hleafy (by omega)
        | ended hended => exact .ended (hskip.symm ▸ hended)
      | some v =>
        rw [hv] at hsome
        rw [hv, isSome_some] at hleaf
        obtain ⟨key, hkey⟩ := hsome nofun
        obtain ⟨node, index, pathlen⟩ := st
        obtain rfl : node = .value v := by
          cases node <;> cases hv
          rfl
        have hleaves : leaves ((nodeIt.path, some v) :: left') = (key, v) :: leaves left' := by
          rw [hkey, leaves, filterMap_cons_some (leaf?_keybytesToHex key v), leaves]
        rw [if_pos hleaf, NodeIterator.leafKey, NodeIterator.leafBlob, hstack]
        simp only [hkey, hexToKeybytes_keybytesToHex, bind_some]
        rw [hkey] at hleaves
        exact ⟨_, _, rfl, .leaf hleaves rfl rfl hat hleafy' hlt⟩

theorem At.collect : ∀ {it : Iterator} {left : Visits} {n : Nat},
    S.At it.nodeIt left n → Leafy left → n + 2 < fuel →
    ∃ pairs err, it.collect S.keccak fuel = some (pairs, err) ∧ pairs <+: leaves left ∧
      ((pairs = leaves left ∧ err = none) ∨ ∃ e, err = some e ∧ S.Lost e) := by
  induction fuel with
  | zero => exact fun _ _ hn => absurd hn (Nat.not_lt_zero _)
  | succ fuel ih =>
    intro it left n h hleafy hn
    obtain ⟨more, it', hnext, hyields⟩ := h.nextLeaf hleafy (Nat.lt_of_succ_lt_succ hn)
    rw [Iterator.collect, hnext]
    simp only [bind_eq_bind, bind_some]
    cases hyields with
    | ended hended =>
      exact ⟨[], it'.err, rfl, nil_prefix, hended.imp_left fun h => ⟨h.1.symm, h.2⟩⟩
    | leaf hleaves hkey hvalue hat hleafy' hlt =>
      obtain ⟨pairs, err, hcollect, hpre, hend⟩ := ih hat hleafy' (by omega)
      simp only [hcollect, hkey, hvalue, bind_some]
      refine ⟨_, _, rfl, ?_, ?_⟩
      · rw [hleaves]
        exact cons_prefix_cons.2 ⟨rfl, hpre⟩
      · exact hend.imp_left fun h => ⟨by rw [hleaves, h.1], h.2⟩

theorem Part.iterate (h : S.Part tr)
    (hstate : ∀ hash tr', tr.hash S.keccak = some (hash, tr') → hash ≠ S.keccak []) (start : Bytes)
    (hleafy : Leafy S.t.rootVisits) (hfuel : S.t.rootVisits.length + 2 < fuel) :
    ∃ pairs err, Iterator.iterate S.keccak fuel tr start = some (pairs, err) ∧
      pairs <+: leaves (S.t.rootVisits.since (keybytesToHex start).dropLast) ∧
      ((pairs = leaves (S.t.rootVisits.since (keybytesToHex start).dropLast) ∧ err = none) ∨
        ∃ e, err = some e ∧ S.Lost e) := by
  obtain ⟨hash, tr', hhash, hpart⟩ := h.hash
  have hpaused : S.Paused ⟨some tr', [], [], none⟩ (keybytesToHex start).dropLast
      (S.t.rootVisits.since (keybytesToHex start).dropLast) S.t.rootVisits.length :=
    ⟨⟨_, ⟨⟨tr', rfl, hpart⟩, .inl ⟨rfl, rfl, rfl⟩⟩, rfl, Nat.le_refl _⟩, fun h => absurd rfl h⟩
  obtain ⟨it, err, hseek, hsought⟩ := hpaused.seek (by omega : _ < fuel)
  rw [Iterator.iterate, NodeIterator.new, hhash]
  simp only [bind_eq_bind, bind_some, if_neg (hstate _ _ hhash), hseek]
  refine At.collect (n := S.t.rootVisits.length) ?_
    (fun x hx => hleafy x ((dropWhile_sublist _).subset hx)) hfuel
  cases hsought with
  | before hready hle => exact .ready rfl ⟨hready.trie, hready.left⟩ hle
  | atEnd hleft => exact .atEnd rfl hleft
  | lost hlost hpaused =>
    obtain ⟨now, hready, hsince, hle⟩ := hpaused.ready
    exact .lost rfl ⟨⟨now, ⟨hready.trie, hready.left⟩, hsince, hle⟩, hpaused.path⟩

/-! ## The leaves of a tree -/

variable (S) in
theorem mem_rootVisits : (keybytesToHex key, some v) ∈ S.t.rootVisits ↔ S.m key = some v := by
  rw [← S.stores.lookup key]
  by_cases hnil : S.t = .nil
  · rw [hnil]
    simp [Tree.rootVisits, RadixTree.val?, RadixTree.later]
  · rw [Tree.rootVisits, Tree.rest, ← RadixTree.walk_eq hnil [],
      RadixTree.mem_walk_some mem_finRange]
    simp

variable (S) in
theorem leafy_rootVisits : Leafy S.t.rootVisits := by
  intro x hx
  by_cases hnil : S.t = .nil
  · rw [hnil] at hx
    obtain rfl : x = ([], none) := by simpa [Tree.rootVisits, RadixTree.val?, RadixTree.later]
      using hx
    exact ⟨fun _ => rfl, fun h => absurd rfl h⟩
  · rw [Tree.rootVisits, Tree.rest, ← RadixTree.walk_eq hnil []] at hx
    obtain ⟨x, o⟩ := x
    cases o with
    | none =>
      have hmem := (S.stores.canon hnil).notMem_walk not_mem_nil hx
      exact ⟨fun _ => hasTerm_of_notMem hmem, fun h => absurd rfl h⟩
    | some v =>
      obtain ⟨y, hxy, hy⟩ := (RadixTree.mem_walk_some mem_finRange).1 hx
      subst hxy
      exact ⟨nofun, fun _ => S.stores.only x (by rw [hy]; exact nofun)⟩

variable (S) in
theorem sorted_rootVisits : S.t.rootVisits.Pairwise fun x y => x.1 < y.1 := by
  by_cases hnil : S.t = .nil
  · rw [hnil]
    exact pairwise_singleton _ _
  · rw [Tree.rootVisits, Tree.rest, ← RadixTree.walk_eq hnil []]
    exact (S.stores.canon hnil).sorted_walk (pairwise_lt_finRange 17) []

theorem mem_since (hsorted : left.Pairwise fun x y => x.1 < y.1) {x : Hex × Option Bytes} :
    x ∈ left.since hex ↔ x ∈ left ∧ ¬ x.1 < hex := by
  induction left with
  | nil => simp [Visits.since]
  | cons y left ih =>
    obtain ⟨hy, hsorted⟩ := pairwise_cons.1 hsorted
    rw [Visits.since_cons]
    split
    case isTrue hlt =>
      rw [ih hsorted, mem_cons, or_and_right, or_iff_right]
      rintro ⟨rfl, hge⟩
      exact hge hlt
    case isFalse hge =>
      refine (and_iff_left_of_imp fun hx hlt => ?_).symm
      rcases mem_cons.1 hx with rfl | hx
      · exact hge hlt
      · exact hge (lt_trans (hy x hx) hlt)

theorem eq_of_leaf? {x : Hex × Option Bytes} (hx : x.2 ≠ none → ∃ key, x.1 = keybytesToHex key)
    (h : leaf? x = some (key, v)) : x = (keybytesToHex key, some v) := by
  obtain ⟨x, o⟩ := x
  obtain ⟨key', hkey, h⟩ := bind_eq_some_iff.1 h
  obtain ⟨v', rfl, h⟩ := map_eq_some_iff.1 h
  cases h
  obtain ⟨key', rfl⟩ := hx nofun
  rw [hexToKeybytes_keybytesToHex] at hkey
  cases hkey
  rfl

theorem mem_leaves (hleafy : Leafy left) :
    (key, v) ∈ leaves left ↔ (keybytesToHex key, some v) ∈ left := by
  rw [leaves, mem_filterMap]
  constructor
  · rintro ⟨x, hx, h⟩
    rwa [← eq_of_leaf? (hleafy x hx).2 h]
  · exact fun hx => ⟨_, hx, leaf?_keybytesToHex key v⟩

theorem byte_lt_iff (a b : UInt8) : a < b ↔
    hiNibble a < hiNibble b ∨ hiNibble a = hiNibble b ∧ loNibble a < loNibble b := by
  rw [UInt8.lt_iff_toNat_lt]
  simp only [hiNibble, loNibble, Fin.mk_lt_mk, Fin.mk.injEq]
  omega

theorem dropLast_keybytesToHex_cons (b : UInt8) (bs : Bytes) :
    (keybytesToHex (b :: bs)).dropLast = hiNibble b :: loNibble b ::
      (keybytesToHex bs).dropLast := by
  rw [keybytesToHex_cons, dropLast_cons_of_ne_nil (cons_ne_nil _ _),
    dropLast_cons_of_ne_nil (keybytesToHex_ne_nil bs)]

theorem cons_nibbles_lt_iff {a b : UInt8} {x y : Hex} :
    hiNibble a :: loNibble a :: x < hiNibble b :: loNibble b :: y ↔ a < b ∨ a = b ∧ x < y := by
  have heq : a = b ↔ hiNibble a = hiNibble b ∧ loNibble a = loNibble b :=
    ⟨fun h => h ▸ ⟨rfl, rfl⟩, fun h => eq_of_nibbles h.1 h.2⟩
  rw [cons_lt_cons_iff, cons_lt_cons_iff, byte_lt_iff, heq]
  tauto

theorem keybytesToHex_lt_start {start : Bytes} :
    keybytesToHex key < (keybytesToHex start).dropLast ↔ key < start ∧ ¬ key <+: start := by
  induction key generalizing start with
  | nil =>
    refine iff_of_false (fun hlt => ?_) fun h => h.2 nil_prefix
    cases start with
    | nil => exact not_lt_nil _ hlt
    | cons b start =>
      rw [dropLast_keybytesToHex_cons, keybytesToHex_nil, cons_lt_cons_iff] at hlt
      rcases hlt with hlt | ⟨heq, -⟩
      · exact absurd (Fin.le_last (hiNibble b)) (Fin.not_le.2 hlt)
      · exact hiNibble_ne b heq.symm
  | cons a key ih =>
    cases start with
    | nil => exact iff_of_false (not_lt_nil _) fun h => not_lt_nil _ h.1
    | cons b start =>
      rw [dropLast_keybytesToHex_cons, keybytesToHex_cons, cons_nibbles_lt_iff, ih,
        cons_lt_cons_iff, cons_prefix_cons]
      have hirrefl : a < b → a ≠ b := fun h => UInt8.ne_of_lt h
      tauto

theorem lt_of_keybytesToHex_lt {a b : Bytes} (hlen : a.length = b.length)
    (h : keybytesToHex a < keybytesToHex b) : a < b := by
  induction a generalizing b with
  | nil =>
    obtain rfl := length_eq_zero_iff.1 hlen.symm
    exact absurd h (lt_irrefl _)
  | cons x a ih =>
    cases b with
    | nil => cases hlen
    | cons y b =>
      rw [keybytesToHex_cons, keybytesToHex_cons, cons_nibbles_lt_iff] at h
      exact cons_lt_cons_iff.2 (h.imp_right fun h =>
        ⟨h.1, ih (Nat.succ.inj hlen) h.2⟩)

variable (S) in
theorem leafy_since (hex : Hex) : Leafy (S.t.rootVisits.since hex) :=
  fun x hx => S.leafy_rootVisits x ((dropWhile_sublist _).subset hx)

variable (S) in
/-- What an iteration yields of a map: the keys that are not smaller than the start, and those that
lead to it. -/
theorem mem_leaves_since {start : Bytes} :
    (key, v) ∈ leaves (S.t.rootVisits.since (keybytesToHex start).dropLast) ↔
      S.m key = some v ∧ ¬ (key < start ∧ ¬ key <+: start) := by
  rw [mem_leaves (S.leafy_since _), mem_since S.sorted_rootVisits, mem_rootVisits,
    keybytesToHex_lt_start]

variable (S) in
theorem sorted_leaves {len : Nat} (hlen : ∀ key, S.m key ≠ none → key.length = len) (hex : Hex) :
    (leaves (S.t.rootVisits.since hex)).Pairwise fun x y => x.1 < y.1 := by
  have hkey : ∀ {x : Hex × Option Bytes} {y : Bytes × Bytes}, x ∈ S.t.rootVisits.since hex →
      leaf? x = some y → x.1 = keybytesToHex y.1 ∧ y.1.length = len := by
    rintro x ⟨key, v⟩ hx h
    obtain rfl := eq_of_leaf? (S.leafy_since hex x hx).2 h
    have hm := (S.mem_rootVisits).1 ((mem_since S.sorted_rootVisits).1 hx).1
    exact ⟨rfl, hlen key (by rw [hm]; exact nofun)⟩
  have hsorted := S.sorted_rootVisits.sublist (dropWhile_sublist fun x => decide (x.1 < hex))
  refine pairwise_filterMap.2 (hsorted.imp_of_mem fun hx hy hlt x hx' y hy' => ?_)
  obtain ⟨hx, hlenx⟩ := hkey hx hx'
  obtain ⟨hy, hleny⟩ := hkey hy hy'
  rw [hx, hy] at hlt
  exact lt_of_keybytesToHex_lt (hlenx.trans hleny.symm) hlt

end Setting

/-- Iteration from a start, over a trie with keys of one length of which the database may have lost
nodes: the keys are yielded in strictly increasing order. Unless a lost node is reported, they are
those that are not smaller than the start, provided that no key leads to the start without being it:
such a key is smaller than the start, but its terminator is larger than any nibble. -/
theorem Iterator.iterate_exact_iff {keccak : Bytes → Hash} {E : Set Bytes} (hE : HashOn keccak E)
    {tr : Trie} {m : Bytes → Option Bytes} (h : Inv keccak E tr m) {len : Nat}
    (hlen : ∀ key, m key ≠ none → key.length = len) {db : Database} (hdb : db.Sound keccak E)
    (hpart : db.Keeps tr.db)
    (hstate : ∀ hash tr', { tr with db := db }.hash keccak = some (hash, tr') → hash ≠ keccak [])
    (start : Bytes) :
    ∃ n, ∀ fuel, n ≤ fuel → ∃ pairs err,
      iterate keccak fuel { tr with db := db } start = some (pairs, err) ∧
      pairs.Pairwise (fun x y => x.1 < y.1) ∧
      (err = none → ((∀ key v, (key, v) ∈ pairs ↔ m key = some v ∧ start ≤ key) ↔
        ∀ key, m key ≠ none → key <+: start → key = start)) ∧
      ∀ e, err = some e → ¬ tr.db.Keeps db ∧
        ∃ hash path, e = .missingNode hash path ∧ db.blob hash = none := by
  obtain ⟨t, hrep, hst⟩ := h.tree
  let S : Setting := ⟨keccak, E, tr.db, db, tr.cachegen, m, t, hE, h.sound, hdb, hpart, hst⟩
  have hp : S.Part { tr with db := db } := ⟨h, rfl, rfl⟩
  refine ⟨S.t.rootVisits.length + 3, fun fuel hfuel => ?_⟩
  obtain ⟨pairs, err, hiterate, hpre, hend⟩ := hp.iterate hstate start S.leafy_rootVisits hfuel
  refine ⟨pairs, err, hiterate, (S.sorted_leaves hlen _).sublist hpre.sublist, ?_, ?_⟩
  · rintro rfl
    obtain ⟨rfl, -⟩ := hend.resolve_right nofun
    simp only [S.mem_leaves_since, ← List.not_lt]
    constructor
    · intro hexact key hkey hlead
      by_contra hne
      obtain ⟨v, hv⟩ := Option.ne_none_iff_exists'.1 hkey
      obtain ⟨z, rfl⟩ := hlead
      have hz : z ≠ [] := fun hz => hne (by rw [hz, List.append_nil])
      refine ((hexact key v).1 ⟨hv, fun h => h.2 (List.prefix_append _ _)⟩).2 ?_
      exact RadixTree.lt_of_prefix hz (List.prefix_refl _)
    · intro hnone key v
      refine and_congr_right fun hv => not_congr (and_iff_left_of_imp fun hlt hlead => ?_)
      obtain rfl := hnone key (fun hm => absurd (hv.symm.trans hm) nofun) hlead
      exact List.lt_irrefl _ hlt
  · rintro e rfl
    rcases hend with ⟨-, herr⟩ | ⟨e', herr, hlost⟩
    · cases herr
    · cases herr
      exact hlost

section Example

/-- A trie with one key. -/
def oneKey : Trie := { sampleTrie with root := .short [6, 1, 16] (.value [5]) ⟨none, 0, true⟩ }

/-- A key that is smaller than the start is yielded. -/
theorem Iterator.iterate_smaller :
    iterate lastBytes 10 oneKey [0x61, 0x62] = some ([([0x61], [5])], none) ∧
      ([0x61] : Bytes) < [0x61, 0x62] :=
  ⟨by rfl, by decide⟩

/-- A run that stores three keys and unloads them: the root is then a hash. -/
def branchedRun : List Op :=
  [.update [0x12] (List.replicate 32 7), .update [0x14] [5], .update [0x21] [6], .commit, .commit]

/-- The encodings it writes. -/
def branchedBlobs : List Bytes :=
  [[226, 32, 160] ++ List.replicate 32 7,
    [243, 128, 128, 160] ++ List.replicate 32 7 ++ [128, 194, 32, 5] ++ List.replicate 12 128,
    [243, 128, 160] ++ List.replicate 12 128 ++ [5, 32, 194, 128] ++ List.replicate 16 7 ++
      [194, 49, 6] ++ List.replicate 14 128]

theorem hashOn_branchedBlobs : HashOn lastBytes { b | b ∈ branchedBlobs } := by
  have hinj : ∀ a ∈ branchedBlobs, ∀ b ∈ branchedBlobs, lastBytes a = lastBytes b → a = b := by
    decide
  have hzero : ∀ b ∈ branchedBlobs, lastBytes b ≠ Hash.zero := by decide
  have hsmall : ∀ b ∈ branchedBlobs, b.length < 2 ^ 63 := by decide
  exact ⟨fun a ha b hb => hinj a ha b hb, hzero, hsmall⟩

theorem contents_branchedRun {key : Bytes} (h : contents branchedRun key ≠ none) :
    key.length = 1 := by
  by_contra hlen
  have hne : ∀ b : UInt8, key ≠ [b] := fun b hb => hlen (by rw [hb]; rfl)
  refine h ?_
  simp [contents, branchedRun, Op.apply, hne]

/-- A start between the keys, in a trie of which only the root's hash is loaded: the two larger keys
are yielded. -/
theorem Iterator.iterate_branched : ∃ tr, sampleTrie.run lastBytes branchedRun = .ok tr ∧
    (∃ hash, tr.root = .hash hash) ∧ ∃ n, ∀ fuel, n ≤ fuel → ∃ pairs,
      iterate lastBytes fuel tr [0x13] = some (pairs, none) ∧
      pairs.Pairwise (fun x y => x.1 < y.1) ∧
      ([0x12], List.replicate 32 7) ∉ pairs ∧ ([0x14], [5]) ∈ pairs ∧ ([0x21], [6]) ∈ pairs := by
  obtain ⟨tr, hrun, hinv⟩ := Inv.run hashOn_branchedBlobs branchedRun
    (Inv.of_empty (sound_sampleTrie lastBytes _) rfl) (Trie.admissible_of_check (by decide +kernel))
  have hstate : ((sampleTrie.run lastBytes branchedRun).toOption.all fun tr =>
      stepsFor tr.root [] == 2 && (tr.hash lastBytes).all fun p => decide (p.1 ≠ lastBytes [])) = true := by
    decide +kernel
  rw [hrun, Except.toOption, Option.all_some, Bool.and_eq_true] at hstate
  obtain ⟨hroot, hstate⟩ := hstate
  obtain ⟨n, hn⟩ := iterate_exact_iff hashOn_branchedBlobs hinv
    (fun key h => contents_branchedRun h) hinv.sound (Database.Keeps.refl _)
    (fun hash tr' hhash => by rw [hhash] at hstate; exact of_decide_eq_true hstate) [0x13]
  refine ⟨tr, hrun, ?_, n, fun fuel hfuel => ?_⟩
  · -- Only a node that has to be resolved takes two steps.
    unfold stepsFor at hroot
    split at hroot
    · next hash heq => exact ⟨hash, heq⟩
    · cases hroot
  obtain ⟨pairs, err, hiterate, hsorted, hexact, herr⟩ := hn fuel hfuel
  cases err with
  | some e => exact absurd (Database.Keeps.refl _) (herr e rfl).1
  | none =>
    have hmem := (hexact rfl).2 fun key h hlead =>
      hlead.eq_of_length (contents_branchedRun h)
    refine ⟨pairs, hiterate, hsorted, fun h => absurd ((hmem _ _).1 h).2 (by decide), ?_, ?_⟩
    · exact (hmem _ _).2 ⟨rfl, by decide⟩
    · exact (hmem _ _).2 ⟨rfl, by decide⟩

end Example

end Geth.Mpt
