import Geth.State.Verify.Object

/-!
# Writing objects back

`updateRoot` and `CommitTrie` bring the root of the account up to date, so that the encoding of its
data is that of the account it shows. What a commit has written can be loaded again.
-/

namespace Geth.State

open Lib

variable {B : Backend} {L : Lawful B} {db db' : B.Db} {addr : Address} {o : StateObject B}
  {order : List Hash}

/-- The object `o'` is `o` with everything flushed into its storage trie. -/
structure Flushed (L : Lawful B) (db : B.Db) (addr : Address) (o o' : StateObject B) : Prop where
  ok : ObjOk L db addr o'
  acct : o'.acct L db = o.acct L db
  deleted : o'.deleted = o.deleted
  clean : ∀ key, o'.dirtyStorage key = none
  root : o'.data.root = L.root .storage (o'.backing L db)

namespace Flushed

variable {o' : StateObject B}

theorem encode (h : Flushed L db addr o o') : o'.data.encode = L.encodeAcct (o.acct L db) := by
  rw [← h.acct]
  apply h.ok.encode_data
  rw [h.root, h.ok.backing_of_clean h.clean]

end Flushed

theorem ObjOk.withRoot (h : ObjOk L db addr o) {t : B.Trie} (ht : o.trie = some t) (root : Hash) :
    ObjOk L db addr { o with data := { o.data with root := root } } ∧
      StateObject.acct L db { o with data := { o.data with root := root } } = o.acct L db ∧
      StateObject.backing L db { o with data := { o.data with root := root } } =
        o.backing L db := by
  have hback : StateObject.backing L db { o with data := { o.data with root := root } } =
      o.backing L db := by
    simp [StateObject.backing, ht]
  refine ⟨⟨h.known, h.dirtyKnown, h.address, h.addrHash, h.noErr, h.code, h.codeStored,
    ⟨h.trie.loaded, fun hn => absurd (ht.symm.trans hn) (by rintro ⟨⟩), ?_⟩, ?_⟩, ?_, hback⟩
  · rw [hback]
    exact h.trie.storage
  · rw [hback]
    exact h.caches
  · simp [StateObject.acct, hback]

theorem ObjOk.flushed (h : ObjOk L db addr o)
    (horder : Enumerates order fun key => (o.dirtyStorage key).isSome) : ∃ t o1,
    (o.updateTrie db order).getTrie db = (t, o1) ∧ o1.trie = some t ∧ L.Ok .storage db t ∧
      Loads L db addr o o1 ∧ (∀ key, o1.dirtyStorage key = none) ∧
      L.content .storage t = storageMap (o.acct L db).storage := by
  obtain ⟨hl, hclean⟩ := h.updateTrie horder
  obtain ⟨t, hget, hok, hcontent⟩ := hl.ok.getTrie
  refine ⟨t, _, hget, rfl, hok, hl.trans (hl.ok.withTrie hok hcontent), hclean, ?_⟩
  rw [hcontent, hl.ok.backing_of_clean hclean, hl.acct]

theorem ObjOk.updateRoot (h : ObjOk L db addr o)
    (horder : Enumerates order fun key => (o.dirtyStorage key).isSome) :
    Flushed L db addr o (o.updateRoot db order) := by
  obtain ⟨t, o1, hget, ht, hok, hl, hclean, hcontent⟩ := h.flushed horder
  obtain ⟨t', hhash, hcontent', hok'⟩ := L.hash_eq hok
  have hback : o1.backing L db = L.content .storage t := StateObject.backing_some ht
  have hl' := hl.ok.withTrie hok' (hcontent'.trans hback.symm)
  obtain ⟨hroot, hacct, hsame⟩ := hl'.ok.withRoot rfl (L.root .storage (L.content .storage t))
  have hself : o.updateRoot db order = { o1 with
      trie := some t', data :=
        { o1.data with root := L.root .storage (L.content .storage t) } } := by
    simp [StateObject.updateRoot, hget, hhash]
  rw [hself]
  refine ⟨hroot, hacct.trans (hl'.acct.trans hl.acct), hl.deleted, hclean, ?_⟩
  exact congrArg (L.root .storage) hcontent'.symm

/-! ## Committing -/

/-- The database has the code of the object. -/
def CodeSaved (db : B.Db) (addr : Address) (o : StateObject B) : Prop :=
  CodeOk db addr none o.data.codeHash ∧
    codeOf B db addr none o.data.codeHash = codeOf B db addr o.code o.data.codeHash

theorem ObjOk.codeSaved (h : ObjOk L db addr o) (hcode : o.code = none ∨ o.dirtyCode = false) :
    CodeSaved db addr o := by
  rcases hcode with hnone | hclean
  · have hc := h.code
    rw [hnone] at hc
    exact ⟨hc, by rw [hnone]⟩
  · exact h.codeStored hclean

theorem ObjOk.insertCode (h : ObjOk L db addr o) {code : Bytes} (hcode : o.code = some code)
    (hnc : ¬ L.Collided (B.insertBlob db (bytesToHash o.data.codeHash) code)) :
    L.Le db (B.insertBlob db (bytesToHash o.data.codeHash) code) ∧
      ObjOk L (B.insertBlob db (bytesToHash o.data.codeHash) code) addr
        { o with dirtyCode := false } ∧
      CodeSaved (B.insertBlob db (bytesToHash o.data.codeHash) code) addr o := by
  have hhash : (B.keccak code).val = o.data.codeHash := by
    have := h.code.hash
    rwa [hcode, codeOf] at this
  have hkey : bytesToHash o.data.codeHash = B.keccak code := by
    rw [← hhash, bytesToHash_val]
  rw [hkey] at hnc ⊢
  obtain ⟨hle, hread, hempty⟩ := L.insertBlob_eq hnc
  have hof : codeOf B (B.insertBlob db (B.keccak code) code) addr none o.data.codeHash = code := by
    rw [codeOf]
    by_cases he : o.data.codeHash = emptyCodeHash B
    · rw [if_pos he]
      refine (hempty (Subtype.ext ?_)).symm
      rw [hhash, he]
      rfl
    · rw [if_neg he, hkey, hread, Option.getD_some]
  have hsaved : CodeSaved (B.insertBlob db (B.keccak code) code) addr o := by
    refine ⟨⟨?_, fun _ _ => ⟨code, ?_⟩⟩, ?_⟩
    · rw [hof, hhash]
    · rw [hkey, hread]
    · rw [hof, hcode, codeOf]
  have hmono := h.mono hle
  exact ⟨hle, ⟨hmono.known, hmono.dirtyKnown, hmono.address, hmono.addrHash, hmono.noErr,
    hmono.code, fun _ => hsaved, ⟨hmono.trie.loaded, hmono.trie.opens, hmono.trie.storage⟩,
      hmono.caches⟩, hsaved⟩

/-- The object `o'` is `o` after its commit, which has led from `db` to `db'`. -/
structure Committed (L : Lawful B) (db db' : B.Db) (addr : Address) (o o' : StateObject B) :
    Prop where
  le : L.Le db db'
  ok : ObjOk L db' addr o'
  acct : o'.acct L db' = o.acct L db
  deleted : o'.deleted = o.deleted
  encode : o'.data.encode = L.encodeAcct (o.acct L db)
  stored : ObjOk L db' addr (newObject B addr o'.data) ∧
    L.root .storage ((newObject B addr o'.data).backing L db') = o'.data.root
  loaded : (newObject B addr o'.data).acct L db' = { o.acct L db with suicided := false }

theorem Committed.valid {o' : StateObject B} (h : Committed L db db' addr o o') {enc : Bytes}
    (henc : o'.data.encode = some enc) : Valid L db' addr (some enc) := by
  intro enc' henc'
  cases henc'
  exact ⟨o'.data, henc, h.stored⟩

theorem ObjOk.commitTrie (h : ObjOk L db addr o) (hsaved : CodeSaved db addr o)
    (horder : Enumerates order fun key => (o.dirtyStorage key).isSome) :
    ∃ o' db', o.commitTrie db order = (none, o', db') ∧ (L.Collided db → L.Collided db') ∧
      (¬ L.Collided db' → Committed L db db' addr o o') := by
  obtain ⟨t, o1, hget, ht, hok, hl, hclean, hcontent⟩ := h.flushed horder
  obtain ⟨t', db', hcommit, hcontent', hgood⟩ := L.commit_eq hok
  have hcoll : L.Collided db → L.Collided db' := by
    have := L.collided_commit (d := db) t
    rwa [hcommit] at this
  refine ⟨{ o1 with
      trie := some t', data := { o1.data with root := L.root .storage (L.content .storage t) } },
    db', ?_, hcoll, fun hnc => ?_⟩
  · simp [StateObject.commitTrie, hget, hl.ok.noErr, hcommit]
  · obtain ⟨hle, hok', -, hopen⟩ := hgood hnc
    obtain ⟨u, hopen, hu, hoku⟩ := hopen (B.keccak addr.val)
    have hmono := hl.ok.mono hle
    have hback : o1.backing L db' = L.content .storage t := StateObject.backing_some ht
    have hl' := hmono.withTrie hok' (hcontent'.trans hback.symm)
    obtain ⟨hroot, hacct, hsame⟩ := hl'.ok.withRoot rfl (L.root .storage (L.content .storage t))
    have hacct' : StateObject.acct L db' { o1 with
        trie := some t', data := { o1.data with root := L.root .storage (L.content .storage t) } } =
          o.acct L db := by
      rw [hacct, hl'.acct, hl.ok.acct_mono hle, hl.acct]
    have hcode : CodeOk db' addr none o1.data.codeHash := by
      rw [hl.data]
      exact (hsaved.1.mono hle).1
    -- the object as it will be loaded
    have hnew :
      (newObject B addr { o1.data with root := L.root .storage (L.content .storage t) }).backing L
        db' = L.content .storage t := by
      simp [StateObject.backing, newObject, hopen, hu]
    have hstorage : storageMap (slot (L.content .storage t)) = L.content .storage t := by
      rw [hcontent, slot_storageMap]
    have hslots : slots (L.content .storage t) (fun _ => none) = (o.acct L db).storage := by
      rw [← slot_storageMap (o.acct L db).storage, ← hcontent]
      rfl
    have hload : codeOf B db' addr none o1.data.codeHash = (o.acct L db).code := by
      rw [hl.data, (hsaved.1.mono hle).2, hsaved.2, ← h.address]
      rfl
    refine ⟨hle, hroot, hacct', hl.deleted, ?_, ⟨⟨h.known, by rintro _ _ ⟨⟩, rfl, rfl, rfl,
      hcode, fun _ => ⟨hcode, rfl⟩, ⟨by rintro t ⟨⟩, fun _ => ⟨u, ?_, hoku⟩, ?_⟩, Cached.new _⟩,
      ?_⟩, ?_⟩
    · rw [← hacct']
      apply hroot.encode_data
      rw [hacct', ← hcontent]
    · exact hopen
    · rw [hnew]
      exact hstorage
    · rw [hnew]
    · have hnonce : o1.data.nonce = o.data.nonce := congrArg Account.nonce hl.data
      have hbalance : o1.data.balance = o.data.balance := congrArg Account.balance hl.data
      rw [StateObject.acct, hnew, Acct.mk.injEq]
      exact ⟨hnonce, hbalance, hload, hslots, rfl⟩

end Geth.State
