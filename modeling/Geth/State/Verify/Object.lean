import Geth.State.World
import Geth.State.Verify.Codec

/-!
# What a state object stands for

An object shows one account (`acct`): a slot is what the cache says, or else what the storage trie
holds; the code is what the object has loaded, or else what the database has under the code hash.
`ObjOk` is the invariant of objects in a working database. Loading a trie, a slot or the code does
not change the account, and neither does flushing the dirty slots into the trie.
-/

namespace Geth.State

open Lib Function Option

/-! ## Storage tries -/

/-- The content of the storage trie of a storage: its slots that are not zero. -/
def storageMap (f : Hash → Hash) : Content := fun key =>
  if h : key.length = 32 then
    if f ⟨key, h⟩ = Hash.zero then none else some (encodeValue (f ⟨key, h⟩))
  else none

/-- The value of a slot in the content of a storage trie. -/
def slot (m : Content) (key : Hash) : Hash := (decodeValue ((m key.val).getD [])).1

theorem storageMap_val (f : Hash → Hash) (key : Hash) :
    storageMap f key.val = if f key = Hash.zero then none else some (encodeValue (f key)) := by
  rw [storageMap, dif_pos key.property]

theorem decodeValue_storageMap (f : Hash → Hash) (key : Hash) :
    decodeValue ((storageMap f key.val).getD []) = (f key, none) := by
  rw [storageMap_val]
  split
  · next h => rw [getD_none, decodeValue_nil, h]
  · rw [getD_some, decodeValue_encodeValue]

@[simp] theorem slot_storageMap (f : Hash → Hash) : slot (storageMap f) = f := by
  funext key
  rw [slot, decodeValue_storageMap]

theorem storageMap_zero : storageMap (fun _ => Hash.zero) = fun _ => none := by
  funext key
  simp [storageMap]

theorem storageMap_update (f : Hash → Hash) (key value : Hash) : update (storageMap f) key.val
      (if value = Hash.zero then none else some (encodeValue value)) =
      storageMap (update f key value) := by
  funext k
  by_cases hk : k = key.val
  · subst hk
    rw [update_self, storageMap_val, update_self]
  · rw [update_of_ne hk]
    simp only [storageMap]
    split
    · next hlen =>
      have hne : (⟨k, hlen⟩ : Hash) ≠ key := fun h => hk (congrArg Subtype.val h)
      rw [update_of_ne hne]
    · rfl

/-! ## The caches in front of a storage trie -/

/-- The slots as they are seen through the cache. -/
def slots (m : Content) (cached : Hash → Option Hash) (key : Hash) : Hash :=
  (cached key).getD (slot m key)

/-- A cached slot that is not dirty is in the trie, and a dirty one is cached. -/
structure Cached (m : Content) (cached dirty : Hash → Option Hash) : Prop where
  clean : ∀ {key value}, cached key = some value → dirty key = none → slot m key = value
  dirty : ∀ {key value}, dirty key = some value → cached key = some value

variable {key : Hash}

theorem slots_load {cached : Hash → Option Hash} (m : Content)
    (hkey : cached key = none) :
    slots m (update cached key (some (slot m key))) = slots m cached := by
  funext k
  by_cases hk : k = key
  · subst hk
    simp [slots, hkey]
  · simp [slots, update_of_ne hk]

theorem slots_write (m : Content) (cached : Hash → Option Hash) (key value : Hash) :
    slots m (update cached key (some value)) = update (slots m cached) key value := by
  funext k
  by_cases hk : k = key
  · subst hk
    simp [slots]
  · simp [slots, update_of_ne hk]

namespace Cached

variable {m : Content} {cached dirty : Hash → Option Hash}

theorem new (m : Content) : Cached m (fun _ => none) (fun _ => none) := ⟨nofun, nofun⟩

theorem load (h : Cached m cached dirty) (hkey : cached key = none) :
    Cached m (update cached key (some (slot m key))) dirty := by
  refine ⟨fun {k value} hk hd => ?_, fun {k value} hd => ?_⟩
  · by_cases hkk : k = key
    · subst hkk
      rw [update_self] at hk
      exact Option.some.inj hk
    · rw [update_of_ne hkk] at hk
      exact h.clean hk hd
  · have hkk : k ≠ key := by
      intro hkk
      subst hkk
      exact absurd (hkey.symm.trans (h.dirty hd)) nofun
    rw [update_of_ne hkk]
    exact h.dirty hd

theorem write (h : Cached m cached dirty) (key value : Hash) :
    Cached m (update cached key (some value)) (update dirty key (some value)) := by
  refine ⟨fun {k v} hk hd => ?_, fun {k v} hd => ?_⟩ <;> by_cases hkk : k = key
  · subst hkk
    rw [update_self] at hd
    cases hd
  · rw [update_of_ne hkk] at hk hd
    exact h.clean hk hd
  · subst hkk
    rw [update_self] at hd ⊢
    exact hd
  · rw [update_of_ne hkk] at hd ⊢
    exact h.dirty hd

theorem flush {f : Hash → Hash} (h : Cached (storageMap f) cached dirty) {key value : Hash}
    (hkey : dirty key = some value) :
    Cached (storageMap (update f key value)) cached (update dirty key none) := by
  refine ⟨fun {k v} hk hd => ?_, fun {k v} hd => ?_⟩ <;> by_cases hkk : k = key
  · subst hkk
    rw [slot_storageMap, update_self]
    exact Option.some.inj ((h.dirty hkey).symm.trans hk)
  · rw [update_of_ne hkk] at hd
    rw [slot_storageMap, update_of_ne hkk]
    exact (congrFun (slot_storageMap f) k).symm.trans (h.clean hk hd)
  · subst hkk
    rw [update_self] at hd
    cases hd
  · rw [update_of_ne hkk] at hd
    exact h.dirty hd

theorem slots_flush {f : Hash → Hash} (h : Cached (storageMap f) cached dirty) {key value : Hash}
    (hkey : dirty key = some value) :
    slots (storageMap (update f key value)) cached = slots (storageMap f) cached := by
  funext k
  by_cases hkk : k = key
  · subst hkk
    simp [slots, h.dirty hkey]
  · simp [slots, update_of_ne hkk]

theorem slots_of_clean (h : Cached m cached dirty) (hd : ∀ key, dirty key = none) :
    slots m cached = slot m := by
  funext key
  cases hkey : cached key with
  | none => simp [slots, hkey]
  | some value => simp [slots, hkey, h.clean hkey (hd key)]

end Cached

/-! ## The account of an object -/

variable {B : Backend} (L : Lawful B)

/-- The content of the storage trie of an object, which is opened on first use. -/
def StateObject.backing (db : B.Db) (o : StateObject B) : Content :=
  match o.trie with
  | some t => L.content .storage t
  | none =>
    match B.openStorageTrie db o.addrHash o.data.root with
    | .ok t => L.content .storage t
    | .error _ => fun _ => none

/-- The code of an account from what is loaded and its code hash. -/
def codeOf (B : Backend) (db : B.Db) (addr : Address) (code : Option Bytes) (codeHash : Bytes) :
    Bytes :=
  match code with
  | some code => code
  | none =>
    if codeHash = emptyCodeHash B then []
    else (B.contractCode db (B.keccak addr.val) (bytesToHash codeHash)).1.getD []

/-- The account that an object shows. -/
def StateObject.acct (db : B.Db) (o : StateObject B) : Acct where
  nonce := o.data.nonce
  balance := o.data.balance
  code := codeOf B db o.address o.code o.data.codeHash
  storage := slots (o.backing L db) o.cachedStorage
  suicided := o.suicided

/-- The code belongs to the hash, and the database has it if it is not loaded. -/
structure CodeOk (db : B.Db) (addr : Address) (code : Option Bytes) (codeHash : Bytes) : Prop where
  hash : (B.keccak (codeOf B db addr code codeHash)).val = codeHash
  stored : code = none → codeHash ≠ emptyCodeHash B →
    ∃ c, B.contractCode db (B.keccak addr.val) (bytesToHash codeHash) = (some c, none)

/-- The storage trie is there and holds a storage. -/
structure TrieOk (db : B.Db) (o : StateObject B) : Prop where
  loaded : ∀ t, o.trie = some t → L.Ok .storage db t
  opens : o.trie = none → ∃ t, B.openStorageTrie db o.addrHash o.data.root = .ok t ∧
    L.Ok .storage db t
  storage : storageMap (slot (o.backing L db)) = o.backing L db

/-- The invariant of the object of an address. -/
structure ObjOk (db : B.Db) (addr : Address) (o : StateObject B) : Prop where
  known : L.Known addr
  dirtyKnown : ∀ {key value}, o.dirtyStorage key = some value → L.KnownSlot key
  address : o.address = addr
  addrHash : o.addrHash = B.keccak addr.val
  noErr : o.dbErr = none
  code : CodeOk db addr o.code o.data.codeHash
  codeStored : o.dirtyCode = false → CodeOk db addr none o.data.codeHash ∧
    codeOf B db addr none o.data.codeHash = codeOf B db addr o.code o.data.codeHash
  trie : TrieOk L db o
  caches : Cached (o.backing L db) o.cachedStorage o.dirtyStorage

variable {L} {db : B.Db} {addr : Address} {o : StateObject B}

theorem StateObject.backing_some {t : B.Trie} (h : o.trie = some t) :
    o.backing L db = L.content .storage t := by
  rw [backing, h]

/-! ## Loading -/

/-- The object `o'` shows the same account as `o`, with more or less of it loaded. -/
structure Loads (L : Lawful B) (db : B.Db) (addr : Address) (o o' : StateObject B) : Prop where
  ok : ObjOk L db addr o'
  acct : o'.acct L db = o.acct L db
  data : o'.data = o.data
  suicided : o'.suicided = o.suicided
  deleted : o'.deleted = o.deleted

namespace ObjOk

section

variable (h : ObjOk L db addr o)

include h

theorem refl : Loads L db addr o o := ⟨h, rfl, rfl, rfl, rfl⟩

theorem withTrie {t : B.Trie} (hok : L.Ok .storage db t)
    (hcontent : L.content .storage t = o.backing L db) : Loads L db addr o
    { o with trie := some t } := by
  have hback : StateObject.backing L db { o with trie := some t } = o.backing L db := hcontent
  refine ⟨⟨h.known, h.dirtyKnown, h.address, h.addrHash, h.noErr, h.code, h.codeStored,
    ⟨?_, nofun, ?_⟩, ?_⟩, ?_, rfl, rfl, rfl⟩
  · intro t' ht'
    cases ht'
    exact hok
  · rw [hback]
    exact h.trie.storage
  · rw [hback]
    exact h.caches
  · simp [StateObject.acct, hback]

theorem getTrie : ∃ t, o.getTrie db = (t, { o with trie := some t }) ∧
    L.Ok .storage db t ∧ L.content .storage t = o.backing L db := by
  cases ht : o.trie with
  | some t =>
    have hself : { o with trie := some t } = o := by rw [← ht]
    refine ⟨t, ?_, h.trie.loaded t ht, (StateObject.backing_some ht).symm⟩
    rw [hself]
    simp [StateObject.getTrie, ht]
  | none =>
    obtain ⟨t, hopen, hok⟩ := h.trie.opens ht
    refine ⟨t, ?_, hok, ?_⟩
    · simp [StateObject.getTrie, ht, hopen]
    · simp [StateObject.backing, ht, hopen]

theorem cache (hkey : o.cachedStorage key = none) :
    Loads L db addr o { o with
      cachedStorage := update o.cachedStorage key (some (slot (o.backing L db) key)) } := by
  refine ⟨⟨h.known, h.dirtyKnown, h.address, h.addrHash, h.noErr, h.code, h.codeStored,
    ⟨h.trie.loaded, h.trie.opens, h.trie.storage⟩, h.caches.load hkey⟩, ?_, rfl, rfl, rfl⟩
  have hslots := slots_load (o.backing L db) hkey
  simp only [StateObject.acct, ← hslots]
  rfl

end

end ObjOk

theorem Loads.trans {o1 o2 o3 : StateObject B} (h : Loads L db addr o1 o2)
    (h' : Loads L db addr o2 o3) : Loads L db addr o1 o3 :=
  ⟨h'.ok, h'.acct.trans h.acct, h'.data.trans h.data, h'.suicided.trans h.suicided,
    h'.deleted.trans h.deleted⟩

namespace ObjOk

theorem getState (h : ObjOk L db addr o) (hk : L.KnownSlot key) : ∃ o',
    o.getState db key = ((o.acct L db).storage key, o') ∧ Loads L db addr o o' := by
  cases hkey : o.cachedStorage key with
  | some value =>
    refine ⟨o, ?_, h.refl⟩
    simp [StateObject.getState, StateObject.acct, slots, hkey]
  | none =>
    obtain ⟨t, hget, hok, hcontent⟩ := h.getTrie
    obtain ⟨t', hread, hcontent', hok'⟩ := L.tryGet_eq hok hk
    have hl := h.withTrie hok' (hcontent'.trans hcontent)
    have hval : decodeValue ((L.content .storage t key.val).getD []) =
        (slot (o.backing L db) key, none) := by
      rw [hcontent, ← h.trie.storage, decodeValue_storageMap, slot_storageMap]
    have hslot : (o.acct L db).storage key = slot (o.backing L db) key := by
      simp [StateObject.acct, slots, hkey]
    have hback : StateObject.backing L db { o with trie := some t' } = o.backing L db :=
      hcontent'.trans hcontent
    have hcache := hl.ok.cache hkey
    rw [hback] at hcache
    refine ⟨_, ?_, hl.trans hcache⟩
    rw [hslot]
    simp [StateObject.getState, hkey, hget, hread, hval, StateObject.setError, h.noErr]

theorem getCode (h : ObjOk L db addr o) : ∃ code o', o.getCode db = (code, o') ∧
    Loads L db addr o o' ∧ code.getD [] = (o.acct L db).code ∧
    CodeOk db addr code o.data.codeHash ∧
    codeOf B db addr code o.data.codeHash = (o.acct L db).code := by
  have haddr := h.address
  cases hcode : o.code with
  | some code =>
    have hacct : (o.acct L db).code = code := by
      simp [StateObject.acct, hcode, codeOf]
    refine ⟨some code, o, ?_, h.refl, ?_, ?_, ?_⟩
    · simp [StateObject.getCode, hcode]
    · rw [hacct, getD_some]
    · rw [← hcode]
      exact h.code
    · rw [hacct, codeOf]
  | none =>
    have hacct : (o.acct L db).code = codeOf B db addr none o.data.codeHash := by
      simp [StateObject.acct, hcode, haddr]
    by_cases hempty : o.data.codeHash = emptyCodeHash B
    · refine ⟨none, o, ?_, h.refl, ?_, ?_, hacct.symm⟩
      · simp [StateObject.getCode, hcode, if_pos hempty]
      · rw [hacct, codeOf, if_pos hempty, getD_none]
      · rw [← hcode]
        exact h.code
    · obtain ⟨c, hc⟩ := h.code.stored hcode hempty
      have hof : codeOf B db addr none o.data.codeHash = c := by
        simp [codeOf, if_neg hempty, hc]
      have hok : CodeOk db addr (some c) o.data.codeHash := by
        refine ⟨?_, nofun⟩
        have := h.code.hash
        rwa [hcode, hof] at this
      refine ⟨some c, { o with code := some c }, ?_, ⟨⟨h.known, h.dirtyKnown, h.address, h.addrHash,
        h.noErr, hok, ?_, ⟨h.trie.loaded, h.trie.opens, h.trie.storage⟩, h.caches⟩, ?_, rfl, rfl,
          rfl⟩, ?_,
        hok, ?_⟩
      · simp [StateObject.getCode, hcode, if_neg hempty, h.addrHash, hc, StateObject.setError,
          h.noErr]
      · intro hd
        exact ⟨(h.codeStored hd).1, hof⟩
      · simp only [StateObject.acct, hcode, haddr, hof]
        rfl
      · rw [hacct, hof, getD_some]
      · rw [hacct, hof, codeOf]

/-! ## Writing -/

section

variable (h : ObjOk L db addr o)

include h

theorem dirtyKnown_update (hk : L.KnownSlot key) {value : Hash}
    {k v : Hash} (hd : update o.dirtyStorage key (some value) k = some v) : L.KnownSlot k := by
  by_cases hkey : k = key
  · rw [hkey]
    exact hk
  · rw [update_of_ne hkey] at hd
    exact h.dirtyKnown hd

/-- These fields say nothing about what the database holds. -/
theorem setFields (nonce : UInt64) (balance : Int) (suicided deleted : Bool) :
    ObjOk L db addr { o with
      data := { o.data with nonce := nonce, balance := balance }
      suicided := suicided
      deleted := deleted } :=
  ⟨h.known, h.dirtyKnown, h.address, h.addrHash, h.noErr, h.code, h.codeStored,
    ⟨h.trie.loaded, h.trie.opens, h.trie.storage⟩, h.caches⟩

theorem setBalance (amount : Int) : ObjOk L db addr (o.setBalance amount) := h.setFields ..

theorem setNonce (nonce : UInt64) : ObjOk L db addr (o.setNonce nonce) := h.setFields ..

theorem setSuicided (suicided : Bool) : ObjOk L db addr { o with suicided := suicided } :=
  h.setFields ..

theorem setDeleted (deleted : Bool) : ObjOk L db addr { o with deleted := deleted } :=
  h.setFields ..

theorem setState (hk : L.KnownSlot key) (value : Hash) :
    ObjOk L db addr (o.setState key value) :=
  ⟨h.known, h.dirtyKnown_update hk, h.address, h.addrHash, h.noErr, h.code, h.codeStored,
    ⟨h.trie.loaded, h.trie.opens, h.trie.storage⟩, h.caches.write key value⟩

theorem setCode {codeHash : Hash} {code : Option Bytes}
    (hcode : CodeOk db addr code codeHash.val) : ObjOk L db addr (o.setCode codeHash code) :=
  ⟨h.known, h.dirtyKnown, h.address, h.addrHash, h.noErr, hcode, nofun,
    ⟨h.trie.loaded, h.trie.opens, h.trie.storage⟩, h.caches⟩

end

end ObjOk

namespace CodeOk

theorem loaded (db : B.Db) (addr : Address) (code : Bytes) :
    CodeOk db addr (some code) (B.keccak code).val := ⟨rfl, nofun⟩

theorem empty (db : B.Db) (addr : Address) : CodeOk db addr none (emptyCodeHash B) := by
  refine ⟨?_, fun _ hne => absurd rfl hne⟩
  rw [codeOf, if_pos rfl]
  rfl

theorem val_bytesToHash {code : Option Bytes} {codeHash : Bytes}
    (h : CodeOk db addr code codeHash) : (bytesToHash codeHash).val = codeHash := by
  apply bytesToHash_of_length
  rw [← h.hash]
  exact (B.keccak _).property

end CodeOk

namespace StateObject

@[simp] theorem acct_setBalance (amount : Int) :
    (o.setBalance amount).acct L db = { o.acct L db with balance := amount } := rfl

@[simp] theorem acct_setNonce (nonce : UInt64) :
    (o.setNonce nonce).acct L db = { o.acct L db with nonce := nonce } := rfl

theorem acct_setState (key value : Hash) : (o.setState key value).acct L db =
    { o.acct L db with storage := update (o.acct L db).storage key value } := by
  have := slots_write (o.backing L db) o.cachedStorage key value
  simp only [acct, ← this]
  rfl

theorem acct_setCode (codeHash : Hash) (code : Option Bytes) : (o.setCode codeHash code).acct L db =
    { o.acct L db with code := codeOf B db o.address code codeHash.val } := rfl

theorem empty_eq (h : ObjOk L db addr o) : o.empty = (o.acct L db).empty B.keccak := by
  have hhash := h.code.hash
  have hiff : o.data.codeHash = emptyCodeHash B ↔
      B.keccak (codeOf B db addr o.code o.data.codeHash) = B.keccak [] := by
    rw [← Subtype.val_inj, hhash]
    rfl
  simp [empty, Acct.empty, acct, h.address, hiff]

end StateObject

/-! ## Flushing the dirty slots -/

namespace ObjOk

section

variable (h : ObjOk L db addr o)

include h

theorem flushKey {t : B.Trie} (ht : o.trie = some t) (key : Hash) :
    Loads L db addr o (o.flushKey db t key) ∧
      (o.flushKey db t key).dirtyStorage = update o.dirtyStorage key none := by
  cases hkey : o.dirtyStorage key with
  | none =>
    have hself : o.flushKey db t key = o := by simp [StateObject.flushKey, hkey]
    rw [hself, update_eq_self_iff.mpr hkey.symm]
    exact ⟨h.refl, rfl⟩
  | some value =>
    have hback : o.backing L db = L.content .storage t := StateObject.backing_some ht
    have hok := h.trie.loaded t ht
    -- the trie with the slot written
    obtain ⟨t', hwrite, hcontent, hok'⟩ : ∃ t', (if value = Hash.zero then B.tryDelete db t key.val
        else B.tryUpdate db t key.val (encodeValue value)) = (none, t') ∧
        L.content .storage t' = update (L.content .storage t) key.val
          (if value = Hash.zero then none else some (encodeValue value)) ∧ L.Ok .storage db t' := by
      split
      · exact L.tryDelete_eq hok (h.dirtyKnown hkey)
      · exact L.tryUpdate_eq hok (h.dirtyKnown hkey) (encodeValue_ne_nil value)
    rw [← hback, ← h.trie.storage, storageMap_update] at hcontent
    have hflush : o.flushKey db t key = { o with
        dirtyStorage := update o.dirtyStorage key none, trie := some t' } := by
      simp [StateObject.flushKey, hkey, hwrite, StateObject.setError, h.noErr]
    have hcaches := h.caches
    rw [← h.trie.storage] at hcaches
    rw [hflush]
    refine ⟨⟨⟨h.known, fun {k v} hd => ?_, h.address, h.addrHash, h.noErr, h.code, h.codeStored,
      ⟨?_, nofun, ?_⟩, ?_⟩, ?_, rfl, rfl, rfl⟩, rfl⟩
    · by_cases hk : k = key
      · rw [hk]
        exact h.dirtyKnown hkey
      · exact h.dirtyKnown ((update_of_ne hk ..).symm.trans hd)
    · intro u hu
      cases hu
      exact hok'
    · simp [StateObject.backing, hcontent]
    · simp only [StateObject.backing, hcontent]
      exact hcaches.flush hkey
    · have hslots := hcaches.slots_flush hkey
      rw [h.trie.storage] at hslots
      simp only [StateObject.acct, ← hslots]
      simp [StateObject.backing, hcontent]

theorem flushKeys (keys : List Hash) (hopen : ∃ t, o.trie = some t) :
      let o' := keys.foldl (fun o key =>
        let (t, o) := o.getTrie db
        o.flushKey db t key) o
      Loads L db addr o o' ∧ ∀ key, o'.dirtyStorage key =
        if key ∈ keys then none else o.dirtyStorage key := by
  induction keys generalizing o with
  | nil => exact ⟨h.refl, fun key => by simp⟩
  | cons key keys ih =>
    obtain ⟨t, ht⟩ := hopen
    have hget : o.getTrie db = (t, o) := by simp [StateObject.getTrie, ht]
    obtain ⟨hl, hdirty⟩ := h.flushKey ht key
    have hopen : ∃ t', (o.flushKey db t key).trie = some t' := by
      simp only [StateObject.flushKey]
      split
      · exact ⟨t, ht⟩
      · exact ⟨_, rfl⟩
    obtain ⟨hl', hdirty'⟩ := ih hl.ok hopen
    simp only [List.foldl_cons, hget]
    refine ⟨hl.trans hl', fun k => ?_⟩
    rw [hdirty' k, hdirty]
    by_cases hk : k = key
    · subst hk
      simp
    · simp [hk]

theorem updateTrie {order : List Hash}
    (horder : Enumerates order fun key => (o.dirtyStorage key).isSome) :
    Loads L db addr o (o.updateTrie db order) ∧ ∀ key, (o.updateTrie db order).dirtyStorage key =
      none := by
  obtain ⟨t, hget, hok, hcontent⟩ := h.getTrie
  have hl := h.withTrie hok hcontent
  obtain ⟨hl', hdirty⟩ := hl.ok.flushKeys order ⟨t, rfl⟩
  have hself : o.updateTrie db order = order.foldl (fun o key =>
      let (t, o) := o.getTrie db
      o.flushKey db t key) { o with trie := some t } := by
    rw [StateObject.updateTrie, hget]
  rw [hself]
  refine ⟨hl.trans hl', fun key => ?_⟩
  rw [hdirty key]
  split
  · rfl
  · next hkey =>
    have hnot := mt (horder.2 key).mpr hkey
    exact not_isSome_iff_eq_none.mp hnot

theorem backing_of_clean (hdirty : ∀ key, o.dirtyStorage key = none) :
    o.backing L db = storageMap (o.acct L db).storage := by
  have hslots := h.caches.slots_of_clean hdirty
  simp only [StateObject.acct, hslots]
  exact h.trie.storage.symm

end

end ObjOk

/-! ## New objects -/

theorem backing_newObject_zero (L : Lawful B) (db : B.Db) (addr : Address) (data : Account)
    (hroot : data.root = Hash.zero) : (newObject B addr data).backing L db = fun _ => none := by
  obtain ⟨t, hopen, hcontent, -⟩ := L.openStorageTrie_zero db (B.keccak addr.val)
  simp [StateObject.backing, newObject, hroot, hopen, hcontent]

theorem objOk_newAccount (db : B.Db) (hk : L.Known addr) :
    ObjOk L db addr ((newObject B addr (newAccount B)).setNonce 0) := by
  have hback := backing_newObject_zero L db addr (newAccount B) rfl
  obtain ⟨t, hopen, -, hok⟩ := L.openStorageTrie_zero db (B.keccak addr.val)
  apply ObjOk.setNonce
  refine ⟨hk, nofun, rfl, rfl, rfl, CodeOk.empty db addr, fun _ => ⟨CodeOk.empty db addr, rfl⟩,
    ⟨nofun, fun _ => ⟨t, hopen, hok⟩, ?_⟩, Cached.new _⟩
  rw [hback]
  have hzero : slot (fun _ => none) = fun _ => Hash.zero := by
    rw [← storageMap_zero, slot_storageMap]
  rw [hzero, storageMap_zero]

theorem acct_newAccount (L : Lawful B) (db : B.Db) (addr : Address) :
    ((newObject B addr (newAccount B)).setNonce 0).acct L db = Acct.new := by
  have hback := backing_newObject_zero L db addr (newAccount B) rfl
  have hslots : slots (fun _ => none) (fun _ => none) = fun _ => Hash.zero := by
    funext key
    simp [slots, slot, decodeValue_nil]
  have hcode : codeOf B db addr none (emptyCodeHash B) = [] := by
    rw [codeOf, if_pos rfl]
  rw [StateObject.acct_setNonce]
  simp only [StateObject.acct, hback]
  simp [newObject, newAccount, hslots, hcode, Acct.new]

/-! ## Growing databases -/

section Le

variable {db' : B.Db}

section

variable (hle : L.Le db db')

include hle

theorem CodeOk.mono {code : Option Bytes} {codeHash : Bytes}
    (h : CodeOk db addr code codeHash) : CodeOk db' addr code codeHash ∧
      codeOf B db' addr code codeHash = codeOf B db addr code codeHash := by
  have hcode : codeOf B db' addr code codeHash = codeOf B db addr code codeHash := by
    cases hc : code with
    | some c => rfl
    | none =>
      by_cases hempty : codeHash = emptyCodeHash B
      · simp [codeOf, if_pos hempty]
      · obtain ⟨c, hstored⟩ := h.stored hc hempty
        simp [codeOf, if_neg hempty, hstored, L.le_contractCode hle hstored]
  refine ⟨⟨?_, fun hc hempty => ?_⟩, hcode⟩
  · rw [hcode]
    exact h.hash
  · obtain ⟨c, hstored⟩ := h.stored hc hempty
    exact ⟨c, L.le_contractCode hle hstored⟩

theorem TrieOk.backing_mono (h : TrieOk L db o) :
    o.backing L db' = o.backing L db := by
  cases ht : o.trie with
  | some t => simp [StateObject.backing, ht]
  | none =>
    obtain ⟨t, hopen, hok⟩ := h.opens ht
    obtain ⟨u, hopen', hcontent, -⟩ := L.le_openStorageTrie hle hopen hok
    simp [StateObject.backing, ht, hopen, hopen', hcontent]

theorem TrieOk.mono (h : TrieOk L db o) : TrieOk L db' o := by
  refine ⟨fun t ht => L.le_ok hle (h.loaded t ht), fun ht => ?_, ?_⟩
  · obtain ⟨t, hopen, hok⟩ := h.opens ht
    obtain ⟨u, hopen', -, hok'⟩ := L.le_openStorageTrie hle hopen hok
    exact ⟨u, hopen', hok'⟩
  · rw [h.backing_mono hle]
    exact h.storage

theorem ObjOk.mono (h : ObjOk L db addr o) : ObjOk L db' addr o := by
  refine ⟨h.known, h.dirtyKnown, h.address, h.addrHash, h.noErr, (h.code.mono hle).1,
    fun hd => ?_, h.trie.mono hle, ?_⟩
  · obtain ⟨hstored, hsame⟩ := h.codeStored hd
    refine ⟨(hstored.mono hle).1, ?_⟩
    rw [(hstored.mono hle).2, (h.code.mono hle).2, hsame]
  · rw [h.trie.backing_mono hle]
    exact h.caches

theorem ObjOk.acct_mono (h : ObjOk L db addr o) :
    o.acct L db' = o.acct L db := by
  have hcode := (h.code.mono hle).2
  simp [StateObject.acct, h.address, hcode, h.trie.backing_mono hle]

end

end Le

/-! ## Stored accounts -/

/-- The encoding of an account in the account trie. -/
def Lawful.encodeAcct (L : Lawful B) (ac : Acct) : Option Bytes :=
  Account.encode ⟨ac.nonce, ac.balance, L.root .storage (storageMap ac.storage),
    (B.keccak ac.code).val⟩

/-- What the account trie has at an address is nothing, or an account whose storage and code are in
the database. -/
def Valid (L : Lawful B) (db : B.Db) (addr : Address) (c : Option Bytes) : Prop :=
  ∀ enc, c = some enc → ∃ data : Account, data.encode = some enc ∧
    ObjOk L db addr (newObject B addr data) ∧
    L.root .storage ((newObject B addr data).backing L db) = data.root

/-- The account that the account trie has at an address. -/
def loaded (L : Lawful B) (db : B.Db) (addr : Address) (c : Option Bytes) : Option Acct :=
  (c.bind Account.decode).map fun data => (newObject B addr data).acct L db

@[simp] theorem loaded_none : loaded L db addr none = none := rfl

theorem valid_none : Valid L db addr none := nofun

theorem ObjOk.encode_data (h : ObjOk L db addr o)
    (hroot : o.data.root = L.root .storage (storageMap (o.acct L db).storage)) :
    o.data.encode = L.encodeAcct (o.acct L db) := by
  have hcode := h.code.hash
  simp only [Lawful.encodeAcct, ← hroot]
  simp [StateObject.acct, h.address, hcode]

theorem Valid.loaded {enc : Bytes} (h : Valid L db addr (some enc)) : ∃ data : Account,
    Account.decode enc = some data ∧ enc ≠ [] ∧ ObjOk L db addr (newObject B addr data) ∧
    State.loaded L db addr (some enc) = some ((newObject B addr data).acct L db) ∧
    L.encodeAcct ((newObject B addr data).acct L db) = some enc := by
  obtain ⟨data, henc, hok, hroot⟩ := h enc rfl
  have hdecode := Account.decode_encode henc
  refine ⟨data, hdecode, Account.encode_ne_nil henc, hok, ?_, ?_⟩
  · simp [State.loaded, hdecode]
  · rw [← hok.encode_data]
    · exact henc
    · rw [← hok.backing_of_clean fun _ => rfl]
      exact hroot.symm

theorem Valid.mono {db' : B.Db} (hle : L.Le db db') {c : Option Bytes} (h : Valid L db addr c) :
    Valid L db' addr c ∧ State.loaded L db' addr c = State.loaded L db addr c := by
  constructor
  · intro enc hc
    obtain ⟨data, henc, hok, hroot⟩ := h enc hc
    refine ⟨data, henc, hok.mono hle, ?_⟩
    rw [hok.trie.backing_mono hle]
    exact hroot
  · cases hc : c with
    | none => rfl
    | some enc =>
      obtain ⟨data, henc, hok, hroot⟩ := h enc hc
      simp [State.loaded, Account.decode_encode henc, hok.acct_mono hle]

end Geth.State
