import Geth.Mpt.Flush

/-!
# Failing flushes

A batch may refuse any of the requests of `Cap` and `Commit`. The call then returns the error with
the database as it was, with one exception: when a write fails in the loop of `Commit` over the
preimages, the read lock is never released, and every later call that wants the write lock waits
for good.
-/

namespace Geth.Mpt

variable {α β : Type}

/-- How code may end that asks the batch for something, where `release` is what a failed write of
preimages does to the lock, and `reads` that the code leaves the database alone. -/
inductive Flushed (release : Memory → Memory) (reads : Prop) (s : Session) :
    EStateM.Result Exit Session α → Prop
  | done {a : α} {s' : Session} (failed : s'.failed = none) (db : reads → s'.db = s.db) :
    Flushed release reads s (.ok a s')
  | failed {s' : Session} (site : Site) (failed : s'.failed = some site)
    (db : s'.db = (if site = .preimageWrite then release else Memory.rUnlock) s.db) :
    Flushed release reads s (.error .err s')
  | stopped {e : Exit} {s' : Session} (failed : s'.failed = none) :
    Flushed release reads s (.error e s')

/-- Code that returns the first error of the batch. -/
def Flushes (release : Memory → Memory) (reads : Prop) (m : Flush α) : Prop :=
  ∀ s, s.failed = none → Flushed release reads s (m s)

namespace Flushes

variable {faults : Nat → Bool} {release : Memory → Memory} {reads : Prop}

theorem pure (a : α) : Flushes release reads (Pure.pure a : Flush α) :=
  fun _ h => .done h fun _ => rfl

theorem throw (e : Exit) : Flushes release reads (MonadExcept.throw e : Flush α) :=
  fun _ h => .stopped h

theorem get : Flushes release reads (getThe Session : Flush Session) :=
  fun _ h => .done h fun _ => rfl

theorem reset : Flushes release reads Flush.reset :=
  fun _ h => .done h fun _ => rfl

theorem alter (f : Memory → Except Exit Memory) : Flushes release False (Flush.alter f) := by
  intro s h
  unfold Flush.alter
  split
  · exact .done h nofun
  · exact .stopped h

theorem request (site : Site) {effect : Session → Session}
    (hdb : ∀ s, (effect s).db = s.db) (hfailed : ∀ s, (effect s).failed = s.failed) :
    Flushes release reads (Flush.request faults site
      (if site = .preimageWrite then release else Memory.rUnlock) effect) := by
  intro s h
  unfold Flush.request
  split
  · exact .failed site rfl rfl
  · exact .done ((hfailed _).trans h) fun _ => hdb _

theorem bind {m : Flush α} {f : α → Flush β} (hm : Flushes release True m)
    (hf : ∀ a, Flushes release reads (f a)) : Flushes release reads (m >>= f) := by
  intro s h
  have hs := hm s h
  simp only [Bind.bind, EStateM.bind]
  cases hr : m s with
  | error e s' =>
    rw [hr] at hs
    cases hs with
    | failed site failed db => exact .failed site failed db
    | stopped failed => exact .stopped failed
  | ok a s' =>
    rw [hr] at hs
    obtain ⟨failed, db⟩ := hs
    -- The rest of the code starts from the same database.
    have ht := hf a s' failed
    simp only
    cases hr' : f a s' with
    | ok b t =>
      rw [hr'] at ht
      obtain ⟨failed', db'⟩ := ht
      exact .done failed' fun h => (db' h).trans (db trivial)
    | error e t =>
      rw [hr'] at ht
      cases ht with
      | failed site failed' db' => exact .failed site failed' (db trivial ▸ db')
      | stopped failed' => exact .stopped failed'

theorem ite {c : Prop} [Decidable c] {m m' : Flush α} (hm : Flushes release reads m)
    (hm' : Flushes release reads m') : Flushes release reads (if c then m else m') := by
  split
  · exact hm
  · exact hm'

theorem forM {f : α → Flush PUnit} (hf : ∀ a, Flushes release True (f a)) (l : List α) :
    Flushes release True (l.forM f) := by
  induction l with
  | nil => exact .pure _
  | cons a l ih => exact .bind (hf a) fun _ => ih

theorem flushPreimages (preimages : List (Hash × Bytes)) :
    Flushes release True (Flush.flushPreimages faults release preimages) := by
  induction preimages with
  | nil => exact .pure ()
  | cons p preimages ih =>
    have hput : Flushes release True (Flush.put faults .preimagePut (secureKey p.1) p.2) :=
      .request .preimagePut (fun _ => rfl) fun _ => rfl
    have hwrite : Flushes release True (Flush.write faults .preimageWrite release) :=
      .request .preimageWrite (fun _ => rfl) fun _ => rfl
    refine .bind hput fun _ => .bind .get fun s => ?_
    exact .ite (.bind hwrite fun _ => .bind .reset fun _ => ih) ih

theorem putNode (hash : Hash) (node : CacheEntry) :
    Flushes release True (Flush.putNode faults hash node) := by
  have hput : Flushes release True (Flush.put faults .nodePut hash.val node.node.rlp) :=
    .request .nodePut (fun _ => rfl) fun _ => rfl
  have hwrite : Flushes release True (Flush.write faults .nodeWrite Memory.rUnlock) :=
    .request .nodeWrite (fun _ => rfl) fun _ => rfl
  refine .bind hput fun _ => .bind .get fun s => ?_
  exact .ite (.bind hwrite fun _ => .reset) (.pure ())

theorem flushOldest (limit : Int) (fuel : Nat) (size : Int) (oldest : Hash) :
    Flushes release True (Flush.flushOldest faults limit fuel size oldest) := by
  induction fuel generalizing size oldest with
  | zero => exact .throw _
  | succ fuel ih =>
    refine .ite (.bind .get fun s => ?_) (.pure _)
    cases s.db.nodes.lookup oldest with
    | none => exact .throw _
    | some node => exact .bind (.putNode oldest node) fun _ => ih _ _

theorem commitNode (fuel : Nat) (hash : Hash) :
    Flushes release True (Flush.commitNode faults fuel hash) := by
  induction fuel generalizing hash with
  | zero => exact .throw _
  | succ fuel ih =>
    refine .bind .get fun s => ?_
    cases s.db.nodes.lookup hash with
    | none => exact .pure _
    | some node => exact .bind (.forM ih _) fun _ => .putNode hash node

theorem finish (f : Memory → Except Exit Memory) :
    Flushes release False (do Flush.write faults .lastWrite Memory.rUnlock; Flush.alter f) :=
  .bind (.request .lastWrite (fun _ => rfl) fun _ => rfl) fun _ => .alter f

end Flushes

namespace FlushCall

/-- What a failed write of preimages does to the lock. -/
def release : FlushCall → Memory → Memory
  | .cap _ => Memory.rUnlock
  | .commit _ => id

theorem flushed {db : Memory} (hfree : db.lock = {}) (faults : Nat → Bool) (fuel : Nat)
    (call : FlushCall) :
    Flushed call.release False { db := { db with lock := ⟨1, false⟩ } }
      (call.run faults fuel db) := by
  have hlock : db.rLock = .ok { db with lock := ⟨1, false⟩ } := by
    simp [Memory.rLock, hfree]
  have hstart {m : Flush Unit} (hm : Flushes call.release False m) :
      Flushed call.release False { db := { db with lock := ⟨1, false⟩ } }
        ((do Flush.alter Memory.rLock; m) { db }) := by
    simp only [Bind.bind, EStateM.bind, Flush.alter, hlock]
    exact hm _ rfl
  cases call with
  | cap limit =>
    refine hstart (.bind .get fun s => ?_)
    have hrest (size : Int) (flush : Bool) : Flushes Memory.rUnlock False (do
        let oldest ← Flush.flushOldest faults limit fuel size s.db.oldest
        Flush.write faults .lastWrite Memory.rUnlock
        Flush.alter (Memory.capped flush oldest fuel)) :=
      .bind (.flushOldest limit fuel size _) fun oldest => .finish _
    exact .ite (.bind (.flushPreimages _) fun _ => hrest _ _) (hrest _ _)
  | commit node =>
    refine hstart (.bind .get fun s => ?_)
    exact .bind (.flushPreimages _) fun _ => .bind (.commitNode fuel node) fun _ => .finish _

end FlushCall

namespace Sample

/-- A hash of 32 equal bytes. -/
def sameBytes (b : UInt8) : Hash :=
  ⟨List.replicate 32 b, List.length_replicate⟩

def root : Hash := sameBytes 1

/-- A preimage too large for one batch. -/
def preimage : Bytes :=
  List.replicate (idealBatchSize + 1) 0

end Sample

end Geth.Mpt
