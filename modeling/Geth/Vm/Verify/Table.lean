import Geth.Vm.Interpreter
import Mathlib.Algebra.Notation.Lemmas

/-!
# What the operations leave alone

A gas function changes the cost of the memory so far, the gas set aside for a call and the database
(`Machine.priced`). An operation that does not call changes the program counter, the stack, the
memory, the jump destinations and the database (`Machine.moved`). Every entry of every instruction
set is such an operation or one of the five that call (`kind_of_jumpTable`).
-/

namespace Geth.Vm

open List Option

variable {S : Type} {st : List Int}

/-- The machine after a gas function. -/
def Machine.priced (m : Machine S) (lastGasCost callGasTemp : UInt64) (db : S) : Machine S :=
  { m with
    mem := { m.mem with lastGasCost := lastGasCost }
    evm := { m.evm with callGasTemp := callGasTemp, db := db } }

/-- The machine after an operation that does not call. -/
def Machine.moved (m : Machine S) (pc : Nat) (stack : List Int) (mem : Memory)
    (jumpdests : Destinations) (db : S) : Machine S :=
  { m with
    pc := pc
    stack := stack
    mem := mem
    evm := { m.evm with jumpdests := jumpdests, db := db } }

/-- The gas function changes nothing else. -/
def GasFunc.Prices (g : GasFunc S) : Prop :=
  ∀ env m size cost m', g env m size = .ok (cost, m') → ∃ last temp db, m' = m.priced last temp db

/-- The gas function does not touch the database either. -/
def GasFunc.Pure (g : GasFunc S) : Prop :=
  ∀ env m size cost m', g env m size = .ok (cost, m') →
    ∃ last temp, m' = m.priced last temp m.evm.db

/-- The operation changes nothing else. -/
def Execution.Moves (e : Execution S) : Prop :=
  ∀ env calls m r m', e env calls m = .ok (r, m') →
    ∃ pc stack mem jumpdests db, m' = m.moved pc stack mem jumpdests db

theorem GasFunc.Pure.prices {g : GasFunc S} (h : g.Pure) : g.Prices := by
  intro env m size cost m' hg
  obtain ⟨last, temp, hm⟩ := h env m size cost m' hg
  exact ⟨last, temp, _, hm⟩

/-! ## Words -/

section Words

variable {x y : Int}

theorem u256_nonneg (x : Int) : 0 ≤ u256 x := Int.emod_nonneg _ (by decide)

theorem setBytes_nonneg (b : Bytes) : 0 ≤ setBytes b := Int.natCast_nonneg _

theorem ofBool_nonneg (b : Bool) : 0 ≤ ofBool b := by
  cases b <;> decide

theorem expWord_nonneg (n word : Nat) {acc : Int × Int} (h : 0 ≤ acc.1) :
    0 ≤ (expWord n word acc).1 := by
  induction n generalizing word acc with
  | zero => exact h
  | succ n ih =>
    apply ih
    split
    · exact u256_nonneg _
    · exact h

theorem exp_nonneg (w : Nat) (base exponent : Int) : 0 ≤ (exp w base exponent).1 := by
  have hfold : ∀ (words : List Nat) (acc : Int × Int), 0 ≤ acc.1 →
      0 ≤ (words.foldl (fun acc word => expWord w word acc) acc).1 := by
    intro words
    induction words with
    | nil => exact fun acc h => h
    | cons word words ih => exact fun acc h => ih _ (expWord_nonneg w word h)
  exact hfold _ _ zero_le_one

/-- A bitwise operation, which is that of the natural numbers on them. -/
theorem bitwise_nonneg {f : Int → Int → Int} {g : Nat → Nat → Nat} (h : ∀ a b : Nat, f a b = g a b)
    (hx : 0 ≤ x) (hy : 0 ≤ y) : 0 ≤ f x y := by
  obtain ⟨a, rfl⟩ := Int.eq_ofNat_of_zero_le hx
  obtain ⟨b, rfl⟩ := Int.eq_ofNat_of_zero_le hy
  exact h a b ▸ Int.natCast_nonneg _

end Words

/-! ## Gas functions -/

section Gas

variable {m m' : Machine S} {size : UInt64} {cost : Option UInt64}

theorem memoryGasCost_store {mem mem' : Memory} (h : memoryGasCost mem size = (cost, mem')) :
    mem' = { mem with lastGasCost := mem'.lastGasCost } := by
  simp only [memoryGasCost] at h
  split at h
  · cases h; rfl
  · split at h
    · cases h; rfl
    · split at h <;> (cases h; rfl)

theorem withMemoryGas_priced (m : Machine S) (size : UInt64) (k : UInt64 → Option UInt64) :
    ∃ last, (withMemoryGas m size k).2 = m.priced last m.evm.callGasTemp m.evm.db := by
  obtain ⟨gas, mem, hmem⟩ : ∃ gas mem, memoryGasCost m.mem size = (gas, mem) := ⟨_, _, rfl⟩
  rw [withMemoryGas, hmem, memoryGasCost_store hmem]
  exact ⟨mem.lastGasCost, rfl⟩

theorem chargeCall_priced (env : Env) (base : Option UInt64 × Machine S) (requested : Int) :
    ∃ temp, (chargeCall env base requested).2 =
      base.2.priced base.2.mem.lastGasCost temp base.2.evm.db := by
  obtain ⟨base, m⟩ := base
  cases base with
  | none => exact ⟨m.evm.callGasTemp, rfl⟩
  | some gas => exact ⟨_, rfl⟩

theorem priced_of_memory {k : UInt64 → Option UInt64}
    (h : (.ok (withMemoryGas m size k) : Except Fault (Option UInt64 × Machine S)) =
      .ok (cost, m')) : ∃ last temp, m' = m.priced last temp m.evm.db := by
  obtain ⟨last, hlast⟩ := withMemoryGas_priced m size k
  exact ⟨last, _, (congrArg Prod.snd (Except.ok.inj h)).symm.trans hlast⟩

theorem priced_of_call {env : Env} {requested : Int} {k : UInt64 → Option UInt64} {m1 : Machine S}
    (h : (.ok (chargeCall env (withMemoryGas m1 size k) requested) :
      Except Fault (Option UInt64 × Machine S)) = .ok (cost, m')) :
    ∃ last temp, m' = m1.priced last temp m1.evm.db := by
  obtain ⟨last, hlast⟩ := withMemoryGas_priced m1 size k
  obtain ⟨temp, htemp⟩ := chargeCall_priced env (withMemoryGas m1 size k) requested
  refine ⟨last, temp, (congrArg Prod.snd (Except.ok.inj h)).symm.trans ?_⟩
  rw [htemp, hlast]
  rfl

theorem constGasFunc_pure (gas : UInt64) : (constGasFunc gas : GasFunc S).Pure := by
  intro env m size cost m' h
  cases h
  exact ⟨_, _, rfl⟩

theorem tableGas_pure (gas : GasTable → UInt64) : (tableGas gas : GasFunc S).Pure := by
  intro env m size cost m' h
  cases h
  exact ⟨_, _, rfl⟩

theorem memoryPlusGas_pure (gas : UInt64) : (memoryPlusGas gas : GasFunc S).Pure := fun _ _ _ _ _ =>
  priced_of_memory

theorem gasReturn_pure : (gasReturn : GasFunc S).Pure := fun _ _ _ _ _ =>
  priced_of_memory

theorem copyGasFunc_pure (gas : Env → UInt64) (len : Nat) (perWord : UInt64) :
    (copyGasFunc gas len perWord : GasFunc S).Pure := by
  intro env m size cost m' h
  simp only [copyGasFunc] at h
  split at h
  · cases h
  · exact priced_of_memory h

theorem makeGasLog_pure (n : UInt64) : (makeGasLog n : GasFunc S).Pure := by
  intro env m size cost m' h
  simp only [makeGasLog] at h
  split at h
  · cases h
  · split at h
    · cases h
      exact ⟨_, _, rfl⟩
    · exact priced_of_memory h

theorem gasExp_pure : (gasExp : GasFunc S).Pure := by
  intro env m size cost m' h
  simp only [gasExp] at h
  split at h
  · cases h
  · exact ⟨_, m.evm.callGasTemp, (congrArg Prod.snd (Except.ok.inj h)).symm⟩

theorem gasCallCode_pure : (gasCallCode : GasFunc S).Pure := by
  intro env m size cost m' h
  simp only [gasCallCode] at h
  split at h
  · exact priced_of_call h
  · cases h

theorem gasDelegateCall_pure : (gasDelegateCall : GasFunc S).Pure := by
  intro env m size cost m' h
  simp only [gasDelegateCall] at h
  split at h
  · exact priced_of_call h
  · cases h

variable [StateDB S]

theorem gasCall_prices : (gasCall : GasFunc S).Prices := by
  intro env m size cost m' h
  simp only [gasCall] at h
  split at h
  · obtain ⟨last, temp, rfl⟩ := priced_of_call h
    exact ⟨last, temp, _, rfl⟩
  · cases h

theorem gasSStore_prices : (gasSStore : GasFunc S).Prices := by
  intro env m size cost m' h
  simp only [gasSStore] at h
  split at h
  · split at h
    · cases h
      exact ⟨_, _, _, rfl⟩
    · split at h <;> (cases h; exact ⟨_, _, _, rfl⟩)
  · cases h

theorem gasSuicide_prices : (gasSuicide : GasFunc S).Prices := by
  intro env m size cost m' h
  simp only [gasSuicide] at h
  split at h
  · cases h
    exact ⟨_, _, _, rfl⟩
  · cases h

end Gas

/-! ## Quiet operations -/

/-- No amount that the frame knows of is negative. -/
structure Machine.Fair (env : Env) (m : Machine S) : Prop where
  stack : ∀ x ∈ m.stack, 0 ≤ x
  value : 0 ≤ m.contract.value
  gasPrice : 0 ≤ env.gasPrice

/-- The operation does not touch the database either, and leaves no negative amount. -/
def Execution.Quiet (e : Execution S) : Prop :=
  ∀ env calls m r m', e env calls m = .ok (r, m') →
    ∃ pc stack mem jumpdests, m' = m.moved pc stack mem jumpdests m.evm.db ∧
      (m.Fair env → ∀ x ∈ stack, 0 ≤ x)

theorem Execution.Quiet.moves {e : Execution S} (h : e.Quiet) : e.Moves := by
  intro env calls m r m' he
  obtain ⟨pc, stack, mem, jumpdests, hm, -⟩ := h env calls m r m' he
  exact ⟨pc, stack, mem, jumpdests, _, hm⟩

theorem Machine.Fair.rest {env : Env} {m : Machine S} {t : List Int} (hm : m.Fair env)
    (hst : m.stack = t ++ st) : ∀ x ∈ st, 0 ≤ x :=
  fun x hx => hm.stack x (hst ▸ mem_append_right t hx)

theorem onStack_quiet {f : List Int → Option (List Int)}
    (hf : ∀ st st', f st = some st' → (∀ x ∈ st, 0 ≤ x) → ∀ x ∈ st', 0 ≤ x) :
    (onStack f : Execution S).Quiet := by
  intro env calls m r m' h
  simp only [onStack] at h
  split at h
  · cases h
  · next hst =>
    cases h
    exact ⟨_, _, _, _, rfl, fun hm => hf _ _ hst hm.stack⟩

theorem unary_quiet {f : Int → Int} (hf : ∀ x, 0 ≤ x → 0 ≤ f x) :
    (unary f : Execution S).Quiet := by
  apply onStack_quiet
  intro st st' h hst
  split at h
  · cases h
    rw [forall_mem_cons] at hst ⊢
    exact ⟨hf _ hst.1, hst.2⟩
  · cases h

theorem binary_quiet {f : Int → Int → Int} (hf : ∀ x y, 0 ≤ x → 0 ≤ y → 0 ≤ f x y) :
    (binary f : Execution S).Quiet := by
  apply onStack_quiet
  intro st st' h hst
  split at h
  · cases h
    simp only [forall_mem_cons] at hst ⊢
    exact ⟨hf _ _ hst.1 hst.2.1, hst.2.2⟩
  · cases h

theorem ternary_quiet {f : Int → Int → Int → Int}
    (hf : ∀ x y z, 0 ≤ x → 0 ≤ y → 0 ≤ z → 0 ≤ f x y z) : (ternary f : Execution S).Quiet := by
  apply onStack_quiet
  intro st st' h hst
  split at h
  · cases h
    simp only [forall_mem_cons] at hst ⊢
    exact ⟨hf _ _ _ hst.1 hst.2.1 hst.2.2.1, hst.2.2.2⟩
  · cases h

theorem pushing_quiet {f : Env → Machine S → Int} (hf : ∀ env m, m.Fair env → 0 ≤ f env m) :
    (pushing f).Quiet := by
  intro env calls m r m' h
  cases h
  exact ⟨_, _, _, _, rfl, fun hm => forall_mem_cons.mpr ⟨hf env m hm, hm.stack⟩⟩

theorem opSignExtend_quiet : (opSignExtend : Execution S).Quiet := by
  apply onStack_quiet
  intro st st' h hst
  split at h
  · split at h
    · split at h
      · cases h
        simp only [forall_mem_cons] at hst ⊢
        exact ⟨ite_nonneg (u256_nonneg _) (u256_nonneg _), hst.2.2⟩
      · cases h
    · cases h
      exact (forall_mem_cons.mp hst).2
  · cases h

theorem opPop_quiet : (opPop : Execution S).Quiet := by
  apply onStack_quiet
  intro st st' h hst
  split at h
  · cases h
    exact (forall_mem_cons.mp hst).2
  · cases h

theorem makeDup_quiet (size : Nat) : (makeDup size : Execution S).Quiet := by
  apply onStack_quiet
  intro st st' h hst
  obtain ⟨x, hx, rfl⟩ := map_eq_some_iff.mp h
  exact forall_mem_cons.mpr ⟨hst x (mem_of_getElem? hx), hst⟩

theorem makeSwap_quiet (size : Nat) : (makeSwap size : Execution S).Quiet := by
  apply onStack_quiet
  intro st st' h hst
  obtain ⟨x, hx, h⟩ := bind_eq_some_iff.mp h
  obtain ⟨y, hy, h⟩ := bind_eq_some_iff.mp h
  cases h
  intro z hz
  -- every element of the new stack is one of the old
  rcases mem_or_eq_of_mem_set hz with hz | rfl
  · rcases mem_or_eq_of_mem_set hz with hz | rfl
    · exact hst z hz
    · exact hst z (mem_of_getElem? hy)
  · exact hst z (mem_of_getElem? hx)

theorem opBlockhash_quiet : (opBlockhash : Execution S).Quiet := by
  intro env calls m r m' h
  simp only [opBlockhash] at h
  split at h
  · next num st hst =>
    cases h
    refine ⟨_, _, _, _, rfl, fun hm =>
      forall_mem_cons.mpr ⟨?_, hm.rest (t := [num]) hst⟩⟩
    split
    · exact setBytes_nonneg _
    · exact le_refl 0
  · cases h

theorem opCallDataLoad_quiet : (opCallDataLoad : Execution S).Quiet := by
  intro env calls m r m' h
  simp only [opCallDataLoad] at h
  split at h
  · next offset st hst =>
    split at h
    · cases h
    · cases h
      exact ⟨_, _, _, _, rfl, fun hm =>
        forall_mem_cons.mpr ⟨setBytes_nonneg _, hm.rest (t := [offset]) hst⟩⟩
  · cases h

theorem makePush_quiet (size : Nat) : (makePush size : Execution S).Quiet := by
  intro env calls m r m' h
  simp only [makePush] at h
  split at h
  · cases h
  · cases h
    exact ⟨_, _, _, _, rfl, fun hm => forall_mem_cons.mpr ⟨setBytes_nonneg _, hm.stack⟩⟩

theorem opMload_quiet : (opMload : Execution S).Quiet := by
  intro env calls m r m' h
  simp only [opMload] at h
  split at h
  · next offset st hst =>
    split at h
    · cases h
    · cases h
      exact ⟨_, _, _, _, rfl, fun hm =>
        forall_mem_cons.mpr ⟨setBytes_nonneg _, hm.rest (t := [offset]) hst⟩⟩
  · cases h

theorem opMstore_quiet : (opMstore : Execution S).Quiet := by
  intro env calls m r m' h
  simp only [opMstore] at h
  split at h
  · next mStart val st hst =>
    split at h
    · cases h
    · cases h
      exact ⟨_, _, _, _, rfl, fun hm => hm.rest (t := [mStart, val]) hst⟩
  · cases h

theorem opMstore8_quiet : (opMstore8 : Execution S).Quiet := by
  intro env calls m r m' h
  simp only [opMstore8] at h
  split at h
  · next off val st hst =>
    split at h
    · cases h
    · cases h
      exact ⟨_, _, _, _, rfl, fun hm => hm.rest (t := [off, val]) hst⟩
  · cases h

theorem copyToMemory_moved {m m' : Machine S} {memOffset length : Int}
    {data : Option Bytes} {r : Ret} (h : copyToMemory m st memOffset length data = .ok (r, m')) :
    ∃ mem, m' = m.moved m.pc st mem m.evm.jumpdests m.evm.db := by
  cases data with
  | none => cases h
  | some data =>
    simp only [copyToMemory] at h
    split at h
    · cases h
    · cases h
      exact ⟨_, rfl⟩

theorem opCallDataCopy_quiet : (opCallDataCopy : Execution S).Quiet := by
  intro env calls m r m' h
  simp only [opCallDataCopy] at h
  split at h
  · next memOffset dataOffset length st hst =>
    obtain ⟨mem, rfl⟩ := copyToMemory_moved h
    exact ⟨_, _, _, _, rfl, fun hm => hm.rest (t := [memOffset, dataOffset, length]) hst⟩
  · cases h

theorem opCodeCopy_quiet : (opCodeCopy : Execution S).Quiet := by
  intro env calls m r m' h
  simp only [opCodeCopy] at h
  split at h
  · next memOffset codeOffset length st hst =>
    obtain ⟨mem, rfl⟩ := copyToMemory_moved h
    exact ⟨_, _, _, _, rfl, fun hm => hm.rest (t := [memOffset, codeOffset, length]) hst⟩
  · cases h

theorem opReturnDataCopy_quiet : (opReturnDataCopy : Execution S).Quiet := by
  intro env calls m r m' h
  simp only [opReturnDataCopy] at h
  split at h
  · next memOffset dataOffset length st hst =>
    split at h
    · cases h
      exact ⟨_, _, _, _, rfl, fun hm => hm.rest (t := [memOffset, dataOffset, length]) hst⟩
    · obtain ⟨mem, rfl⟩ := copyToMemory_moved h
      exact ⟨_, _, _, _, rfl, fun hm => hm.rest (t := [memOffset, dataOffset, length]) hst⟩
  · cases h

theorem opReturn_quiet : (opReturn : Execution S).Quiet := by
  intro env calls m r m' h
  simp only [opReturn] at h
  split at h
  · next offset size st hst =>
    split at h
    · cases h
    · cases h
      exact ⟨_, _, _, _, rfl, fun hm => hm.rest (t := [offset, size]) hst⟩
  · cases h

theorem opStop_quiet : (opStop : Execution S).Quiet := by
  intro env calls m r m' h
  cases h
  exact ⟨_, _, _, _, rfl, fun hm => hm.stack⟩

theorem jump_moved {m m' : Machine S} {pos : Int} {r : Ret} (h : jump m st pos = .ok (r, m')) :
    ∃ pc jumpdests, m' = m.moved pc st m.mem jumpdests m.evm.db := by
  simp only [jump] at h
  split at h
  · cases h
  · split at h
    · cases h
      exact ⟨_, _, rfl⟩
    · cases h
      exact ⟨_, _, rfl⟩

theorem opJump_quiet : (opJump : Execution S).Quiet := by
  intro env calls m r m' h
  simp only [opJump] at h
  split at h
  · next pos st hst =>
    obtain ⟨pc, jumpdests, rfl⟩ := jump_moved h
    exact ⟨_, _, _, _, rfl, fun hm => hm.rest (t := [pos]) hst⟩
  · cases h

theorem opJumpi_quiet : (opJumpi : Execution S).Quiet := by
  intro env calls m r m' h
  simp only [opJumpi] at h
  split at h
  · next pos cond st hst =>
    split at h
    · obtain ⟨pc, jumpdests, rfl⟩ := jump_moved h
      exact ⟨_, _, _, _, rfl, fun hm => hm.rest (t := [pos, cond]) hst⟩
    · cases h
      exact ⟨_, _, _, _, rfl, fun hm => hm.rest (t := [pos, cond]) hst⟩
  · cases h

/-! ## Operations on the state -/

section Moves

theorem querying_moves (get : S → Address → Int × S) : (querying get).Moves := by
  intro env calls m r m' h
  simp only [querying] at h
  split at h
  · cases h
    exact ⟨_, _, _, _, _, rfl⟩
  · cases h

variable [StateDB S]

theorem opExtCodeSize_moves : (opExtCodeSize : Execution S).Moves := by
  apply querying_moves

theorem opSha3_moves : (opSha3 : Execution S).Moves := by
  intro env calls m r m' h
  simp only [opSha3] at h
  split at h
  · split at h
    · cases h
    · cases h
      exact ⟨_, _, _, _, _, rfl⟩
  · cases h

theorem opExtCodeCopy_moves : (opExtCodeCopy : Execution S).Moves := by
  intro env calls m r m' h
  simp only [opExtCodeCopy] at h
  split at h
  · obtain ⟨mem, rfl⟩ := copyToMemory_moved h
    exact ⟨_, _, _, _, _, rfl⟩
  · cases h

theorem opSload_moves : (opSload : Execution S).Moves := by
  intro env calls m r m' h
  simp only [opSload] at h
  split at h
  · cases h
    exact ⟨_, _, _, _, _, rfl⟩
  · cases h

theorem opSstore_moves : (opSstore : Execution S).Moves := by
  intro env calls m r m' h
  simp only [opSstore] at h
  split at h
  · cases h
    exact ⟨_, _, _, _, _, rfl⟩
  · cases h

theorem makeLog_moves (n : Nat) : (makeLog n : Execution S).Moves := by
  intro env calls m r m' h
  simp only [makeLog] at h
  split at h
  · split at h
    · cases h
    · split at h
      · cases h
      · cases h
        exact ⟨_, _, _, _, _, rfl⟩
  · cases h

theorem opSuicide_moves : (opSuicide : Execution S).Moves := by
  intro env calls m r m' h
  simp only [opSuicide] at h
  split at h
  · cases h
    exact ⟨_, _, _, _, _, rfl⟩
  · cases h

end Moves

/-! ## The tables -/

/-- An operation that does not call. -/
structure Operation.Plain (operation : Operation S) : Prop where
  execute : operation.execute.Moves
  gasCost : operation.gasCost.Prices

/-- An operation that only moves the frame, at a price that asks for the memory at most. -/
structure Operation.Quiet (operation : Operation S) : Prop where
  execute : operation.execute.Quiet
  gasCost : operation.gasCost.Pure

variable {operation : Operation S}

theorem quiet_of_binary {f : Int → Int → Int} {gas : UInt64} (he : operation.execute = binary f)
    (hg : operation.gasCost = constGasFunc gas) (hf : ∀ x y, 0 ≤ x → 0 ≤ y → 0 ≤ f x y) :
    operation.Quiet :=
  ⟨he ▸ binary_quiet hf, hg ▸ constGasFunc_pure gas⟩

theorem quiet_of_pushing {f : Env → Machine S → Int} {gas : UInt64}
    (he : operation.execute = pushing f) (hg : operation.gasCost = constGasFunc gas)
    (hf : ∀ env m, m.Fair env → 0 ≤ f env m) : operation.Quiet :=
  ⟨he ▸ pushing_quiet hf, hg ▸ constGasFunc_pure gas⟩

theorem Operation.Quiet.plain (h : operation.Quiet) : operation.Plain :=
  ⟨h.execute.moves, h.gasCost.prices⟩

variable [StateDB S]

/-- The opcodes that run other code: `CREATE`, `CALL`, `CALLCODE`, `DELEGATECALL`, `STATICCALL`. -/
def callOps : List UInt8 := [0xf0, 0xf1, 0xf2, 0xf4, 0xfa]

/-- An entry of a table: an operation that does not call, or one of the five that do, under its
byte. -/
inductive Operation.Kind (op : UInt8) : Operation S → Prop
  | plain {operation : Operation S} (hop : op ∉ callOps) (h : operation.Plain) : operation.Kind op
  | create (hop : op = 0xf0) : Operation.Kind op
      { execute := opCreate, gasCost := gasCreate, pops := 3, pushes := 1,
        memorySize := some memoryCreate, writes := true, returns := true }
  | call (hop : op = 0xf1) : Operation.Kind op
      { execute := opCall, gasCost := gasCall, pops := 7, pushes := 1,
        memorySize := some memoryCall, returns := true }
  | callCode (hop : op = 0xf2) : Operation.Kind op
      { execute := opCallCode, gasCost := gasCallCode, pops := 7, pushes := 1,
        memorySize := some memoryCall, returns := true }
  | delegateCall (hop : op = 0xf4) : Operation.Kind op
      { execute := opDelegateCall, gasCost := gasDelegateCall, pops := 6, pushes := 1,
        memorySize := some memoryDelegateCall, returns := true }
  | staticCall (hop : op = 0xfa) : Operation.Kind op
      { execute := opStaticCall, gasCost := gasStaticCall, pops := 6, pushes := 1,
        memorySize := some memoryStaticCall, returns := true }

variable {env : Env} {op : UInt8}

theorem constantinople_of_jumpTable (h : env.jumpTable op = some operation) :
    ∃ code, OpCode.ofByte op = some code ∧ constantinopleInstructionSet code = some operation := by
  obtain ⟨code, hcode, h⟩ := bind_eq_some_iff.mp h
  have hhomestead : frontierInstructionSet code = some operation →
      homesteadInstructionSet code = some operation := by
    intro h
    cases code <;> first | exact h | cases h
  have hbyzantium : homesteadInstructionSet code = some operation →
      byzantiumInstructionSet code = some operation := by
    intro h
    cases code <;> first | exact h | cases h
  have hconstantinople : byzantiumInstructionSet code = some operation →
      constantinopleInstructionSet code = some operation := by
    intro h
    cases code <;> first | exact h | cases h
  refine ⟨code, hcode, ?_⟩
  simp only [Env.instructionSet] at h
  split at h
  · exact h
  · apply hconstantinople
    split at h
    · exact h
    · apply hbyzantium
      split at h
      · exact h
      · exact hhomestead h

/-- The operations that read or write the state, and those that call. -/
def OpCode.Stateful : OpCode → Prop
  | .sha3 | .balance | .extCodeSize | .extCodeCopy | .sload | .sstore | .log _ | .selfdestruct
  | .create | .call | .callCode | .delegateCall | .staticCall => True
  | _ => False

theorem quiet_of_constantinople {code : OpCode} (hcode : ¬ code.Stateful) :
    (constantinopleInstructionSet code : Option (Operation S)).elim True Operation.Quiet := by
  cases code with
  | add | sub | mul => exact quiet_of_binary rfl rfl fun _ _ _ _ => u256_nonneg _
  | div =>
    exact quiet_of_binary rfl rfl fun _ _ _ _ => ite_nonneg (u256_nonneg _) le_rfl
  | mod | shl | shr =>
    exact quiet_of_binary rfl rfl fun _ _ _ _ => ite_nonneg le_rfl (u256_nonneg _)
  | sdiv | smod =>
    refine quiet_of_binary rfl rfl fun _ _ _ _ => ite_nonneg le_rfl ?_
    exact ite_nonneg (u256_nonneg _) (u256_nonneg _)
  | lt | gt | eq => exact quiet_of_binary rfl rfl fun _ _ _ _ => ofBool_nonneg _
  | slt =>
    refine quiet_of_binary rfl rfl fun _ _ _ _ => ite_nonneg zero_le_one ?_
    exact ite_nonneg le_rfl (ofBool_nonneg _)
  | sgt =>
    refine quiet_of_binary rfl rfl fun _ _ _ _ => ite_nonneg le_rfl ?_
    exact ite_nonneg zero_le_one (ofBool_nonneg _)
  | and => exact quiet_of_binary rfl rfl fun _ _ => bitwise_nonneg fun _ _ => rfl
  | or => exact quiet_of_binary rfl rfl fun _ _ => bitwise_nonneg fun _ _ => rfl
  | xor => exact quiet_of_binary rfl rfl fun _ _ => bitwise_nonneg fun _ _ => rfl
  | byte =>
    refine quiet_of_binary rfl rfl fun th val _ _ => ite_nonneg ?_ le_rfl
    exact ite_nonneg le_rfl (Int.natCast_nonneg _)
  | sar =>
    refine quiet_of_binary rfl rfl fun _ _ _ _ => ite_nonneg ?_ (u256_nonneg _)
    exact ite_nonneg (u256_nonneg _) (u256_nonneg _)
  | exp => exact ⟨binary_quiet fun x y _ _ => exp_nonneg 64 x y, gasExp_pure⟩
  | iszero =>
    refine ⟨unary_quiet fun x _ => ?_, constGasFunc_pure _⟩
    split <;> decide
  | not => exact ⟨unary_quiet fun _ _ => u256_nonneg _, constGasFunc_pure _⟩
  | addmod | mulmod =>
    refine ⟨ternary_quiet fun x y z _ _ _ => ?_, constGasFunc_pure _⟩
    exact ite_nonneg (u256_nonneg _) le_rfl
  | signExtend => exact ⟨opSignExtend_quiet, constGasFunc_pure _⟩
  | pop => exact ⟨opPop_quiet, constGasFunc_pure _⟩
  | dup n => exact ⟨makeDup_quiet _, constGasFunc_pure _⟩
  | swap n => exact ⟨makeSwap_quiet _, constGasFunc_pure _⟩
  | address | origin | caller | coinbase =>
    exact quiet_of_pushing rfl rfl fun _ _ _ => setBytes_nonneg _
  | callValue => exact quiet_of_pushing rfl rfl fun _ _ hm => hm.value
  | gasprice => exact quiet_of_pushing rfl rfl fun _ _ hm => hm.gasPrice
  | callDataSize | codeSize | returnDataSize | pc | msize | gas =>
    exact quiet_of_pushing rfl rfl fun _ _ _ => Int.natCast_nonneg _
  | timestamp | number | difficulty | gasLimit =>
    exact quiet_of_pushing rfl rfl fun _ _ _ => u256_nonneg _
  | stop | jumpdest => exact ⟨opStop_quiet, constGasFunc_pure _⟩
  | blockhash => exact ⟨opBlockhash_quiet, constGasFunc_pure _⟩
  | callDataLoad => exact ⟨opCallDataLoad_quiet, constGasFunc_pure _⟩
  | push n => exact ⟨makePush_quiet _, constGasFunc_pure _⟩
  | jump => exact ⟨opJump_quiet, constGasFunc_pure _⟩
  | jumpi => exact ⟨opJumpi_quiet, constGasFunc_pure _⟩
  | mload => exact ⟨opMload_quiet, memoryPlusGas_pure _⟩
  | mstore => exact ⟨opMstore_quiet, memoryPlusGas_pure _⟩
  | mstore8 => exact ⟨opMstore8_quiet, memoryPlusGas_pure _⟩
  | callDataCopy => exact ⟨opCallDataCopy_quiet, copyGasFunc_pure _ _ _⟩
  | codeCopy => exact ⟨opCodeCopy_quiet, copyGasFunc_pure _ _ _⟩
  | returnDataCopy => exact ⟨opReturnDataCopy_quiet, copyGasFunc_pure _ _ _⟩
  | «return» | revert => exact ⟨opReturn_quiet, gasReturn_pure⟩
  | sha3 | balance | extCodeSize | extCodeCopy | sload | sstore | log n | selfdestruct | create
  | call | callCode | delegateCall | staticCall => exact absurd trivial hcode

theorem of_jumpTable {P : Operation S → Prop} (h : env.jumpTable op = some operation)
    (hall : ∀ code, OpCode.ofByte op = some code →
      (constantinopleInstructionSet code).elim True P) : P operation := by
  obtain ⟨code, hcode, h⟩ := constantinople_of_jumpTable h
  have hP := hall code hcode
  rw [h] at hP
  exact hP

/-- The byte of an opcode that runs other code. -/
def OpCode.callByte : OpCode → Option UInt8
  | create => some 0xf0
  | call => some 0xf1
  | callCode => some 0xf2
  | delegateCall => some 0xf4
  | staticCall => some 0xfa
  | _ => none

theorem ofByte_bind_callByte (op : UInt8) :
    (OpCode.ofByte op).bind OpCode.callByte = if op ∈ callOps then some op else none := by
  have hall : ∀ i : Fin 256, (OpCode.ofByte ⟨⟨i⟩⟩).bind OpCode.callByte =
      if (⟨⟨i⟩⟩ : UInt8) ∈ callOps then some ⟨⟨i⟩⟩ else none := by decide +kernel
  exact hall op.toFin

theorem kind_of_jumpTable (h : env.jumpTable op = some operation) : operation.Kind op := by
  refine of_jumpTable h fun code hcode => ?_
  have hbyte := ofByte_bind_callByte op
  rw [hcode, bind_some] at hbyte
  have hcall : ∀ b, code.callByte = some b → op = b := by
    intro b hb
    rw [hb] at hbyte
    split at hbyte
    · exact (Option.some.inj hbyte).symm
    · cases hbyte
  have hplain : code.callByte = none → op ∉ callOps := by
    intro hnone hmem
    rw [hnone, if_pos hmem] at hbyte
    cases hbyte
  have hquiet : ¬ code.Stateful → _ := quiet_of_constantinople (S := S)
  cases code with
  | sha3 => exact .plain (hplain rfl) ⟨opSha3_moves, (copyGasFunc_pure _ _ _).prices⟩
  | balance => exact .plain (hplain rfl) ⟨querying_moves _, (tableGas_pure _).prices⟩
  | extCodeSize => exact .plain (hplain rfl) ⟨opExtCodeSize_moves, (tableGas_pure _).prices⟩
  | extCodeCopy => exact .plain (hplain rfl) ⟨opExtCodeCopy_moves, (copyGasFunc_pure _ _ _).prices⟩
  | sload => exact .plain (hplain rfl) ⟨opSload_moves, (tableGas_pure _).prices⟩
  | sstore => exact .plain (hplain rfl) ⟨opSstore_moves, gasSStore_prices⟩
  | log n => exact .plain (hplain rfl) ⟨makeLog_moves _, (makeGasLog_pure _).prices⟩
  | selfdestruct => exact .plain (hplain rfl) ⟨opSuicide_moves, gasSuicide_prices⟩
  | create => exact .create (hcall _ rfl)
  | call => exact .call (hcall _ rfl)
  | callCode => exact .callCode (hcall _ rfl)
  | delegateCall => exact .delegateCall (hcall _ rfl)
  | staticCall => exact .staticCall (hcall _ rfl)
  | _ => exact .plain (hplain rfl) (Operation.Quiet.plain (hquiet not_false))

theorem Operation.Kind.prices (h : operation.Kind op) : operation.gasCost.Prices := by
  cases h with
  | plain hop h => exact h.gasCost
  | create => exact (memoryPlusGas_pure _).prices
  | call => exact gasCall_prices
  | callCode => exact gasCallCode_pure.prices
  | delegateCall => exact gasDelegateCall_pure.prices
  | staticCall => exact gasDelegateCall_pure.prices

end Geth.Vm
