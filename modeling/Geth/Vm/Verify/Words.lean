import Geth.Vm.Words

/-!
# The operations on references compute the operations on values

No two references on the stack and in the pool are the same, so an integer that an operation changes
in place is nobody else's. `Holds` says so of a state, together with the references that the code
has in its variables; each primitive has one rule for it.
-/

namespace Geth.Vm

open Function List

/-- The code runs from `s` to a result and a state that satisfy `Q`. -/
def IntOp.Gives {α : Type} (x : IntOp α) (s : Ints) (Q : α → Ints → Prop) : Prop :=
  ∃ a s', x s = some (a, s') ∧ Q a s'

theorem IntOp.bind_some {α β : Type} {x : IntOp α} {f : α → IntOp β} {s s' : Ints} {a : α}
    (h : x s = some (a, s')) : (x >>= f) s = f a s' := by
  change (x s).bind (fun r => f r.1 r.2) = f a s'
  rw [h]
  rfl

theorem IntOp.Gives.bind {α β : Type} {x : IntOp α} {f : α → IntOp β} {s : Ints}
    {P : α → Ints → Prop} {Q : β → Ints → Prop} (hx : x.Gives s P)
    (hf : ∀ {a s'}, P a s' → (f a).Gives s' Q) : (x >>= f).Gives s Q := by
  obtain ⟨a, s', hx, ha⟩ := hx
  obtain ⟨b, s'', hb, hq⟩ := hf ha
  exact ⟨b, s'', (IntOp.bind_some hx).trans hb, hq⟩

/-- The references in use are all different: those in variables, with their values, those on the
stack, with these values, and those in the pool. -/
structure Holds (s : Ints) (vars : List (Ref × Int)) (values : List Int) : Prop where
  nodup : (vars.map Prod.fst ++ (s.stack ++ s.pool)).Nodup
  used : ∀ p ∈ vars.map Prod.fst ++ (s.stack ++ s.pool), p < s.next
  vars : ∀ e ∈ vars, s.heap e.1 = e.2
  stack : s.stack.map s.heap = values

namespace Holds

variable {s : Ints} {vars vars' : List (Ref × Int)} {values : List Int} {p : Ref} {v v' : Int}
  {α : Type} {Q : α → Ints → Prop} {f : Ref → IntOp α}

theorem perm (h : Holds s vars values) (hp : vars'.Perm vars) : Holds s vars' values where
  nodup := ((hp.map Prod.fst).append_right _).nodup_iff.2 h.nodup
  used q hq := h.used q (((hp.map Prod.fst).append_right _).mem_iff.1 hq)
  vars e he := h.vars e (hp.mem_iff.1 he)
  stack := h.stack

theorem swap {a b : Ref × Int} (h : Holds s (a :: b :: vars) values) :
    Holds s (b :: a :: vars) values :=
  h.perm (Perm.swap a b vars)

theorem third {a b c : Ref × Int} (h : Holds s (a :: b :: c :: vars) values) :
    Holds s (c :: a :: b :: vars) values :=
  h.perm ((Perm.swap a c _).trans ((Perm.swap b c vars).cons a))

theorem forget (h : Holds s ((p, v) :: vars) values) : Holds s vars values where
  nodup := (nodup_cons.1 h.nodup).2
  used q hq := h.used q (mem_cons_of_mem p hq)
  vars e he := h.vars e (mem_cons_of_mem _ he)
  stack := h.stack

theorem pop (h : Holds s vars (v :: values)) :
    IntOp.pop.Gives s fun p s' => Holds s' ((p, v) :: vars) values := by
  obtain ⟨heap, next, stack, pool⟩ := s
  obtain ⟨hn, hu, hv, hs⟩ := h
  cases stack with
  | nil => cases hs
  | cons p stack =>
    obtain ⟨hp, hs⟩ := List.cons.inj hs
    have hperm : (vars.map Prod.fst ++ (p :: stack ++ pool)).Perm
      (p :: (vars.map Prod.fst ++ (stack ++ pool))) := perm_middle
    refine ⟨p, ⟨heap, next, stack, pool⟩, rfl, hperm.nodup_iff.1 hn, fun q hq =>
      hu q (hperm.mem_iff.2 hq), fun e he => ?_, hs⟩
    rcases mem_cons.1 he with rfl | he
    · exact hp
    · exact hv e he

section

variable (h : Holds s ((p, v) :: vars) values)

include h

theorem push :
    (IntOp.push p).Gives s fun _ s' => Holds s' vars (v :: values) := by
  obtain ⟨hn, hu, hv, hs⟩ := h
  have hperm : (vars.map Prod.fst ++ (p :: s.stack ++ s.pool)).Perm
    (p :: (vars.map Prod.fst ++ (s.stack ++ s.pool))) := perm_middle
  exact ⟨_, _, rfl, hperm.nodup_iff.2 hn, fun q hq => hu q (hperm.mem_iff.1 hq),
    fun e he => hv e (mem_cons_of_mem _ he),
    cons_eq_cons.2 ⟨hv (p, v) mem_cons_self, hs⟩⟩

theorem load {f : Int → IntOp α} (hf : (f v).Gives s Q) :
    (IntOp.load p >>= f).Gives s Q := by
  rwa [IntOp.Gives, IntOp.bind_some (show IntOp.load p s = some (v, s) by
    rw [IntOp.load, h.vars _ mem_cons_self])]

theorem run_store (v' : Int) :
    ∃ s', IntOp.store p v' s = some (p, s') ∧ Holds s' ((p, v') :: vars) values := by
  obtain ⟨hn, hu, hv, hs⟩ := h
  have hp : p ∉ vars.map Prod.fst ++ (s.stack ++ s.pool) := (nodup_cons.1 hn).1
  refine ⟨_, rfl, hn, hu, fun e he => ?_, ?_⟩
  · rcases mem_cons.1 he with rfl | he
    · exact update_self p v' s.heap
    · have hne : e.1 ≠ p := fun heq => hp (mem_append_left _ (heq ▸ mem_map_of_mem he))
      exact (update_of_ne hne v' s.heap).trans (hv e (mem_cons_of_mem _ he))
  · rw [← hs]
    refine map_congr_left fun q hq => update_of_ne ?_ v' s.heap
    exact fun heq => hp (mem_append_right _ (mem_append_left _ (heq ▸ hq)))

theorem store (v' : Int)
    (hf : ∀ {s'}, Holds s' ((p, v') :: vars) values → (f p).Gives s' Q) :
    (IntOp.store p v' >>= f).Gives s Q := by
  obtain ⟨s', hs, h'⟩ := h.run_store v'
  rw [IntOp.Gives, IntOp.bind_some hs]
  exact hf h'

end

theorem alloc (h : Holds s vars values) (v : Int) :
    (IntOp.alloc v).Gives s fun p s' => Holds s' ((p, v) :: vars) values := by
  obtain ⟨hn, hu, hv, hs⟩ := h
  have hp : s.next ∉ vars.map Prod.fst ++ (s.stack ++ s.pool) := fun hm =>
    Nat.lt_irrefl _ (hu _ hm)
  refine ⟨s.next, _, rfl, nodup_cons.2 ⟨hp, hn⟩, fun q hq => ?_, fun e he => ?_, ?_⟩
  · rcases mem_cons.1 hq with rfl | hq
    · exact Nat.lt_succ_self _
    · exact Nat.lt_succ_of_lt (hu q hq)
  · rcases mem_cons.1 he with rfl | he
    · exact update_self s.next v s.heap
    · have hne : e.1 ≠ s.next := fun heq =>
        hp (mem_append_left _ (heq ▸ mem_map_of_mem he))
      exact (update_of_ne hne v s.heap).trans (hv e he)
  · rw [← hs]
    refine map_congr_left fun q hq => update_of_ne ?_ v s.heap
    exact fun heq => hp (mem_append_right _ (mem_append_left _ (heq ▸ hq)))

theorem getZero (h : Holds s vars values) :
    IntOp.getZero.Gives s fun p s' => Holds s' ((p, 0) :: vars) values := by
  obtain ⟨heap, next, stack, pool⟩ := s
  cases pool with
  | nil => exact h.alloc 0
  | cons p pool =>
    obtain ⟨hn, hu, hv, hs⟩ := h
    have hperm : (vars.map Prod.fst ++ (stack ++ p :: pool)).Perm
        (p :: (vars.map Prod.fst ++ (stack ++ pool))) :=
      ((perm_middle).append_left _).trans perm_middle
    -- the integer leaves the pool with the value that it has
    have htake : Holds ⟨heap, next, stack, pool⟩ ((p, heap p) :: vars) values := by
      refine ⟨hperm.nodup_iff.1 hn, fun q hq => hu q (hperm.mem_iff.2 hq), fun e he => ?_, hs⟩
      rcases mem_cons.1 he with rfl | he
      · rfl
      · exact hv e he
    obtain ⟨s', hstore, h'⟩ := htake.run_store 0
    exact ⟨p, s', hstore, h'⟩

theorem put (gone : List (Ref × Int)) (h : Holds s (gone ++ vars) values) :
    (IntOp.put (gone.map Prod.fst)).Gives s fun _ s' => Holds s' vars values := by
  obtain ⟨hn, hu, hv, hs⟩ := h
  rw [map_append, append_assoc] at hn hu
  unfold IntOp.Gives IntOp.put
  split
  · exact ⟨_, _, rfl, (nodup_append.1 hn).2.1, fun q hq => hu q (mem_append_right _ hq),
      fun e he => hv e (mem_append_right _ he), hs⟩
  · have hperm : (vars.map Prod.fst ++ (s.stack ++ ((gone.map Prod.fst).reverse ++ s.pool))).Perm
        (gone.map Prod.fst ++ (vars.map Prod.fst ++ (s.stack ++ s.pool))) := by
      refine Perm.trans ?_ (perm_append_comm_assoc _ _ _)
      refine Perm.append_left _ ?_
      exact (((reverse_perm _).append_right _).append_left _).trans (perm_append_comm_assoc _ _ _)
    exact ⟨_, _, rfl, hperm.nodup_iff.2 hn, fun q hq => hu q (hperm.mem_iff.1 hq),
      fun e he => hv e (mem_append_right _ he), hs⟩

section

variable (h : Holds s ((p, v) :: vars) values)

include h

theorem u256
    (hf : ∀ {s'}, Holds s' ((p, Vm.u256 v) :: vars) values → (f p).Gives s' Q) :
    (IntOp.u256 p >>= f).Gives s Q := by
  rw [IntOp.u256, bind_assoc]
  exact h.load (h.store _ hf)

theorem neg
    (hf : ∀ {s'}, Holds s' ((p, -v) :: vars) values → (f p).Gives s' Q) :
    (IntOp.neg p >>= f).Gives s Q := by
  rw [IntOp.neg, bind_assoc]
  exact h.load (h.store _ hf)

theorem abs
    (hf : ∀ {s'}, Holds s' ((p, (v.natAbs : Int)) :: vars) values → (f p).Gives s' Q) :
    (IntOp.abs p >>= f).Gives s Q := by
  rw [IntOp.abs, bind_assoc]
  exact h.load (h.store _ hf)

theorem s256 :
    (IntOp.s256 p).Gives s fun q s' => Holds s' ((q, Vm.s256 v) :: vars) values := by
  rw [IntOp.s256, Vm.s256]
  refine h.load ?_
  split
  · exact ⟨p, s, rfl, h⟩
  · obtain ⟨q, s', hs, h'⟩ := h.alloc (v - 2 ^ 256)
    exact ⟨q, s', hs, (h'.swap).forget⟩

end

/-! ## The top of the stack, changed where it is -/

/-- The reference on the top of the stack. -/
def Top (s : Ints) (p : Ref) : Prop := s.stack.head? = some p

section

variable (h : Holds s vars (v :: values))

include h

theorem peek :
    IntOp.peek.Gives s fun p s' => Top s' p ∧ Holds s' vars (v :: values) := by
  obtain ⟨heap, next, stack, pool⟩ := s
  cases stack with
  | nil => cases h.stack
  | cons p stack => exact ⟨p, _, rfl, rfl, h⟩

theorem load_top {f : Int → IntOp α} (hp : Top s p)
    (hf : (f v).Gives s Q) : (IntOp.load p >>= f).Gives s Q := by
  obtain ⟨stack, hstack⟩ := List.head?_eq_some_iff.1 hp
  have hv := h.stack
  rw [hstack] at hv
  rwa [IntOp.Gives, IntOp.bind_some (show IntOp.load p s = some (v, s) by
    rw [IntOp.load, (List.cons.inj hv).1])]

theorem store_top (hp : Top s p) (v' : Int)
    (hf : ∀ {s'}, Top s' p → Holds s' vars (v' :: values) → (f p).Gives s' Q) :
    (IntOp.store p v' >>= f).Gives s Q := by
  obtain ⟨heap, next, stack, pool⟩ := s
  obtain ⟨stack, rfl⟩ := List.head?_eq_some_iff.1 hp
  obtain ⟨_, _, hpop, h1⟩ := h.pop
  cases hpop
  obtain ⟨_, hstore, h2⟩ := h1.run_store v'
  cases hstore
  obtain ⟨_, _, hpush, h3⟩ := h2.push
  cases hpush
  exact hf rfl h3

theorem u256_top (hp : Top s p)
    (hf : ∀ {s'}, Top s' p → Holds s' vars (Vm.u256 v :: values) → (f p).Gives s' Q) :
    (IntOp.u256 p >>= f).Gives s Q := by
  rw [IntOp.u256, bind_assoc]
  exact h.load_top hp (h.store_top hp _ hf)

end

end Holds

/-! ## Operations -/

/-- A piece of code computes a function on the values of the stack. -/
def Computes (op : IntOp Unit) (f : List Int → Option (List Int)) : Prop :=
  ∀ s values values', Holds s [] values → f values = some values' →
    ∃ s', op s = some ((), s') ∧ Holds s' [] values'

/-- The function of an operation on the two values on the top of the stack. -/
def onTwo (f : Int → Int → Int) : List Int → Option (List Int)
  | x :: y :: st => some (f x y :: st)
  | _ => none

def onThree (f : Int → Int → Int → Int) : List Int → Option (List Int)
  | x :: y :: z :: st => some (f x y z :: st)
  | _ => none

def onOne (f : Int → Int) : List Int → Option (List Int)
  | x :: st => some (f x :: st)
  | _ => none

variable {op : IntOp Unit}

theorem computes_two {f : Int → Int → Int} (h : ∀ s x y st, Holds s [] (x :: y :: st) →
      op.Gives s fun _ s' => Holds s' [] (f x y :: st)) : Computes op (onTwo f) := by
  intro s values values' hs hf
  match values, hf with
  | x :: y :: st, hf =>
    obtain rfl := Option.some.inj hf
    obtain ⟨_, s', hop, hs'⟩ := h s x y st hs
    exact ⟨s', hop, hs'⟩

theorem computes_one {f : Int → Int} (h : ∀ s x st, Holds s [] (x :: st) →
      op.Gives s fun _ s' => Holds s' [] (f x :: st)) :
    Computes op (onOne f) := by
  intro s values values' hs hf
  match values, hf with
  | x :: st, hf =>
    obtain rfl := Option.some.inj hf
    obtain ⟨_, s', hop, hs'⟩ := h s x st hs
    exact ⟨s', hop, hs'⟩

theorem computes_three {f : Int → Int → Int → Int}
    (h : ∀ s x y z st, Holds s [] (x :: y :: z :: st) →
      op.Gives s fun _ s' => Holds s' [] (f x y z :: st)) : Computes op (onThree f) := by
  intro s values values' hs hf
  match values, hf with
  | x :: y :: z :: st, hf =>
    obtain rfl := Option.some.inj hf
    obtain ⟨_, s', hop, hs'⟩ := h s x y z st hs
    exact ⟨s', hop, hs'⟩

namespace IntOp

theorem intoSecond_computes (f : Int → Int → Int) : Computes (intoSecond f) (onTwo f) := by
  refine computes_two fun s x y st h => ?_
  refine h.pop.bind fun {px s1} h1 => h1.peek.bind fun ⟨hp, h1⟩ => ?_
  refine h1.load (h1.load_top hp (h1.store_top hp _ fun _ h2 => ?_))
  exact h2.put [(px, x)]

theorem intoSecondU256_computes (f : Int → Int → Int) :
    Computes (intoSecondU256 f) (onTwo fun x y => Vm.u256 (f x y)) := by
  refine computes_two fun s x y st h => ?_
  refine h.pop.bind fun {px s1} h1 => h1.peek.bind fun ⟨hp, h1⟩ => ?_
  refine h1.load (h1.load_top hp (h1.store_top hp _ fun hp h2 => h2.u256_top hp fun _ h3 => ?_))
  exact h3.put [(px, x)]

theorem opDiv_computes : Computes opDiv (onTwo Vm.div) := by
  refine computes_two fun s x y st h => ?_
  refine h.pop.bind fun {px s1} h1 => h1.peek.bind fun ⟨hp, h1⟩ => h1.load_top hp ?_
  rw [Vm.div]
  split
  · refine h1.load (h1.load_top hp (h1.store_top hp _ fun hp h2 => h2.u256_top hp fun _ h3 => ?_))
    exact h3.put [(px, x)]
  · exact h1.store_top hp 0 fun _ h2 => h2.put [(px, x)]

theorem opMul_computes : Computes opMul (onTwo fun x y => Vm.u256 (x * y)) := by
  refine computes_two fun s x y st h => ?_
  refine h.pop.bind fun {px s1} h1 => h1.pop.bind fun {py s2} h2 => ?_
  refine h2.swap.load (h2.load (h2.swap.store _ fun h3 => h3.u256 fun h4 => ?_))
  exact h4.push.bind fun h5 => h5.put [(py, y)]

theorem opAnd_computes : Computes opAnd (onTwo Int.land) := by
  refine computes_two fun s x y st h => ?_
  refine h.pop.bind fun {px s1} h1 => h1.pop.bind fun {py s2} h2 => ?_
  refine h2.swap.load (h2.load (h2.swap.store _ fun h3 => ?_))
  exact h3.push.bind fun h4 => h4.put [(py, y)]

theorem opMod_computes : Computes opMod (onTwo Vm.mod) := by
  refine computes_two fun s x y st h => ?_
  refine h.pop.bind fun {px s1} h1 => h1.pop.bind fun {py s2} h2 => h2.load ?_
  rw [Vm.mod]
  split
  · exact h2.swap.store 0 fun h3 => h3.push.bind fun h4 => h4.put [(py, y)]
  · refine h2.swap.load (h2.load (h2.swap.store _ fun h3 => h3.u256 fun h4 => ?_))
    exact h4.push.bind fun h5 => h5.put [(py, y)]

theorem opExp_computes : Computes opExp (onTwo fun x y => (Vm.exp 64 x y).1) := by
  refine computes_two fun s x y st h => ?_
  refine h.pop.bind fun {px s1} h1 => h1.pop.bind fun {py s2} h2 => ?_
  rw [IntOp.exp]
  simp only [bind_assoc, pure_bind]
  refine h2.swap.load (h2.load ((h2.swap.alloc _).bind fun {pr s3} h3 => ?_))
  refine h3.swap.store _ fun h4 => h4.swap.push.bind fun h5 => ?_
  exact h5.put [(px, _), (py, y)]

theorem signedResult {s : Ints} {px py pr : Ref} {x y r : Int} {st : List Int}
    (h : Holds s [(pr, r), (px, x), (py, y)] st) (f : Int → Int → Int) (negative : Prop)
    [Decidable negative] :
    Gives (do
        let res ← store pr (f (← load (← abs px)) (← load (← abs py)))
        let res ← if negative then neg res else pure res
        push (← u256 res)
        put [px, py]) s fun _ s' =>
      Holds s' [] (Vm.u256 (if negative then -f x.natAbs y.natAbs else f x.natAbs y.natAbs) ::
        st) := by
  refine h.swap.abs fun h1 => h1.load (h1.third.abs fun h2 => h2.load ?_)
  refine h2.third.store _ fun h3 => ?_
  split
  · refine h3.neg fun h4 => h4.u256 fun h5 => h5.push.bind fun h6 => ?_
    exact h6.swap.put [(px, _), (py, _)]
  · rw [pure_bind]
    refine h3.u256 fun h4 => h4.push.bind fun h5 => ?_
    exact h5.swap.put [(px, _), (py, _)]

theorem opSdiv_computes : Computes opSdiv (onTwo Vm.sdiv) := by
  refine computes_two fun s x y st h => ?_
  refine h.pop.bind fun h1 => h1.s256.bind fun {px s2} h2 => ?_
  refine h2.pop.bind fun h3 => h3.s256.bind fun {py s4} h4 => ?_
  refine h4.getZero.bind fun h5 => h5.third.load (h5.swap.load ?_)
  rw [Vm.sdiv]
  split
  · exact h5.push.bind fun h6 => h6.swap.put [(px, _), (py, _)]
  · rw [← apply_ite Vm.u256]
    exact signedResult h5.third.swap (· / ·) ((Vm.s256 x).sign ≠ (Vm.s256 y).sign)

theorem opSmod_computes : Computes opSmod (onTwo Vm.smod) := by
  refine computes_two fun s x y st h => ?_
  refine h.pop.bind fun h1 => h1.s256.bind fun {px s2} h2 => ?_
  refine h2.pop.bind fun h3 => h3.s256.bind fun {py s4} h4 => ?_
  refine h4.getZero.bind fun h5 => h5.third.load (h5.swap.load ?_)
  rw [Vm.smod]
  split
  · exact h5.push.bind fun h6 => h6.swap.put [(px, _), (py, _)]
  · rw [← apply_ite Vm.u256]
    exact signedResult h5.third.swap (· % ·) (Vm.s256 x < 0)

theorem opModulo_computes (f : Int → Int → Int) :
    Computes (opModulo f) (onThree fun x y z => if z > 0 then Vm.u256 (f x y % z) else 0) := by
  refine computes_three fun s x y z st h => ?_
  refine h.pop.bind fun h1 => h1.pop.bind fun {py s2} h2 => h2.pop.bind fun {pz s3} h3 => h3.load ?_
  split
  · refine h3.third.load (h3.swap.load (h3.third.store _ fun h4 => h4.load (h4.swap.load ?_)))
    refine h4.store _ fun h5 => h5.u256 fun h6 => h6.push.bind fun h7 => ?_
    exact h7.swap.put [(py, y), (pz, z)]
  · refine h3.third.store 0 fun h4 => h4.push.bind fun h5 => ?_
    exact h5.swap.put [(py, y), (pz, z)]

theorem opNot_computes : Computes opNot (onOne fun x => Vm.u256 (Int.lnot x)) := by
  refine computes_one fun s x st h => ?_
  refine h.peek.bind fun ⟨hp, h⟩ => h.load_top hp (h.store_top hp _ fun hp h1 => ?_)
  exact h1.u256_top hp fun _ h2 => ⟨_, _, rfl, h2⟩

theorem opIszero_computes : Computes opIszero (onOne fun x => if x > 0 then 0 else 1) := by
  refine computes_one fun s x st h => ?_
  refine h.peek.bind fun ⟨hp, h⟩ => h.load_top hp (h.store_top hp _ fun _ h1 => ?_)
  exact ⟨_, _, rfl, h1⟩

theorem opShift_computes (f : Int → Nat → Int) : Computes (opShift f) (onTwo fun shift value =>
    if Vm.u256 shift ≥ 256 then 0
    else Vm.u256 (f (Vm.u256 value) (uint64 (Vm.u256 shift)).toNat)) := by
  refine computes_two fun s x y st h => ?_
  refine h.pop.bind fun {p s1} h1 => h1.u256 fun h2 => h2.peek.bind fun ⟨hp, h2⟩ => ?_
  refine h2.u256_top hp fun hp h3 => h3.load ?_
  split
  · exact h3.store_top hp 0 fun _ h4 => h4.put [(p, _)]
  · refine h3.load_top hp (h3.store_top hp _ fun hp h4 => h4.u256_top hp fun _ h5 => ?_)
    exact h5.put [(p, _)]

theorem opSHL_computes : Computes opSHL (onTwo Vm.shl) := by
  have h := opShift_computes fun x n => x * 2 ^ n
  have hf : (fun shift value => if Vm.u256 shift ≥ 256 then 0
      else Vm.u256 (Vm.u256 value * 2 ^ (uint64 (Vm.u256 shift)).toNat)) = Vm.shl := by
    funext shift value
    rw [Vm.shl]
  rwa [hf] at h

theorem opSHR_computes : Computes opSHR (onTwo Vm.shr) := by
  have h := opShift_computes fun x n => x >>> n
  have hf : (fun shift value => if Vm.u256 shift ≥ 256 then 0
      else Vm.u256 (Vm.u256 value >>> (uint64 (Vm.u256 shift)).toNat)) = Vm.shr := by
    funext shift value
    rw [Vm.shr]
  rwa [hf] at h

theorem opSAR_computes : Computes opSAR (onTwo Vm.sar) := by
  refine computes_two fun s x y st h => ?_
  refine h.pop.bind fun {p s1} h1 => h1.u256 fun h2 => h2.pop.bind fun h3 => ?_
  refine h3.s256.bind fun h4 => h4.swap.load ?_
  rw [Vm.sar]
  split
  · rw [← apply_ite Vm.u256]
    refine h4.load (h4.store _ fun h5 => h5.u256 fun h6 => h6.push.bind fun h7 => ?_)
    exact h7.put [(p, _)]
  · refine h4.load (h4.store _ fun h5 => h5.u256 fun h6 => h6.push.bind fun h7 => ?_)
    exact h7.put [(p, _)]

/-- The function of `opSignExtend`. -/
def signExtendStack : List Int → Option (List Int)
  | back :: st => if back < 31 then
      match st with
      | num :: st => some (signExtend back num :: st)
      | [] => none
    else some st
  | _ => none

theorem opSignExtend_computes : Computes opSignExtend signExtendStack := by
  intro s values values' h hf
  suffices hgives : opSignExtend.Gives s fun _ s' => Holds s' [] values' by
    obtain ⟨_, s', hop, hs'⟩ := hgives
    exact ⟨s', hop, hs'⟩
  cases values with
  | nil => cases hf
  | cons back st =>
    refine h.pop.bind fun {p s1} h1 => h1.load ?_
    unfold signExtendStack at hf
    dsimp only at hf
    split at hf
    · next hlt =>
      rw [if_pos hlt]
      cases st with
      | nil => cases hf
      | cons num st =>
        obtain rfl := Option.some.inj hf
        rw [signExtend]
        refine h1.pop.bind fun h2 => h2.swap.store _ fun h3 => h3.load (h3.store _ fun h4 => ?_)
        refine h4.swap.load ?_
        split
        · refine h4.load
            (h4.store _ fun h5 => h5.swap.load (h5.load (h5.swap.store _ fun h6 => ?_)))
          exact h6.u256 fun h7 => h7.push.bind fun h8 => h8.put [(p, _)]
        · refine h4.swap.load (h4.load (h4.swap.store _ fun h5 => ?_))
          exact h5.u256 fun h6 => h6.push.bind fun h7 => h7.put [(p, _)]
    · next hge =>
      rw [if_neg hge]
      obtain rfl := Option.some.inj hf
      exact h1.put [(p, _)]

end IntOp

namespace WordOp

/-- What an operation makes of the values on the stack. -/
def value : WordOp → List Int → Option (List Int)
  | add => onTwo fun x y => u256 (x + y)
  | mul => onTwo fun x y => u256 (x * y)
  | sub => onTwo fun x y => u256 (x - y)
  | div => onTwo Vm.div
  | sdiv => onTwo Vm.sdiv
  | mod => onTwo Vm.mod
  | smod => onTwo Vm.smod
  | addmod => onThree fun x y z => if z > 0 then u256 ((x + y) % z) else 0
  | mulmod => onThree fun x y z => if z > 0 then u256 (x * y % z) else 0
  | exp => onTwo fun base exponent => (Vm.exp 64 base exponent).1
  | signextend => IntOp.signExtendStack
  | lt => onTwo fun x y => ofBool (decide (x < y))
  | gt => onTwo fun x y => ofBool (decide (x > y))
  | slt => onTwo Vm.slt
  | sgt => onTwo Vm.sgt
  | eq => onTwo fun x y => ofBool (decide (x = y))
  | iszero => onOne fun x => if x > 0 then 0 else 1
  | and => onTwo Int.land
  | or => onTwo Int.lor
  | xor => onTwo Int.xor
  | not => onOne fun x => u256 (Int.lnot x)
  | byte => onTwo fun th val => if th < 32 then Vm.byte val 32 (int64 th) else 0
  | shl => onTwo Vm.shl
  | shr => onTwo Vm.shr
  | sar => onTwo Vm.sar

theorem execution_eq {S : Type} (op : WordOp) : (op.execution : Execution S) = onStack
    op.value := by
  cases op <;> rfl

theorem execute_computes (op : WordOp) : Computes op.execute op.value := by
  cases op with
  | add => exact IntOp.intoSecondU256_computes _
  | mul => exact IntOp.opMul_computes
  | sub => exact IntOp.intoSecondU256_computes _
  | div => exact IntOp.opDiv_computes
  | sdiv => exact IntOp.opSdiv_computes
  | mod => exact IntOp.opMod_computes
  | smod => exact IntOp.opSmod_computes
  | addmod => exact IntOp.opModulo_computes _
  | mulmod => exact IntOp.opModulo_computes _
  | exp => exact IntOp.opExp_computes
  | signextend => exact IntOp.opSignExtend_computes
  | lt => exact IntOp.intoSecond_computes _
  | gt => exact IntOp.intoSecond_computes _
  | slt => exact IntOp.intoSecond_computes _
  | sgt => exact IntOp.intoSecond_computes _
  | eq => exact IntOp.intoSecond_computes _
  | iszero => exact IntOp.opIszero_computes
  | and => exact IntOp.opAnd_computes
  | or => exact IntOp.intoSecond_computes _
  | xor => exact IntOp.intoSecond_computes _
  | not => exact IntOp.opNot_computes
  | byte => exact IntOp.intoSecond_computes _
  | shl => exact IntOp.opSHL_computes
  | shr => exact IntOp.opSHR_computes
  | sar => exact IntOp.opSAR_computes

end WordOp

end Geth.Vm
