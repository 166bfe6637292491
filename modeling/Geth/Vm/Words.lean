import Geth.Vm.Instructions

/-!
# Words by reference (`core/vm/stack.go`, `core/vm/intpool.go`, `core/vm/instructions.go`)

The stack holds references to big integers, which the operations change in place and hand back to a
pool for reuse. `Geth.Vm.Instructions` has the values alone; here are the arithmetic operations with
the references, as the source moves them. Reading a constant of a package is reading its value,
since none is ever the target of a method.
-/

namespace Geth.Vm

/-- A reference to a `big.Int`. -/
abbrev Ref := Nat

/-- The integers, the stack and the pool of a frame; references from `next` on are not in use. -/
structure Ints where
  heap : Ref → Int
  next : Ref
  stack : List Ref
  pool : List Ref

/-- A piece of code on the integers; `none` is a panic. -/
abbrev IntOp := StateT Ints Option

namespace IntOp

def pop : IntOp Ref := fun s =>
  match s.stack with
  | [] => none
  | p :: stack => some (p, { s with stack := stack })

def peek : IntOp Ref := fun s => s.stack.head?.map fun p => (p, s)

def push (p : Ref) : IntOp Unit := fun s => some ((), { s with stack := p :: s.stack })

/-- The value of an integer. -/
def load (p : Ref) : IntOp Int := fun s => some (s.heap p, s)

/-- A method that sets its receiver and returns it. -/
def store (p : Ref) (v : Int) : IntOp Ref := fun s =>
  some (p, { s with heap := Function.update s.heap p v })

/-- `new(big.Int)`, set to a value. -/
def alloc (v : Int) : IntOp Ref := fun s =>
  some (s.next, { s with heap := Function.update s.heap s.next v, next := s.next + 1 })

def getZero : IntOp Ref := fun s =>
  match s.pool with
  | [] => alloc 0 s
  | p :: pool => store p 0 { s with pool := pool }

def put (ps : List Ref) : IntOp Unit := fun s =>
  some ((), if s.pool.length > 256 then s else { s with pool := ps.reverse ++ s.pool })

def u256 (p : Ref) : IntOp Ref := do
  let x ← load p
  store p (Vm.u256 x)

def s256 (p : Ref) : IntOp Ref := do
  let x ← load p
  if x < 2 ^ 255 then pure p else alloc (x - 2 ^ 256)

/-- `Abs` of an integer into itself. -/
def abs (p : Ref) : IntOp Ref := do
  let x ← load p
  store p x.natAbs

/-- `Neg` of an integer into itself. -/
def neg (p : Ref) : IntOp Ref := do
  let x ← load p
  store p (-x)

/-- `math.Exp`: the result is a new integer, and the base is used up. -/
def exp (base exponent : Ref) : IntOp Ref := do
  let b ← load base
  let e ← load exponent
  let (r, b) := Vm.exp 64 b e
  let result ← alloc r
  let _ ← store base b
  pure result

/-- One word of the exponent in `math.Exp`: for each of its bits the result is multiplied by the
base, or not, and the base is squared, both in place. -/
def expBits (result base : Ref) : Nat → Nat → IntOp Unit
  | 0, _ => pure ()
  | n + 1, word => do
    let _ ← if word % 2 = 1 then u256 (← store result ((← load result) * (← load base)))
      else pure result
    let _ ← u256 (← store base ((← load base) * (← load base)))
    expBits result base n (word / 2)

/-- `math.Exp`, integer by integer, on a platform with words of `w` bits. -/
def expInPlace (w : Nat) (base exponent : Ref) : IntOp Ref := do
  let result ← alloc 1
  let e ← load exponent
  (Nat.digits (2 ^ w) e.natAbs).forM (expBits result base w)
  pure result

/-! ## The operations -/

/-- A result that the second operand, left on the stack, is set to. -/
def intoSecond (f : Int → Int → Int) : IntOp Unit := do
  let x ← pop
  let y ← peek
  let _ ← store y (f (← load x) (← load y))
  put [x]

/-- The same, with the result cut to 256 bits. -/
def intoSecondU256 (f : Int → Int → Int) : IntOp Unit := do
  let x ← pop
  let y ← peek
  let _ ← u256 (← store y (f (← load x) (← load y)))
  put [x]

def opAdd : IntOp Unit := intoSecondU256 (· + ·)

def opSub : IntOp Unit := intoSecondU256 (· - ·)

def opMul : IntOp Unit := do
  let x ← pop
  let y ← pop
  push (← u256 (← store x ((← load x) * (← load y))))
  put [y]

def opDiv : IntOp Unit := do
  let x ← pop
  let y ← peek
  let _ ← if (← load y) ≠ 0 then u256 (← store y ((← load x) / (← load y))) else store y 0
  put [x]

def opSdiv : IntOp Unit := do
  let x ← s256 (← pop)
  let y ← s256 (← pop)
  let res ← getZero
  let vx ← load x
  let vy ← load y
  if vy = 0 ∨ vx = 0 then
    push res
    put [x, y]
  else
    let quotient ← store res ((← load (← abs x)) / (← load (← abs y)))
    let quotient ← if vx.sign ≠ vy.sign then neg quotient else pure quotient
    push (← u256 quotient)
    put [x, y]

def opMod : IntOp Unit := do
  let x ← pop
  let y ← pop
  push (← if (← load y) = 0 then store x 0 else u256 (← store x ((← load x) % (← load y))))
  put [y]

def opSmod : IntOp Unit := do
  let x ← s256 (← pop)
  let y ← s256 (← pop)
  let res ← getZero
  let vx ← load x
  let vy ← load y
  if vy = 0 then
    push res
    put [x, y]
  else
    let remainder ← store res ((← load (← abs x)) % (← load (← abs y)))
    let remainder ← if vx < 0 then neg remainder else pure remainder
    push (← u256 remainder)
    put [x, y]

def opExp : IntOp Unit := do
  let base ← pop
  let exponent ← pop
  push (← exp base exponent)
  put [base, exponent]

/-- `opSignExtend`; the mask is made in the integer of the position. -/
def opSignExtend : IntOp Unit := do
  let back ← pop
  let b ← load back
  if b < 31 then
    let bit := (uint64 b * 8 + 7).toNat
    let num ← pop
    let mask ← store back (2 ^ bit)
    let mask ← store mask ((← load mask) - 1)
    let num ←
      if Vm.bit (← load num) bit then
        let mask ← store mask (Int.lnot (← load mask))
        store num (Int.lor (← load num) (← load mask))
      else store num (Int.land (← load num) (← load mask))
    push (← u256 num)
    put [back]
  else put [back]

def opNot : IntOp Unit := do
  let x ← peek
  let _ ← u256 (← store x (Int.lnot (← load x)))

def opLt : IntOp Unit := intoSecond fun x y => ofBool (decide (x < y))

def opGt : IntOp Unit := intoSecond fun x y => ofBool (decide (x > y))

def opSlt : IntOp Unit := intoSecond slt

def opSgt : IntOp Unit := intoSecond sgt

def opEq : IntOp Unit := intoSecond fun x y => ofBool (decide (x = y))

def opIszero : IntOp Unit := do
  let x ← peek
  let _ ← store x (if (← load x) > 0 then 0 else 1)

def opAnd : IntOp Unit := do
  let x ← pop
  let y ← pop
  push (← store x (Int.land (← load x) (← load y)))
  put [y]

def opOr : IntOp Unit := intoSecond Int.lor

def opXor : IntOp Unit := intoSecond Int.xor

def opByte : IntOp Unit := intoSecond fun th val => if th < 32 then byte val 32 (int64 th) else 0

/-- `opAddmod` and `opMulmod`, with the sum or the product. -/
def opModulo (f : Int → Int → Int) : IntOp Unit := do
  let x ← pop
  let y ← pop
  let z ← pop
  if (← load z) > 0 then
    let x ← store x (f (← load x) (← load y))
    let x ← store x ((← load x) % (← load z))
    push (← u256 x)
  else push (← store x 0)
  put [y, z]

def opAddmod : IntOp Unit := opModulo (· + ·)

def opMulmod : IntOp Unit := opModulo (· * ·)

/-- `opSHL` and `opSHR`, with the shift. -/
def opShift (f : Int → Nat → Int) : IntOp Unit := do
  let shift ← u256 (← pop)
  let value ← u256 (← peek)
  let n ← load shift
  let _ ← if n ≥ 256 then store value 0
    else u256 (← store value (f (← load value) (uint64 n).toNat))
  put [shift]

def opSHL : IntOp Unit := opShift fun x n => x * 2 ^ n

def opSHR : IntOp Unit := opShift fun x n => x >>> n

def opSAR : IntOp Unit := do
  let shift ← u256 (← pop)
  let value ← s256 (← pop)
  let n ← load shift
  let value ←
    if n ≥ 256 then store value (if (← load value) > 0 then 0 else -1)
    else store value ((← load value) >>> (uint64 n).toNat)
  push (← u256 value)
  put [shift]

end IntOp

/-- The operations of arithmetic, comparison and bitwise logic. -/
inductive WordOp where
  | add | mul | sub | div | sdiv | mod | smod | addmod | mulmod | exp | signextend
  | lt | gt | slt | sgt | eq | iszero | and | or | xor | not | byte | shl | shr | sar
  deriving DecidableEq

namespace WordOp

/-- The code of an operation. -/
def execute : WordOp → IntOp Unit
  | add => IntOp.opAdd
  | mul => IntOp.opMul
  | sub => IntOp.opSub
  | div => IntOp.opDiv
  | sdiv => IntOp.opSdiv
  | mod => IntOp.opMod
  | smod => IntOp.opSmod
  | addmod => IntOp.opAddmod
  | mulmod => IntOp.opMulmod
  | exp => IntOp.opExp
  | signextend => IntOp.opSignExtend
  | lt => IntOp.opLt
  | gt => IntOp.opGt
  | slt => IntOp.opSlt
  | sgt => IntOp.opSgt
  | eq => IntOp.opEq
  | iszero => IntOp.opIszero
  | and => IntOp.opAnd
  | or => IntOp.opOr
  | xor => IntOp.opXor
  | not => IntOp.opNot
  | byte => IntOp.opByte
  | shl => IntOp.opSHL
  | shr => IntOp.opSHR
  | sar => IntOp.opSAR

/-- A run of operations. -/
def executeAll (ops : List WordOp) : IntOp Unit := ops.forM execute

/-- The operation on values, as the interpreter has it. -/
def execution {S : Type} : WordOp → Execution S
  | add => opAdd
  | mul => opMul
  | sub => opSub
  | div => opDiv
  | sdiv => opSdiv
  | mod => opMod
  | smod => opSmod
  | addmod => opAddmod
  | mulmod => opMulmod
  | exp => opExp
  | signextend => opSignExtend
  | lt => opLt
  | gt => opGt
  | slt => opSlt
  | sgt => opSgt
  | eq => opEq
  | iszero => opIszero
  | and => opAnd
  | or => opOr
  | xor => opXor
  | not => opNot
  | byte => opByte
  | shl => opSHL
  | shr => opSHR
  | sar => opSAR

end WordOp

end Geth.Vm
