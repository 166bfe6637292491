import Mathlib.Algebra.Group.Nat.Even
import Mathlib.Data.List.Basic

/-!
# Sync intervals

`swarm/network/stream/intervals`: the ranges that have been synced, both ends included. Numbers are
those of 64 bits.
-/

namespace Geth.Swarm

abbrev Range := Nat × Nat

structure Intervals where
  start : Nat
  ranges : List Range

namespace Intervals

def new (start : Nat) : Intervals :=
  ⟨start, []⟩

/-- One more, as the machine counts. -/
def succ (x : Nat) : Nat :=
  (x + 1) % 2 ^ 64

def pred (x : Nat) : Nat :=
  (x + (2 ^ 64 - 1)) % 2 ^ 64

/-- The variables of the loop in `add`; an index below zero is `none`. -/
structure Scan where
  start : Nat
  stop : Nat
  minStartJ : Option Nat
  maxEndJ : Option Nat

def Scan.first (s : Scan) (j : Nat) (r : Range) : Scan :=
  if s.minStartJ = none ∧ (s.start ≤ r.1 ∧ r.1 ≤ succ s.stop ∨
      s.start ≤ succ r.2 ∧ r.2 ≤ succ s.stop) then
    { s with start := if r.1 < s.start then r.1 else s.start, minStartJ := some j }
  else s

def Scan.last (s : Scan) (j : Nat) (r : Range) : Scan :=
  if s.start ≤ r.2 ∧ r.2 ≤ succ s.stop ∨ s.start ≤ r.1 ∧ r.1 ≤ succ s.stop then
    { s with stop := if s.stop < r.2 then r.2 else s.stop, maxEndJ := some j }
  else s

/-- The loop, with the index at which it ends. -/
def Scan.run (j : Nat) (s : Scan) : List Range → Nat × Scan
  | [] => (j, s)
  | r :: ranges =>
    let s := (s.first j r).last j r
    if succ s.stop ≤ r.1 then (j, s) else run (j + 1) s ranges

/-- What `add` makes of the ranges when the loop has ended at `j`. -/
def Scan.write (s : Scan) (j : Nat) (ranges : List Range) : List Range :=
  match s.minStartJ, s.maxEndJ with
  | none, none => ranges.take j ++ (s.start, s.stop) :: ranges.drop j
  | some a, none => ranges.modify a fun r => (s.start, r.2)
  | none, some b => ranges.modify b fun r => (r.1, s.stop)
  | some a, some b =>
    let ranges := (ranges.modify a fun r => (s.start, r.2)).modify b fun r => (r.1, s.stop)
    if a = b then ranges
    else
      let ranges := ranges.modify b fun r => (s.start, r.2)
      ranges.take a ++ ranges.drop b

def add (i : Intervals) (r : Range) : Intervals :=
  let start := if r.1 < i.start then i.start else r.1
  if r.2 < i.start then i
  else
    let (j, s) := Scan.run 0 ⟨start, r.2, none, none⟩ i.ranges
    { i with ranges := s.write j i.ranges }

def merge (i m : Intervals) : Intervals :=
  m.ranges.foldl add i

/-- The next gap; an end of zero stands for none. -/
def next (i : Intervals) : Nat × Nat :=
  match i.ranges with
  | [] => (i.start, 0)
  | r :: ranges =>
    if r.1 ≠ i.start then (i.start, pred r.1)
    else match ranges with
      | [] => (succ r.2, 0)
      | r' :: _ => (succ r.2, pred r'.1)

inductive Op
  | add (r : Range) | merge (m : Intervals)

def apply (i : Intervals) : Op → Intervals
  | .add r => i.add r
  | .merge m => i.merge m

end Intervals

end Geth.Swarm
