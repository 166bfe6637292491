import Mathlib.Logic.Function.Basic

/-!
# Cells by reference

Values that a program reaches through references. References are given out one after another, so
that whether a piece of code leaves the values of its caller alone is a matter of the references it
writes to.
-/

namespace Geth.Lib

open Function

/-- A reference to a cell. -/
abbrev Ptr := Nat

/-- Cells with values in `α`; the references below `next` have been given out. -/
structure Arena (α : Type) where
  cell : Ptr → α
  next : Ptr

namespace Arena

variable {α : Type}

/-- A new cell. -/
def alloc (m : Arena α) (a : α) : Ptr × Arena α :=
  (m.next, ⟨Function.update m.cell m.next a, m.next + 1⟩)

/-- A write to a cell. -/
def set (m : Arena α) (p : Ptr) (a : α) : Arena α := { m with cell := Function.update m.cell p a }

/-- The cells of `m` are there in `m'`, with the values they had. -/
structure Extends (m m' : Arena α) : Prop where
  next_le : m.next ≤ m'.next
  cell_eq : ∀ p < m.next, m'.cell p = m.cell p

/-- The reference has been given out after `m`. -/
structure Since (m m' : Arena α) (p : Ptr) : Prop where
  next_le : m.next ≤ p
  lt_next : p < m'.next

variable {m m' m'' : Arena α} {p : Ptr}

@[simp] theorem alloc_fst (m : Arena α) (a : α) : (m.alloc a).1 = m.next := rfl

@[simp] theorem alloc_cell (m : Arena α) (a : α) : (m.alloc a).2.cell m.next = a :=
  update_self ..

@[simp] theorem set_cell (m : Arena α) (p : Ptr) (a : α) : (m.set p a).cell p = a :=
  update_self ..

theorem set_cell_of_ne {q : Ptr} (h : q ≠ p) (m : Arena α) (a : α) :
    (m.set p a).cell q = m.cell q :=
  update_of_ne h ..

theorem Extends.refl (m : Arena α) : m.Extends m := ⟨Nat.le_refl _, fun _ _ => rfl⟩

theorem Extends.trans (h : m.Extends m') (h' : m'.Extends m'') : m.Extends m'' where
  next_le := Nat.le_trans h.next_le h'.next_le
  cell_eq p hp := (h'.cell_eq p (Nat.lt_of_lt_of_le hp h.next_le)).trans (h.cell_eq p hp)

theorem extends_alloc (m : Arena α) (a : α) : m.Extends (m.alloc a).2 where
  next_le := Nat.le_succ _
  cell_eq _ hp := update_of_ne (Nat.ne_of_lt hp) ..

theorem Extends.set (h : m.Extends m') (hp : m.Since m' p) (a : α) : m.Extends (m'.set p a) where
  next_le := h.next_le
  cell_eq q hq :=
    (set_cell_of_ne (Nat.ne_of_lt (Nat.lt_of_lt_of_le hq hp.next_le)) m' a).trans (h.cell_eq q hq)

theorem Extends.since_alloc (h : m.Extends m') (a : α) : m.Since (m'.alloc a).2 m'.next :=
  ⟨h.next_le, Nat.lt_succ_self _⟩

end Arena

end Geth.Lib
