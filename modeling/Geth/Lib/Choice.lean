import Mathlib.Data.List.Perm.Basic

/-!
# Orders that a program does not choose

A walk over a hash map visits the entries in an order that the program does not know. It is taken
from a list of numbers, which stands for all the choices that are made during a run: each element
is put anywhere among those after it, so every order is the one of some numbers, and a result that
holds for every such list holds for every order.
-/

namespace Geth.Lib

/-- An order of the elements, and the choices that are left; after their end every choice is 0. -/
def shuffle {α : Type} (choices : List Nat) : List α → List α × List Nat
  | [] => ([], choices)
  | x :: xs =>
    let (ys, rest) := shuffle choices.tail xs
    (ys.insertIdx (choices.headD 0 % (ys.length + 1)) x, rest)

theorem shuffle_perm {α : Type} (choices : List Nat) (xs : List α) :
    (shuffle choices xs).1.Perm xs := by
  induction xs generalizing choices with
  | nil => exact List.Perm.nil
  | cons x xs ih =>
    have hlt := Nat.mod_lt (choices.headD 0) (Nat.succ_pos (shuffle choices.tail xs).1.length)
    exact (List.perm_insertIdx x _ (Nat.le_of_lt_succ hlt)).trans ((ih _).cons x)

@[simp] theorem mem_shuffle {α : Type} (choices : List Nat) (xs : List α) (x : α) :
    x ∈ (shuffle choices xs).1 ↔ x ∈ xs :=
  (shuffle_perm choices xs).mem_iff

end Geth.Lib
