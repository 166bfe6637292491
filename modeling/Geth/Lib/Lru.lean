import Mathlib.Data.List.Basic

/-!
# A cache that drops its least recently used entry

What matters to the users of a cache is that it invents nothing: a fact that holds of all entries
(`Lru.All`) survives `get`, and survives `add` when it holds of the added entry.
-/

namespace Geth.Lib

open List

/-- A cache of at most `size` entries, the most recently used first. -/
structure Lru (κ ν : Type) where
  size : Nat
  entries : List (κ × ν)

namespace Lru

variable {κ ν : Type} [DecidableEq κ]

def new (size : Nat) : Lru κ ν := ⟨size, []⟩

/-- The value of a key, without a change to the cache. -/
def peek (c : Lru κ ν) (k : κ) : Option ν := (c.entries.find? (·.1 = k)).map Prod.snd

/-- The entries with a key moved to the front, under the value given. -/
def toFront (c : Lru κ ν) (k : κ) (v : ν) : List (κ × ν) := (k, v) :: c.entries.filter (·.1 ≠ k)

def get (c : Lru κ ν) (k : κ) : Option ν × Lru κ ν :=
  match c.peek k with
  | some v => (some v, { c with entries := c.toFront k v })
  | none => (none, c)

/-- A new key may push the oldest entry out; a known one only gets its new value. -/
def add (c : Lru κ ν) (k : κ) (v : ν) : Lru κ ν :=
  match c.peek k with
  | some _ => { c with entries := c.toFront k v }
  | none => { c with entries := ((k, v) :: c.entries).take c.size }

/-- Drops all entries. -/
def purge (c : Lru κ ν) : Lru κ ν := { c with entries := [] }

/-- Every entry satisfies `P`. -/
def All (P : κ → ν → Prop) (c : Lru κ ν) : Prop := ∀ e ∈ c.entries, P e.1 e.2

variable {P Q : κ → ν → Prop} {c : Lru κ ν} {k : κ} {v : ν}

omit [DecidableEq κ] in
theorem all_new (size : Nat) : All P (new size) := fun _ h => nomatch h

omit [DecidableEq κ] in
theorem all_purge (c : Lru κ ν) : c.purge.All P := fun _ h => nomatch h

omit [DecidableEq κ] in
theorem All.mono (h : c.All P) (hPQ : ∀ k v, P k v → Q k v) : c.All Q :=
  fun e he => hPQ e.1 e.2 (h e he)

theorem All.peek (h : c.All P) (hv : c.peek k = some v) : P k v := by
  obtain ⟨e, he, rfl⟩ := Option.map_eq_some_iff.mp hv
  obtain rfl : e.1 = k := by simpa using List.find?_some he
  exact h e (mem_of_find?_eq_some he)

theorem All.toFront (h : c.All P) (hv : P k v) : ∀ e ∈ c.toFront k v, P e.1 e.2 := by
  intro e he
  rcases mem_cons.mp he with rfl | he
  · exact hv
  · exact h e (mem_of_mem_filter he)

theorem All.get (h : c.All P) (k : κ) : (c.get k).2.All P := by
  rw [Lru.get]
  split
  case h_1 v hv => exact h.toFront (h.peek hv)
  case h_2 => exact h

theorem All.get_eq (h : c.All P) (hv : (c.get k).1 = some v) : P k v := by
  rw [Lru.get] at hv
  split at hv
  case h_1 w hw =>
    cases hv
    exact h.peek hw
  case h_2 => cases hv

theorem All.add (h : c.All P) (hv : P k v) : (c.add k v).All P := by
  rw [Lru.add]
  split
  case h_1 => exact h.toFront hv
  case h_2 =>
    intro e he
    rcases mem_cons.mp (mem_of_mem_take he) with rfl | he
    · exact hv
    · exact h e he

end Lru

end Geth.Lib
