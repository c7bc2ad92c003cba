import Mathlib.Data.Finset.Card
import Mathlib.Data.Finset.Range
import Mathlib.Data.Finset.SDiff

/-!
# Numbered descriptors with a limit

Each descriptor handed out is the lowest number that is free. Nothing is taken
back here: a program that closes nothing can take as many as were free at first.
-/

structure Descriptors where
  limit : Nat
  opened : Finset Nat

namespace Descriptors

def free (d : Descriptors) : Finset Nat := Finset.range d.limit \ d.opened

def room (d : Descriptors) : Nat := d.free.card

/-- The number that is handed out next, if there is one. -/
def lowest (d : Descriptors) : Option Nat := (List.range d.limit).find? fun fd => fd ∉ d.opened

def take (d : Descriptors) : Descriptors :=
  match d.lowest with
  | none => d
  | some fd => ⟨d.limit, insert fd d.opened⟩

theorem lowest_mem {d : Descriptors} {fd : Nat} (h : d.lowest = some fd) : fd ∈ d.free := by
  have inside := List.mem_of_find?_eq_some h
  have closed := List.find?_some h
  simpa [free] using And.intro (List.mem_range.mp inside) (of_decide_eq_true closed)

theorem lowest_eq_none_iff (d : Descriptors) : d.lowest = none ↔ d.room = 0 := by
  rw [room, Finset.card_eq_zero, free, Finset.sdiff_eq_empty_iff_subset, lowest,
    List.find?_eq_none]
  simp [Finset.subset_iff]

/-- Every descriptor taken leaves one less. -/
theorem take_room {d : Descriptors} {fd : Nat} (h : d.lowest = some fd) :
    d.take.room + 1 = d.room := by
  have rest : d.take.free = d.free.erase fd := by
    ext x
    simp only [take, h, free, Finset.mem_sdiff, Finset.mem_insert, Finset.mem_erase]
    tauto
  rw [room, room, rest]
  exact Finset.card_erase_add_one (lowest_mem h)

end Descriptors
