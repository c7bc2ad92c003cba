import Mathlib.Logic.Function.Basic

/-!
# Pointers, invalid accesses and an explicit store

Every access the C standard leaves undefined is a `Fault`, so a call that
returns has made none. A `Ptr` is a nonnull pointer read together with the
object it points to. A `Heap` maps the addresses of live blocks to their
contents; addresses are handed out once, so a block that was freed is never
live again and touching it is a fault.
-/

namespace Memory

universe u v

inductive Fault where
  | nullPointer
  | deadBlock
  | badBlock
  | outOfBounds
  | endless
  deriving DecidableEq, Repr

structure Ptr (α : Type u) where
  addr : Nat
  obj : α
  deriving DecidableEq, Repr

section Outcomes

variable {ε : Type u} {α β : Type v}

@[simp] theorem ok_bind (a : α) (f : α → Except ε β) : (Except.ok a >>= f) = f a := rfl

@[simp] theorem error_bind (e : ε) (f : α → Except ε β) :
    (Except.error e >>= f) = Except.error e := rfl

@[simp] theorem pure_eq_ok (a : α) : (pure a : Except ε α) = .ok a := rfl

@[simp] theorem throw_eq_error (e : ε) : (throw e : Except ε α) = .error e := rfl

/-- What a sequence of two computations returned comes from both having returned. -/
theorem bind_eq_ok_iff (x : Except ε α) (f : α → Except ε β) (b : β) :
    (x >>= f) = .ok b ↔ ∃ a, x = .ok a ∧ f a = .ok b := by
  cases x with
  | error e => simp
  | ok a => simp

/-- A result that is only repackaged adds no fault. -/
theorem bind_pure_eq_error_iff (x : Except ε α) (f : α → β) (e : ε) :
    (x >>= fun a => pure (f a)) = .error e ↔ x = .error e := by
  cases x <;> simp

end Outcomes

structure Heap (β : Type u) where
  cell : Nat → Option β
  next : Nat
  fresh : ∀ a, next ≤ a → cell a = none

namespace Heap

variable {β : Type u}

def empty : Heap β := ⟨fun _ => none, 0, fun _ _ => rfl⟩

def alloc (σ : Heap β) (b : β) : Heap β where
  cell := Function.update σ.cell σ.next (some b)
  next := σ.next + 1
  fresh := by
    intro a ha
    have hne : a ≠ σ.next := by omega
    rw [Function.update_of_ne hne]
    exact σ.fresh a (by omega)

/-- Overwrite or, with `none`, release a block handed out earlier. -/
def set (σ : Heap β) (a : Nat) (old : a < σ.next) (b : Option β) : Heap β where
  cell := Function.update σ.cell a b
  next := σ.next
  fresh := by
    intro c hc
    have hne : c ≠ a := by omega
    rw [Function.update_of_ne hne]
    exact σ.fresh c hc

theorem lt_next {σ : Heap β} {a : Nat} {b : β} (live : σ.cell a = some b) : a < σ.next := by
  by_contra h
  rw [σ.fresh a (by omega)] at live
  cases live

def load (σ : Heap β) : Option Nat → Except Fault β
  | none => .error .nullPointer
  | some a => match σ.cell a with
    | none => .error .deadBlock
    | some b => .ok b

def store (σ : Heap β) (a : Nat) (b : β) : Except Fault (Heap β) :=
  match h : σ.cell a with
  | none => .error .deadBlock
  | some _ => .ok (σ.set a (lt_next h) (some b))

def free (σ : Heap β) (a : Nat) : Except Fault (Heap β) :=
  match h : σ.cell a with
  | none => .error .deadBlock
  | some _ => .ok (σ.set a (lt_next h) none)

@[simp] theorem alloc_cell_new (σ : Heap β) (b : β) : (σ.alloc b).cell σ.next = some b := by
  simp [alloc]

theorem alloc_cell_old {σ : Heap β} {a : Nat} {c : β} (b : β) (live : σ.cell a = some c) :
    (σ.alloc b).cell a = some c := by
  have hne : a ≠ σ.next := Nat.ne_of_lt (lt_next live)
  simpa [alloc, Function.update_of_ne hne] using live

@[simp] theorem alloc_next (σ : Heap β) (b : β) : (σ.alloc b).next = σ.next + 1 := rfl

@[simp] theorem set_cell_self (σ : Heap β) (a : Nat) (old : a < σ.next) (b : Option β) :
    (σ.set a old b).cell a = b := by
  simp [set]

theorem set_cell_other (σ : Heap β) {a c : Nat} (old : a < σ.next) (b : Option β)
    (hne : c ≠ a) : (σ.set a old b).cell c = σ.cell c := by
  simp [set, Function.update_of_ne hne]

theorem load_live {σ : Heap β} {a : Nat} {b : β} (live : σ.cell a = some b) :
    σ.load (some a) = .ok b := by
  simp [load, live]

theorem store_live {σ : Heap β} {a : Nat} {b : β} (live : σ.cell a = some b) (c : β) :
    σ.store a c = .ok (σ.set a (lt_next live) (some c)) := by
  unfold store
  split
  · rename_i h
    rw [h] at live
    cases live
  · rfl

theorem free_live {σ : Heap β} {a : Nat} {b : β} (live : σ.cell a = some b) :
    σ.free a = .ok (σ.set a (lt_next live) none) := by
  unfold free
  split
  · rename_i h
    rw [h] at live
    cases live
  · rfl

theorem store_eq_ok {σ σ' : Heap β} {a : Nat} {b : β} (h : σ.store a b = .ok σ') :
    ∃ old, σ' = σ.set a old (some b) := by
  unfold store at h
  split at h
  · cases h
  · cases h
    exact ⟨_, rfl⟩

theorem free_eq_ok {σ σ' : Heap β} {a : Nat} (h : σ.free a = .ok σ') :
    ∃ old, σ' = σ.set a old none := by
  unfold free at h
  split at h
  · cases h
  · cases h
    exact ⟨_, rfl⟩

theorem load_dead {σ : Heap β} {a : Nat} (dead : σ.cell a = none) :
    σ.load (some a) = .error .deadBlock := by
  simp [load, dead]

end Heap

end Memory
