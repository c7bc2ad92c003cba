import Mathlib.Data.List.Basic
import Mathlib.Data.List.Perm.Basic
import Mathlib.Tactic.Tauto
import Mathlib.Order.Defs.LinearOrder

/-!
# Lists read by first match

A list whose items may carry a key stands for the map that sends a key to the
first item carrying it; later items with the same key are shadowed. The lemmas
say what insertion, replacement and removal at a known position do to that map.
-/

namespace FirstMatch

universe u v

variable {α : Type u} {κ : Type v} [DecidableEq κ] (key : α → Option κ)

def first (k : κ) (items : List α) : Option α := items.find? fun a => key a = some k

variable {key}

theorem first_append_absent {k : κ} {front : List α} (absent : ∀ a ∈ front, key a ≠ some k)
    (back : List α) : first key k (front ++ back) = first key k back := by
  have hnone : front.find? (fun a => decide (key a = some k)) = none := by
    simpa [List.find?_eq_none] using absent
  simp [first, List.find?_append, hnone]

theorem first_at {k : κ} {front : List α} (absent : ∀ a ∈ front, key a ≠ some k)
    {a : α} (ha : key a = some k) (back : List α) :
    first key k (front ++ a :: back) = some a := by
  rw [first_append_absent absent]
  simp [first, ha]

theorem first_skip {k : κ} {a : α} (ha : key a ≠ some k) (front back : List α) :
    first key k (front ++ a :: back) = first key k (front ++ back) := by
  simp [first, List.find?_append, ha]

theorem first_eq_none_iff {k : κ} {items : List α} :
    first key k items = none ↔ k ∉ items.filterMap key := by
  simp [first]

/-- `new` takes the place of the first item with the key. -/
inductive Replaced (key : α → Option κ) (k : κ) (new : α) : List α → List α → Prop
  | intro {front back old} (absent : ∀ a ∈ front, key a ≠ some k) (same : key old = some k) :
      Replaced key k new (front ++ old :: back) (front ++ new :: back)

/-- `new` is put in somewhere before every item with the key. -/
inductive Inserted (key : α → Option κ) (k : κ) (new : α) : List α → List α → Prop
  | intro {front back} (absent : ∀ a ∈ front, key a ≠ some k) :
      Inserted key k new (front ++ back) (front ++ new :: back)

/-- The first item with the key is taken out. -/
inductive Erased (key : α → Option κ) (k : κ) : List α → List α → Prop
  | intro {front back old} (absent : ∀ a ∈ front, key a ≠ some k) (same : key old = some k) :
      Erased key k (front ++ old :: back) (front ++ back)

variable {k q : κ} {new : α} {items items' : List α}

theorem Replaced.first_self (h : Replaced key k new items items') (hnew : key new = some k) :
    first key k items' = some new := by
  cases h with
  | intro absent _ => exact first_at absent hnew _

theorem Replaced.first_other (h : Replaced key k new items items') (hnew : key new = some k)
    (hne : q ≠ k) : first key q items' = first key q items := by
  cases h with
  | intro _ same =>
    rw [first_skip (by rw [hnew]; simpa using Ne.symm hne),
      first_skip (by rw [same]; simpa using Ne.symm hne)]

/-- Items with other keys keep their places. -/
theorem Replaced.others (h : Replaced key k new items items') (hnew : key new = some k) :
    items'.filter (fun a => key a ≠ some k) = items.filter fun a => key a ≠ some k := by
  cases h with
  | intro _ same => simp [hnew, same]

omit [DecidableEq κ] in
theorem Replaced.keys (h : Replaced key k new items items') (hnew : key new = some k) :
    items'.filterMap key = items.filterMap key := by
  cases h with
  | intro _ same => simp [hnew, same]

omit [DecidableEq κ] in
theorem Replaced.length (h : Replaced key k new items items') :
    items'.length = items.length := by
  cases h with
  | intro => simp

omit [DecidableEq κ] in
theorem Replaced.mem (h : Replaced key k new items items') {a : α} (ha : a ∈ items') :
    a = new ∨ a ∈ items := by
  cases h with
  | intro =>
    simp only [List.mem_append, List.mem_cons] at ha ⊢
    tauto

theorem Inserted.first_self (h : Inserted key k new items items') (hnew : key new = some k) :
    first key k items' = some new := by
  cases h with
  | intro absent => exact first_at absent hnew _

theorem Inserted.first_other (h : Inserted key k new items items') (hnew : key new = some k)
    (hne : q ≠ k) : first key q items' = first key q items := by
  cases h with
  | intro _ => rw [first_skip (by rw [hnew]; simpa using Ne.symm hne)]

theorem Inserted.others (h : Inserted key k new items items') (hnew : key new = some k) :
    items'.filter (fun a => key a ≠ some k) = items.filter fun a => key a ≠ some k := by
  cases h with
  | intro _ => simp [hnew]

omit [DecidableEq κ] in
theorem Inserted.perm (h : Inserted key k new items items') : items'.Perm (new :: items) := by
  cases h with
  | intro => exact List.perm_middle

omit [DecidableEq κ] in
theorem Erased.perm (h : Erased key k items items') :
    ∃ old, key old = some k ∧ items.Perm (old :: items') := by
  cases h with
  | intro _ same => exact ⟨_, same, List.perm_middle⟩

theorem Erased.first_other (h : Erased key k items items') (hne : q ≠ k) :
    first key q items' = first key q items := by
  cases h with
  | intro _ same => rw [first_skip (by rw [same]; simpa using Ne.symm hne)]

theorem Erased.eq_eraseP (h : Erased key k items items') :
    items' = items.eraseP fun a => key a = some k := by
  cases h with
  | intro absent same =>
    rw [List.eraseP_append_right _ (by simpa using absent), List.eraseP_cons_of_pos (by simpa using same)]

/-- Taking the first match out uncovers a shadowed item exactly when there is one. -/
theorem Erased.first_self_eq_none_iff [BEq κ] [LawfulBEq κ] (h : Erased key k items items') :
    first key k items' = none ↔ (items.filterMap key).count k = 1 := by
  obtain ⟨old, same, perm⟩ := h.perm
  have hcount : (items.filterMap key).count k = (items'.filterMap key).count k + 1 := by
    rw [(perm.filterMap key).count_eq]
    simp [same]
  rw [first_eq_none_iff, hcount, ← List.count_eq_zero]
  omega

end FirstMatch
