import Mathlib.Data.Finset.Card
import Mathlib.Data.Multiset.MapFold
import RemoteTable.Memory

/-!
# Blocks owned by a data structure

A part of a heap is described by the multiset of its blocks, each an address
with its contents. Owning it means that the addresses are distinct and live
with these contents; every operation on an owned block changes the description
at that block alone. Descriptions are added, so the rest of the heap is a frame.
-/

namespace Ownership

open Memory

universe u

variable {β : Type u} {σ : Heap β} {m m' : Multiset (Nat × β)} {a : Nat} {b : β}

structure Owns (σ : Heap β) (m : Multiset (Nat × β)) : Prop where
  nodup : (m.map Prod.fst).Nodup
  live : ∀ p ∈ m, σ.cell p.1 = some p.2

theorem Owns.mono (h : Owns σ m) (le : m' ≤ m) : Owns σ m' where
  nodup := Multiset.nodup_of_le (Multiset.map_le_map le) h.nodup
  live := fun p hp => h.live p (Multiset.mem_of_le le hp)

theorem Owns.congr (h : Owns σ m) (same : m' = m) : Owns σ m' := same ▸ h

theorem Owns.left (h : Owns σ (m + m')) : Owns σ m := h.mono (Multiset.le_add_right m m')

theorem Owns.right (h : Owns σ (m + m')) : Owns σ m' := h.mono (Multiset.le_add_left m' m)

theorem Owns.cell (h : Owns σ m) (mem : (a, b) ∈ m) : σ.cell a = some b := h.live (a, b) mem

theorem Owns.load (h : Owns σ m) (mem : (a, b) ∈ m) : σ.load (some a) = .ok b :=
  Heap.load_live (h.cell mem)

/-- A structure has no more blocks than addresses were handed out. -/
theorem Owns.card_le (h : Owns σ m) : m.card ≤ σ.next := by
  have below : (m.map Prod.fst).toFinset ⊆ Finset.range σ.next := by
    intro a ha
    obtain ⟨p, hp, rfl⟩ := Multiset.mem_map.mp (Multiset.mem_toFinset.mp ha)
    exact Finset.mem_range.mpr (Heap.lt_next (h.live p hp))
  have hcard := Finset.card_le_card below
  rwa [Multiset.toFinset_card_of_nodup h.nodup, Multiset.card_map, Finset.card_range] at hcard

/-- Descriptions of different blocks add up. -/
theorem Owns.add (h : Owns σ m) (h' : Owns σ m') (apart : ∀ p ∈ m', p.1 ∉ m.map Prod.fst) :
    Owns σ (m + m') where
  nodup := by
    rw [Multiset.map_add, Multiset.nodup_add]
    refine ⟨h.nodup, h'.nodup, Multiset.disjoint_left.mpr ?_⟩
    intro a ha ha'
    obtain ⟨p, hp, rfl⟩ := Multiset.mem_map.mp ha'
    exact apart p hp ha
  live := by
    intro p hp
    rcases Multiset.mem_add.mp hp with hp | hp
    · exact h.live p hp
    · exact h'.live p hp

theorem Owns.single (live : σ.cell a = some b) : Owns σ {(a, b)} where
  nodup := Multiset.nodup_singleton a
  live := by
    intro p hp
    rw [Multiset.mem_singleton.mp hp]
    exact live

theorem Owns.alloc (h : Owns σ m) (b : β) : Owns (σ.alloc b) ({(σ.next, b)} + m) where
  nodup := by
    rw [Multiset.singleton_add, Multiset.map_cons, Multiset.nodup_cons]
    refine ⟨?_, h.nodup⟩
    intro hmem
    obtain ⟨p, hp, hfst⟩ := Multiset.mem_map.mp hmem
    have hlt := Heap.lt_next (h.live p hp)
    omega
  live := by
    intro p hp
    rcases Multiset.mem_add.mp hp with hp | hp
    · rw [Multiset.mem_singleton.mp hp]
      exact Heap.alloc_cell_new σ b
    · exact Heap.alloc_cell_old b (h.live p hp)

/-- Blocks elsewhere keep a description that does not mention the address. -/
theorem Owns.set (h : Owns σ m) (fresh : a ∉ m.map Prod.fst) (old : a < σ.next) (c : Option β) :
    Owns (σ.set a old c) m where
  nodup := h.nodup
  live := by
    intro p hp
    have hne : p.1 ≠ a := by
      rintro rfl
      exact fresh (Multiset.mem_map_of_mem _ hp)
    rw [Heap.set_cell_other σ old c hne]
    exact h.live p hp

theorem Owns.not_mem (h : Owns σ ({(a, b)} + m)) : a ∉ m.map Prod.fst := by
  have hnodup := h.nodup
  rw [Multiset.singleton_add, Multiset.map_cons, Multiset.nodup_cons] at hnodup
  exact hnodup.1

theorem Owns.store (h : Owns σ ({(a, b)} + m)) (c : β) :
    ∃ σ', σ.store a c = .ok σ' ∧ Owns σ' ({(a, c)} + m) ∧ σ'.next = σ.next := by
  have live : σ.cell a = some b := h.cell (by simp)
  have rest := h.right.set h.not_mem (Heap.lt_next live) (some c)
  refine ⟨σ.set a (Heap.lt_next live) (some c), Heap.store_live live c, ⟨?_, ?_⟩, rfl⟩
  · rw [Multiset.singleton_add, Multiset.map_cons, Multiset.nodup_cons]
    exact ⟨h.not_mem, rest.nodup⟩
  · intro p hp
    rcases Multiset.mem_add.mp hp with hp | hp
    · rw [Multiset.mem_singleton.mp hp]
      exact Heap.set_cell_self σ a _ (some c)
    · exact rest.live p hp

theorem Owns.free (h : Owns σ ({(a, b)} + m)) :
    ∃ σ', σ.free a = .ok σ' ∧ Owns σ' m ∧ σ'.next = σ.next := by
  have live : σ.cell a = some b := h.cell (by simp)
  exact ⟨σ.set a (Heap.lt_next live) none, Heap.free_live live,
    h.right.set h.not_mem (Heap.lt_next live) none, rfl⟩

section Descriptions

/-- Ways of describing a heap that follow every allocation, write and release,
so that a lemma about code that does only these holds of all of them. -/
structure Tracks (R : Heap β → Multiset (Nat × β) → Prop) : Prop where
  owns : ∀ {σ m}, R σ m → Owns σ m
  alloc : ∀ {σ m} (b : β), R σ m → R (σ.alloc b) ({(σ.next, b)} + m)
  store : ∀ {σ m a b} (c : β), R σ ({(a, b)} + m) →
    ∃ σ', σ.store a c = .ok σ' ∧ R σ' ({(a, c)} + m) ∧ σ'.next = σ.next
  free : ∀ {σ m a b}, R σ ({(a, b)} + m) →
    ∃ σ', σ.free a = .ok σ' ∧ R σ' m ∧ σ'.next = σ.next

/-- A description that may leave blocks out. -/
def Forgets (R : Heap β → Multiset (Nat × β) → Prop) : Prop :=
  ∀ {σ : Heap β} {m m' : Multiset (Nat × β)}, R σ (m + m') → R σ m'

theorem Tracks.congr {R : Heap β → Multiset (Nat × β) → Prop} (_ : Tracks R) (h : R σ m)
    (same : m' = m) : R σ m' := same ▸ h

theorem owns_tracks : Tracks (Owns (β := β)) where
  owns := id
  alloc := fun b h => h.alloc b
  store := fun c h => h.store c
  free := fun h => h.free

theorem owns_forgets : Forgets (Owns (β := β)) := Owns.right

/-- The description lists every live block. -/
structure Exhausts (σ : Heap β) (m : Multiset (Nat × β)) : Prop where
  owns : Owns σ m
  all : ∀ a b, σ.cell a = some b → (a, b) ∈ m

theorem Exhausts.cell_iff (h : Exhausts σ m) : σ.cell a = some b ↔ (a, b) ∈ m :=
  ⟨h.all a b, h.owns.cell⟩

theorem Exhausts.set (h : Exhausts σ ({(a, b)} + m)) (old : a < σ.next) (c : Option β) {x : Nat}
    {d : β} (live : (σ.set a old c).cell x = some d) : x = a ∧ c = some d ∨ (x, d) ∈ m := by
  by_cases hx : x = a
  · subst hx
    rw [Heap.set_cell_self] at live
    exact Or.inl ⟨rfl, live⟩
  · rw [Heap.set_cell_other σ old c hx] at live
    rcases Multiset.mem_add.mp (h.all x d live) with hmem | hmem
    · cases Multiset.mem_singleton.mp hmem
      exact absurd rfl hx
    · exact Or.inr hmem

theorem exhausts_tracks : Tracks (Exhausts (β := β)) where
  owns := Exhausts.owns
  alloc := by
    intro σ m b h
    refine ⟨h.owns.alloc b, ?_⟩
    intro a c live
    by_cases ha : a = σ.next
    · subst ha
      rw [Heap.alloc_cell_new, Option.some.injEq] at live
      simp [live]
    · have before : σ.cell a = some c := by
        simpa [Heap.alloc, Function.update_of_ne ha] using live
      exact Multiset.mem_add.mpr (Or.inr (h.all a c before))
  store := by
    intro σ m a b c h
    obtain ⟨σ', hstore, owns', hnext⟩ := h.owns.store c
    refine ⟨σ', hstore, ⟨owns', ?_⟩, hnext⟩
    obtain ⟨old, rfl⟩ := Heap.store_eq_ok hstore
    intro x d live
    rcases h.set old (some c) live with ⟨rfl, hd⟩ | hmem
    · simp [Option.some.inj hd]
    · exact Multiset.mem_add.mpr (Or.inr hmem)
  free := by
    intro σ m a b h
    obtain ⟨σ', hfree, owns', hnext⟩ := h.owns.free
    refine ⟨σ', hfree, ⟨owns', ?_⟩, hnext⟩
    obtain ⟨old, rfl⟩ := Heap.free_eq_ok hfree
    intro x d live
    rcases h.set old none live with ⟨_, hd⟩ | hmem
    · cases hd
    · exact hmem

/-- The live blocks in the order of their addresses. -/
def liveBlocks (σ : Heap β) : List (Nat × β) :=
  (List.range σ.next).filterMap fun a => (σ.cell a).map fun b => (a, b)

theorem mem_liveBlocks {p : Nat × β} : p ∈ liveBlocks σ ↔ σ.cell p.1 = some p.2 := by
  obtain ⟨a, b⟩ := p
  simp only [liveBlocks, List.mem_filterMap, List.mem_range, Option.map_eq_some_iff, Prod.mk.injEq]
  constructor
  · rintro ⟨a', _, b', live, rfl, rfl⟩
    exact live
  · intro live
    exact ⟨a, Heap.lt_next live, b, live, rfl, rfl⟩

/-- Every heap has a description that lists all of it. -/
theorem exhausts_liveBlocks (σ : Heap β) : Exhausts σ (liveBlocks σ) := by
  refine ⟨⟨?_, fun p hp => mem_liveBlocks.mp hp⟩, fun a b live => mem_liveBlocks.mpr live⟩
  rw [Multiset.map_coe, Multiset.coe_nodup, liveBlocks, List.map_filterMap]
  refine List.Nodup.filterMap ?_ List.nodup_range
  intro a a' c ha ha'
  simp only [Option.map_map, Option.mem_def, Option.map_eq_some_iff] at ha ha'
  obtain ⟨_, _, rfl⟩ := ha
  obtain ⟨_, _, h⟩ := ha'
  exact h.symm

theorem exists_exhausts (σ : Heap β) : ∃ m, Exhausts σ m := ⟨_, exhausts_liveBlocks σ⟩

/-- A description that lists every live block is the only one. -/
theorem Exhausts.unique (h : Exhausts σ m) (h' : Exhausts σ m') : m = m' := by
  refine (Multiset.Nodup.ext h.owns.nodup.of_map h'.owns.nodup.of_map).mpr ?_
  rintro ⟨a, b⟩
  exact h.cell_iff.symm.trans h'.cell_iff

/-- The number of live blocks of a kind. -/
def count (P : β → Bool) (σ : Heap β) : Nat := (liveBlocks σ).countP fun p => P p.2

theorem Exhausts.count_eq (h : Exhausts σ m) (P : β → Bool) :
    count P σ = m.countP fun p => P p.2 := by
  rw [h.unique (exhausts_liveBlocks σ), Multiset.coe_countP, count]
  simp only [Bool.decide_eq_true]

theorem count_alloc (P : β → Bool) (σ : Heap β) (b : β) :
    count P (σ.alloc b) = count P σ + if P b then 1 else 0 := by
  have h := exhausts_liveBlocks σ
  rw [(exhausts_tracks.alloc b h).count_eq, h.count_eq, Multiset.singleton_add,
    Multiset.countP_cons]

/-- A heap is as before exactly when nothing was left in it. -/
theorem Exhausts.restored_iff {σ' : Heap β} {lost : Multiset (Nat × β)} (h : Exhausts σ m)
    (h' : Exhausts σ' (lost + m)) : σ'.cell = σ.cell ↔ lost = 0 := by
  constructor
  · intro same
    by_contra hne
    obtain ⟨p, hp⟩ := Multiset.exists_mem_of_ne_zero hne
    have live := h'.owns.live p (Multiset.mem_add.mpr (Or.inl hp))
    rw [same] at live
    -- the block would be listed twice
    have hnodup := h'.owns.nodup
    rw [Multiset.map_add, Multiset.nodup_add] at hnodup
    exact Multiset.disjoint_left.mp hnodup.2.2 (Multiset.mem_map_of_mem _ hp)
      (Multiset.mem_map_of_mem Prod.fst (h.all p.1 p.2 live))
  · rintro rfl
    rw [Multiset.zero_add] at h'
    funext a
    apply Option.ext
    intro b
    rw [h'.cell_iff, h.cell_iff]

end Descriptions

section Reachability

variable (pointers : β → List Nat)

/-- Reached from the root by following the pointers of live blocks. -/
inductive Reaches (σ : Heap β) (root : Nat) : Nat → Prop
  | root : Reaches σ root root
  | follow {a p b} (earlier : Reaches σ root a) (live : σ.cell a = some b)
      (pointer : p ∈ pointers b) : Reaches σ root p

/-- A set that holds the root and is closed under pointers holds what is reached. -/
theorem Reaches.within {pointers : β → List Nat} {root : Nat} {S : Nat → Prop} (start : S root)
    (closed : ∀ a b, S a → σ.cell a = some b → ∀ p ∈ pointers b, S p)
    (reached : Reaches pointers σ root a) : S a := by
  induction reached with
  | root => exact start
  | follow _ live pointer ih => exact closed _ _ ih live _ pointer

end Reachability

end Ownership
