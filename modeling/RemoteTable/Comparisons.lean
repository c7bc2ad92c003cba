import RemoteTable.ListOrder

/-!
# Failed comparisons during an addition

`entry_compare` answers -2 when an entry or a key is missing, and the walk of
`list_add` goes on after every negative answer. So it passes a node it could
not compare as if the key there were smaller, and an entry without a key goes
to the end of the chain.
-/

namespace Comparisons

open CStrings Memory Entries ListOps ListRuns ListOrder

/-- The answers `list_add` gets from `entry_compare`, in order. -/
def comparisons (entry : Ptr Entry) : List Node → List Int
  | [] => []
  | current :: rest =>
    let comp := entryCompare current.entry (some entry)
    comp :: if comp < 0 then comparisons entry rest else []

/-- They are made at the nodes passed and at the one where the walk stops. -/
theorem comparisons_addWalk (entry : Ptr Entry) (current : Node) (rest : List Node) :
    comparisons entry (current :: rest) =
      ((addWalk entry current rest).passed ++ [(addWalk entry current rest).current]).map
        fun n => entryCompare n.entry (some entry) := by
  induction rest generalizing current with
  | nil =>
    simp only [comparisons, addWalk, ite_self]
    rfl
  | cons next rest ih =>
    by_cases hneg : entryCompare current.entry (some entry) < 0
    · rw [comparisons, if_pos hneg, ih next]
      simp only [addWalk, if_pos hneg, List.cons_append, List.map_cons]
    · rw [comparisons, if_neg hneg]
      simp only [addWalk, if_neg hneg]
      rfl

instance (k : CString) (n : Node) : Decidable (n.Below k) :=
  inferInstanceAs (Decidable (∀ k' ∈ n.key, k' < k))

/-- The nodes in front of the first key that is not smaller. -/
def ahead (k : CString) (chain : List Node) : List Node :=
  chain.takeWhile fun n => decide (n.Below k)

section Keyed

variable {e : Ptr Entry} {k : CString}

theorem error_iff_keyless (hk : keyOf e = some k) (n : Node) :
    entryCompare n.entry (some e) = -2 ↔ n.key = none := by
  constructor
  · intro h
    by_contra hkey
    obtain ⟨k', hk'⟩ := Option.ne_none_iff_exists'.mp hkey
    have hneg : entryCompare n.entry (some e) < 0 := by omega
    have hlt := (entryCompare_neg_iff n.entry hk).mp hneg k' hk'
    have hone := (entryCompare_eq_neg_one_iff hk' hk).mpr hlt
    omega
  · intro h
    exact entryCompare_keyless (some e) h

/-- A comparison fails exactly when a node without a key is in the way. -/
theorem error_met_iff (hk : keyOf e = some k) (chain : List Node) :
    -2 ∈ comparisons e chain ↔ ∃ n ∈ ahead k chain, n.key = none := by
  induction chain with
  | nil => simp [comparisons, ahead]
  | cons n rest ih =>
    have hneg := entryCompare_neg_iff n.entry hk
    by_cases below : n.Below k
    · have taken : ahead k (n :: rest) = n :: ahead k rest := by simp [ahead, below]
      rw [comparisons, if_pos (hneg.mpr below), taken, List.mem_cons, ih, List.exists_mem_cons_iff,
        eq_comm, error_iff_keyless hk]
    · have stopped : ahead k (n :: rest) = [] := by simp [ahead, below]
      have hne : ¬ -2 = entryCompare n.entry (some e) := by
        intro h
        exact below (hneg.mp (by omega))
      rw [comparisons, if_neg fun h => below (hneg.mp h), stopped]
      simpa using hne

end Keyed

section Keyless

variable {e : Ptr Entry}

theorem keyless_error (hk : keyOf e = none) (entry1 : Option (Ptr Entry)) :
    entryCompare entry1 (some e) = -2 := by
  cases h : entryKey entry1 <;> simp [entryCompare, h, hk]

theorem addWalk_keyless (hk : keyOf e = none) (current : Node) (rest : List Node) :
    (addWalk e current rest).comp = -2 ∧ (addWalk e current rest).next = [] := by
  induction rest generalizing current with
  | nil => exact ⟨keyless_error hk _, rfl⟩
  | cons next rest ih => simpa [addWalk, keyless_error hk] using ih next

/-- An entry without a key is put behind all others. -/
theorem listAdd_keyless (hk : keyOf e = none) (mem : Option Nat) {list : ListT}
    (nonempty : list.head ≠ []) : (listAdd mem list (some e)).1 = 0 ∧ mem ≠ none ∨
      listAdd mem list (some e) = (-1, list) ∧ mem = none := by
  obtain ⟨size, nodes⟩ := list
  cases nodes with
  | nil => exact absurd rfl nonempty
  | cons head rest =>
    obtain ⟨hcomp, hnext⟩ := addWalk_keyless hk head rest
    cases mem <;> simp [listAdd, keyless_error hk, hcomp, hnext]

end Keyless

theorem listAdd_refused {mem : Option Nat} {list : ListT} {e : Ptr Entry} {k : CString}
    (hk : keyOf e = some k) (h : (listAdd mem list (some e)).1 = -1) :
    listAdd mem list (some e) = (-1, list) := by
  rcases listAdd_entries hk mem list with ⟨l, hl, _⟩ | ⟨l, hl, _⟩ | ⟨hl, _⟩
  · simp [hl] at h
  · simp [hl] at h
  · exact hl

/-- An addition that met a failed comparison reports it and leaves the list
alone exactly if there was none to meet, or the node could not be allocated and
the entry does not replace another one. -/
theorem errors_reported_iff (mem : Option Nat) (list : ListT) (e : Ptr Entry) :
    (-2 ∈ comparisons e list.head → listAdd mem list (some e) = (-1, list)) ↔
      list.head = [] ∨ (∃ k, keyOf e = some k ∧ ∀ n ∈ ahead k list.head, n.key ≠ none) ∨
        mem = none ∧ ∀ k, keyOf e = some k → ¬ Reached k list := by
  cases hk : keyOf e with
  | none =>
    by_cases nonempty : list.head = []
    · simp [nonempty, comparisons]
    · have met : -2 ∈ comparisons e list.head := by
        obtain ⟨n, rest, hhead⟩ := List.exists_cons_of_ne_nil nonempty
        simp [hhead, comparisons, keyless_error hk]
      rcases listAdd_keyless hk mem nonempty with ⟨hcode, hmem⟩ | ⟨hadd, hmem⟩
      · have accepted : listAdd mem list (some e) ≠ (-1, list) := by
          intro h
          simp [h] at hcode
        simp [met, accepted, nonempty, hmem]
      · obtain rfl := hmem
        simp [hadd]
  | some k =>
    rw [error_met_iff hk]
    have empty : list.head = [] → ∀ n ∈ ahead k list.head, n.key ≠ none := by
      intro hnil
      simp [hnil, ahead]
    rcases listAdd_code hk mem list with ⟨hcode, hreached⟩ | ⟨hcode, hmem, _⟩ |
      ⟨hcode, hmem, hreached⟩
    · have accepted : listAdd mem list (some e) ≠ (-1, list) := by
        intro h
        simp [h] at hcode
      simp only [accepted, imp_false, not_exists, not_and, Option.some.injEq, exists_eq_left',
        forall_eq', hreached, not_true_eq_false, and_false, or_false]
      exact ⟨fun h => Or.inr h, fun h => h.elim empty id⟩
    · have accepted : listAdd mem list (some e) ≠ (-1, list) := by
        intro h
        simp [h] at hcode
      simp only [accepted, imp_false, not_exists, not_and, Option.some.injEq, exists_eq_left',
        hmem, false_and, or_false]
      exact ⟨fun h => Or.inr h, fun h => h.elim empty id⟩
    · obtain rfl := hmem
      simp [listAdd_refused hk hcode, hreached]

/-- The one node of this list was vacated by a removal. -/
theorem error_swallowed : ∃ history list list',
    Runs.Run listStep emptyList history list ∧ history.length = 2 ∧
      -2 ∈ comparisons ⟨20, ⟨some ⟨21, keyB⟩, some sampleData⟩⟩ list.head ∧
      listAdd (some 22) list (some ⟨20, ⟨some ⟨21, keyB⟩, some sampleData⟩⟩) = (0, list') ∧
      list'.size = 1 := by
  obtain ⟨history, list, played, long, hlist⟩ : ∃ history list,
      Runs.play listStep [addKey keyA, .remove keyA] [] emptyList = .ok (history, list) ∧
      history.length = 2 ∧ list = ⟨0, [⟨3, none⟩]⟩ :=
    ⟨_, _, rfl, rfl, rfl⟩
  subst hlist
  exact ⟨history, _, _, Runs.play_run _ .start played, long, by decide, rfl, rfl⟩

end Comparisons
