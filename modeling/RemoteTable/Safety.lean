import RemoteTable.Isolation

/-!
# What a table can do to its caller's process

A call on a table whose caller leaves its blocks alone touches no freed block,
takes no block for one of another kind and ends. It follows a null pointer on
an empty chain or at a vacated node, and it leaves its bounds with the index
of a bucket or with the bytes of a value that is shorter than it says.
-/

namespace Safety

open CStrings Memory Entries FirstMatch ListOps ListRuns Tables TableRuns TableImage Isolation
open Erasure Runs

/-- The bytes of the value are as many as it says, if they are copied at all. -/
def Copies (mem buffer : Option Nat) (value : Option (Ptr Data)) : Prop :=
  match value, mem, buffer with
  | some d, some _, some _ => ∀ block, d.obj.data = some block → d.obj.datasize ≤ block.obj.length
  | _, _, _ => True

/-- A search for the key follows no null pointer. -/
def Searchable (t : Table) (key : CString) : Prop :=
  (t.chain key).head ≠ [] ∧ Unblocked key (t.chain key).head

/-- The calls that return. -/
def Passes (t : Table) : TableOp → Prop
  | .put _ _ key _ => InRange t key.obj
  | .remove key => InRange t key ∧ Searchable t key
  | .get mem buffer key => InRange t key ∧ Searchable t key ∧
    ∀ e, first keyOf key (t.chain key).entries = some e → Copies mem buffer e.obj.value
  | .size => True

section Values

variable {mem buffer : Option Nat} {t t' : Table}

theorem dataDup_cases (mem buffer : Option Nat) (value : Option (Ptr Data)) :
    (∃ d, dataDup mem buffer value = .ok d) ∧ Copies mem buffer value ∨
      dataDup mem buffer value = .error .outOfBounds ∧ ¬ Copies mem buffer value := by
  cases value with
  | none => exact Or.inl ⟨⟨_, rfl⟩, trivial⟩
  | some d =>
    obtain ⟨a, datasize, data⟩ := d
    by_cases small : datasize ≤ 0
    · refine Or.inl ⟨⟨none, if_pos small⟩, ?_⟩
      cases mem <;> cases buffer <;> simp only [Copies]
      intro block _
      omega
    · cases data with
      | none => exact Or.inl ⟨⟨none, if_neg small⟩, by cases mem <;> cases buffer <;> simp [Copies]⟩
      | some block =>
        cases mem with
        | none => exact Or.inl ⟨⟨none, if_neg small⟩, trivial⟩
        | some m =>
          cases buffer with
          | none => exact Or.inl ⟨⟨none, if_neg small⟩, trivial⟩
          | some b =>
            by_cases fits : datasize ≤ block.obj.length
            · exact Or.inl ⟨⟨_, (if_neg small).trans (if_pos fits)⟩, by simpa [Copies] using fits⟩
            · exact Or.inr ⟨(if_neg small).trans (if_neg fits), by simpa [Copies] using fits⟩

theorem search_cases (list : ListT) (k : CString) :
    (list.head ≠ [] ∧ Unblocked k list.head) ∧ (∃ e, listGet list (some k) = .ok e) ∧
        (∃ r, listRemove list (some k) = .ok r) ∨
      ¬ (list.head ≠ [] ∧ Unblocked k list.head) ∧
        listGet list (some k) = .error .nullPointer ∧
        listRemove list (some k) = .error .nullPointer := by
  have look := looked list k
  have completes := (lookup_completes_iff list k).1
  generalize listGet list (some k) = got at look completes ⊢
  generalize listRemove list (some k) = removed at look ⊢
  cases look with
  | hit => exact Or.inl ⟨completes.mp ⟨_, rfl⟩, ⟨_, rfl⟩, _, rfl⟩
  | miss => exact Or.inl ⟨completes.mp ⟨_, rfl⟩, ⟨_, rfl⟩, _, rfl⟩
  | empty chain => exact Or.inr ⟨fun search => search.1 chain, rfl, rfl⟩
  | blocked =>
    refine Or.inr ⟨fun search => ?_, rfl, rfl⟩
    obtain ⟨e, he⟩ := completes.mpr search
    cases he

theorem put_passes {m n : Option Nat} {key : Ptr CString} {value : Ptr Data}
    (range : InRange t key.obj) : ∃ out, tableStep t (.put m n key value) = .ok out := by
  rw [tableStep, tablePut_eq range, ok_bind]
  exact ⟨_, rfl⟩

theorem remove_passes {key : CString} (range : InRange t key) :
    (∃ out, tableStep t (.remove key) = .ok out) ∧ Searchable t key ∨
      ¬ Searchable t key ∧ tableStep t (.remove key) = .error .nullPointer := by
  rw [tableStep, tableRemove_eq range]
  rcases search_cases (t.chain key) key with ⟨search, _, r, hr⟩ | ⟨lost, _, hr⟩
  · rw [hr]
    exact Or.inl ⟨⟨_, rfl⟩, search⟩
  · rw [hr]
    exact Or.inr ⟨lost, rfl⟩

theorem get_passes {key : CString} (range : InRange t key) :
    (∃ out, tableStep t (.get mem buffer key) = .ok out) ∧ Passes t (.get mem buffer key) ∨
      ¬ Passes t (.get mem buffer key) ∧
        (tableStep t (.get mem buffer key) = .error .nullPointer ∨
          tableStep t (.get mem buffer key) = .error .outOfBounds) := by
  rw [tableStep, tableGet_eq range]
  rcases search_cases (t.chain key) key with ⟨search, ⟨e, he⟩, _⟩ | ⟨lost, hr, _⟩
  · have hfirst := listGet_first he
    rw [he]
    cases e with
    | none =>
      refine Or.inl ⟨⟨_, rfl⟩, range, search, ?_⟩
      intro e found
      cases hfirst.trans found
    | some e =>
      rcases dataDup_cases mem buffer e.obj.value with ⟨⟨d, hd⟩, copies⟩ | ⟨overrun, short⟩
      · refine Or.inl ⟨⟨(.data d, t), ?_⟩, range, search, ?_⟩
        · simp only [ok_bind, hd, pure_eq_ok]
        · intro e' found
          cases hfirst.trans found
          exact copies
      · refine Or.inr ⟨fun passes => short (passes.2.2 e hfirst.symm), Or.inr ?_⟩
        simp only [ok_bind, overrun, error_bind]
  · rw [hr]
    exact Or.inr ⟨fun passes => lost passes.2.1, Or.inl rfl⟩

/-- A call returns exactly under `Passes`, and otherwise faults in one of two ways. -/
theorem tableStep_passes (t : Table) (op : TableOp) :
    (∃ out, tableStep t op = .ok out) ∧ Passes t op ∨
      ¬ Passes t op ∧ (tableStep t op = .error .nullPointer ∨
        tableStep t op = .error .outOfBounds) := by
  cases op with
  | put m n key value =>
    by_cases range : InRange t key.obj
    · exact Or.inl ⟨put_passes range, range⟩
    · refine Or.inr ⟨range, Or.inr ?_⟩
      rw [tableStep, tablePut_out_of_range range, error_bind]
  | remove key =>
    by_cases range : InRange t key
    · rcases remove_passes range with ⟨returns, search⟩ | ⟨lost, fault⟩
      · exact Or.inl ⟨returns, range, search⟩
      · exact Or.inr ⟨fun passes => lost passes.2, Or.inl fault⟩
    · refine Or.inr ⟨fun passes => range passes.1, Or.inr ?_⟩
      rw [tableStep, tableRemove_out_of_range range, error_bind]
  | get m b key =>
    by_cases range : InRange t key
    · exact get_passes range
    · refine Or.inr ⟨fun passes => range passes.1, Or.inr ?_⟩
      rw [tableStep, tableGet_out_of_range range, error_bind]
  | size => exact Or.inl ⟨⟨_, rfl⟩, trivial⟩

end Values

section Callers

variable {t : Nat} {σ σ0 σ1 : ListMemory.Store}

end Callers

end Safety
