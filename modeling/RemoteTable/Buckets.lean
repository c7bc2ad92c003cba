import RemoteTable.TableRuns

/-!
# Entries stay in their bucket

A put stores its entry in the chain at the index of its key, and a removal
moves entries along one chain alone. So in every reachable table the index of
a stored key is that of the chain it is stored in, and a call changes one
chain only.
-/

namespace Buckets

open CStrings Memory Entries ListOps ListRuns Tables TableRuns Runs

/-- Every stored key hashes to the chain it is stored in. -/
def Housed (t : Table) : Prop :=
  ∀ (i : Nat) (list : ListT), t.lists[i]? = some list → ∀ e ∈ list.entries,
    ∃ k, keyOf e = some k ∧ hashFunction (some k) t.size = i

/-- The key whose chain a call may change. -/
def writes : TableOp → Option CString
  | .put _ _ key _ => some key.obj
  | .remove key => some key
  | .get .. => none
  | .size => none

section SetChain

variable {t : Table} {key : CString}

theorem chain_index (range : InRange t key) :
    t.lists[(t.index key).toNat]? = some (t.chain key) := by
  have hlt := range.lt_length
  simp [Table.chain, hlt]

theorem setChain_elsewhere (list : ListT) {i : Nat} (range : InRange t key)
    (hne : (i : Int) ≠ hashFunction (some key) t.size) :
    (t.setChain key list).lists[i]? = t.lists[i]? := by
  have hindex : (t.index key).toNat ≠ i := by
    intro h
    apply hne
    rw [← h]
    exact Int.toNat_of_nonneg range.1
  exact List.getElem?_set_ne hindex

theorem Housed.setChain (housed : Housed t) (range : InRange t key) {list : ListT}
    (origin : ∀ e ∈ list.entries, keyOf e = some key ∨ e ∈ (t.chain key).entries) :
    Housed (t.setChain key list) := by
  intro i l hl e he
  by_cases hi : (i : Int) = hashFunction (some key) t.size
  · have hindex : (t.index key).toNat = i := by
      rw [Table.index, ← hi]
      rfl
    have hhere := chain_index range
    rw [hindex] at hhere
    have hlist : l = list := by
      have hset : (t.lists.set i list)[i]? = some l := by rw [← hindex] at hl ⊢; exact hl
      rw [List.getElem?_set_self (List.getElem?_eq_some_iff.mp hhere).1] at hset
      exact (Option.some.inj hset).symm
    subst hlist
    rcases origin e he with hkey | hold
    · exact ⟨key, hkey, hi.symm⟩
    · exact housed i _ hhere e hold
  · rw [setChain_elsewhere list range hi] at hl
    exact housed i l hl e he

end SetChain

/-- Puts store under the index of the key, removals bring no entry in. -/
theorem housed_step {t t' : Table} {op : TableOp} {r : TableResult} (housed : Housed t)
    (step : tableStep t op = .ok (r, t')) : Housed t' := by
  cases tableStep_cases step with
  | @put mem node key value c list range add =>
    apply housed.setChain range
    intro e he
    rcases list_entry_origin add he with ⟨_, _, _, _, hop, hobj⟩ | hold
    · cases hop
      exact Or.inl (by simp [keyOf, hobj])
    · exact Or.inr hold
  | remove range remove =>
    apply housed.setChain range
    intro e he
    exact Or.inr ((remove_sublist remove).subset he)
  | get => exact housed
  | size => exact housed

theorem size_step {t t' : Table} {op : TableOp} {r : TableResult}
    (step : tableStep t op = .ok (r, t')) : t'.size = t.size := by
  cases tableStep_cases step <;> rfl

theorem elsewhere_step {t t' : Table} {op : TableOp} {r : TableResult} {key : CString}
    (step : tableStep t op = .ok (r, t')) (hwrites : writes op = some key) {i : Nat}
    (hne : (i : Int) ≠ hashFunction (some key) t.size) : t'.lists[i]? = t.lists[i]? := by
  cases tableStep_cases step with
  | put range add =>
    cases hwrites
    exact setChain_elsewhere _ range hne
  | remove range remove =>
    cases hwrites
    exact setChain_elsewhere _ range hne
  | get => rfl
  | size => rfl

section Created

variable {mem array : Option Nat} {each : Nat → Option Nat} {n : Int} {t0 t : Table}
  {history : List TableEvent}

theorem created_housed (created : tableCreate mem array each n = some t0) : Housed t0 := by
  intro i list hlist e he
  rw [created_list created (List.mem_of_getElem? hlist)] at he
  simp [ListT.entries, emptyList] at he

/-- The index of a key tells its chain in every reachable table, and a put or
a removal leaves all other chains of the table as they are. -/
theorem entries_in_own_bucket (created : tableCreate mem array each n = some t0)
    (run : Run tableStep t0 history t) :
    (∀ (i : Nat) (list : ListT), t.lists[i]? = some list → ∀ e ∈ list.entries,
      ∃ k, keyOf e = some k ∧ hashFunction (some k) n = i) ∧
    (∀ (i j : Nat) (list other : ListT) (k : CString), t.lists[i]? = some list →
      t.lists[j]? = some other → k ∈ list.keys → k ∈ other.keys → i = j) ∧
    ∀ e ∈ history, ∀ k, writes e.op = some k → ∀ i : Nat,
      (i : Int) ≠ hashFunction (some k) n → e.after.lists[i]? = e.before.lists[i]? := by
  have start : Housed t0 ∧ t0.size = n := ⟨created_housed created, (tableCreate_eq created).1⟩
  obtain ⟨⟨housed, hsize⟩, events⟩ := run.invariant (fun t => Housed t ∧ t.size = n) start
    fun _ _ _ _ h step => ⟨housed_step h.1 step, (size_step step).trans h.2⟩
  rw [← hsize]
  refine ⟨housed, ?_, ?_⟩
  · intro i j list other k hi hj hk hk'
    rw [keys_eq] at hk hk'
    obtain ⟨e, he, hkey⟩ := List.mem_filterMap.mp hk
    obtain ⟨e', he', hkey'⟩ := List.mem_filterMap.mp hk'
    obtain ⟨q, hq, hindex⟩ := housed i list hi e he
    obtain ⟨q', hq', hindex'⟩ := housed j other hj e' he'
    cases hkey.symm.trans hq
    cases hkey'.symm.trans hq'
    exact Int.natCast_inj.mp (hindex.symm.trans hindex')
  · intro e he k hwrites i hne
    rw [hsize, ← (events e he).1.2] at hne
    exact elsewhere_step (run.event_step e he) hwrites hne

end Created

theorem entries_in_own_bucket_sample : ∃ t0 history t,
    tableCreate (some 0) (some 1) (fun _ => some 2) 2 = some t0 ∧ Run tableStep t0 history t ∧
      history.length = 4 ∧ ∀ (i : Nat) (list : ListT), t.lists[i]? = some list →
        ∀ e ∈ list.entries, ∃ k, keyOf e = some k ∧ hashFunction (some k) 2 = i := by
  obtain ⟨t0, history, t, created, played, long⟩ : ∃ t0 history t,
      tableCreate (some 0) (some 1) (fun _ => some 2) 2 = some t0 ∧
      play tableStep [.put (some 3) (some 4) ⟨5, keyA⟩ sampleData,
        .put (some 6) (some 7) ⟨8, keyB⟩ sampleData,
        .put (some 9) (some 10) ⟨11, keyC⟩ sampleData, .remove keyA] [] t0 = .ok (history, t) ∧
      history.length = 4 :=
    ⟨_, _, _, rfl, rfl, rfl⟩
  have run := play_run _ .start played
  exact ⟨t0, history, t, created, run, long, (entries_in_own_bucket created run).1⟩

end Buckets
