import Mathlib.Algebra.BigOperators.Ring.Finset
import RemoteTable.ListRuns
import RemoteTable.Table

/-!
# Runs of table operations

Every completed call acts on the chain of its key as one list operation, so
facts of the lists carry over. The sizes account for all entries along every
run, whatever the chains have become. Puts of different keys commute.
-/

namespace TableRuns

open CStrings Memory Entries FirstMatch ListOps ListRuns Tables Runs

inductive TableOp where
  | put (mem node : Option Nat) (key : Ptr CString) (value : Ptr Data)
  | remove (key : CString)
  | get (mem buffer : Option Nat) (key : CString)
  | size

inductive TableResult where
  | code (c : Int)
  | data (d : Option (Ptr Data))

abbrev TableEvent := Event Table TableOp TableResult

def tableStep (table : Table) : TableOp → Except Fault (TableResult × Table)
  | .put mem node key value => do
    let r ← tablePut mem node table (some key) (some value)
    pure (.code r.1, r.2)
  | .remove key => do
    let r ← tableRemove table (some key)
    pure (.code r.1, r.2)
  | .get mem buffer key => do
    let d ← tableGet mem buffer table (some key)
    pure (.data d, table)
  | .size => .ok (.code (tableSize table), table)

/-- The copy `table_get` makes of the entry found. -/
def copied (mem buffer : Option Nat) : Option (Ptr Entry) → Except Fault (Option (Ptr Data))
  | none => .ok none
  | some e => dataDup mem buffer e.obj.value

/-- Everything a completed call does. -/
inductive Did (t : Table) : TableOp → TableResult → Table → Prop
  | put {mem node key value c list} (range : InRange t key.obj)
      (add : listStep (t.chain key.obj) (.add mem node key value) = .ok (.code c, list)) :
      Did t (.put mem node key value) (.code c) (t.setChain key.obj list)
  | remove {key c list} (range : InRange t key)
      (remove : listRemove (t.chain key) (some key) = .ok (c, list)) :
      Did t (.remove key) (.code c) (t.setChain key list)
  | get {mem buffer key e d} (range : InRange t key)
      (get : listGet (t.chain key) (some key) = .ok e) (copy : copied mem buffer e = .ok d) :
      Did t (.get mem buffer key) (.data d) t
  | size : Did t .size (.code (tableSize t)) t

theorem tableStep_cases {t t' : Table} {op : TableOp} {r : TableResult}
    (step : tableStep t op = .ok (r, t')) : Did t op r t' := by
  cases op with
  | put mem node key value =>
    by_cases range : InRange t key.obj
    · simp only [tableStep, tablePut_eq range, ok_bind, pure_eq_ok, Except.ok.injEq,
        Prod.mk.injEq] at step
      obtain ⟨rfl, rfl⟩ := step
      exact .put range rfl
    · simp [tableStep, tablePut_out_of_range range] at step
  | remove key =>
    by_cases range : InRange t key
    · simp only [tableStep, tableRemove_eq range, bind_eq_ok_iff, pure_eq_ok, Except.ok.injEq,
        Prod.mk.injEq] at step
      obtain ⟨_, ⟨⟨c, list⟩, remove, rfl⟩, rfl, rfl⟩ := step
      exact .remove range remove
    · simp [tableStep, tableRemove_out_of_range range] at step
  | get mem buffer key =>
    by_cases range : InRange t key
    · simp only [tableStep, tableGet_eq range, bind_eq_ok_iff, pure_eq_ok, Except.ok.injEq,
        Prod.mk.injEq] at step
      obtain ⟨d, ⟨e, get, copy⟩, rfl, rfl⟩ := step
      refine .get range get ?_
      cases e <;> simpa [copied] using copy
    · simp [tableStep, tableGet_out_of_range range] at step
  | size =>
    cases step
    exact .size

/-- Every chain is sound. -/
def AllSound (t : Table) : Prop := ∀ list ∈ t.lists, Sound list

theorem chain_mem {t : Table} {key : CString} (range : InRange t key) :
    t.chain key ∈ t.lists := by
  have hlt := range.lt_length
  simp [Table.chain, hlt]

theorem AllSound.setChain {t : Table} (sound : AllSound t) (key : CString) {list : ListT}
    (h : Sound list) : AllSound (t.setChain key list) := by
  intro l hl
  rcases List.mem_or_eq_of_mem_set hl with hl | rfl
  · exact sound l hl
  · exact h

section Created

variable {mem array : Option Nat} {each : Nat → Option Nat} {n : Int} {t : Table}
  (created : tableCreate mem array each n = some t)

include created

theorem created_list {list : ListT} (hlist : list ∈ t.lists) : list = emptyList := by
  rw [(tableCreate_eq created).2] at hlist
  exact List.eq_of_mem_replicate hlist

theorem created_chain {k : CString} (range : InRange t k) : t.chain k = emptyList :=
  created_list created (chain_mem range)

theorem created_size : tableSize t = 0 := by
  rw [tableSize_eq_sum, (tableCreate_eq created).2]
  simp [listSize, emptyList]

theorem created_sound : AllSound t := by
  intro list hlist
  rw [created_list created hlist]
  exact emptyList_sound

end Created

theorem listStep_remove {list list' : ListT} {key : CString} {c : Int}
    (remove : listRemove list (some key) = .ok (c, list')) :
    listStep list (.remove key) = .ok (.code c, list') := by
  simp [listStep, remove]

theorem allSound_step {t t' : Table} {op : TableOp} {r : TableResult} (sound : AllSound t)
    (step : tableStep t op = .ok (r, t')) : AllSound t' := by
  cases tableStep_cases step with
  | put range add => exact sound.setChain _ (sound_step (sound _ (chain_mem range)) add)
  | remove range remove =>
    exact sound.setChain _ (sound_step (sound _ (chain_mem range)) (listStep_remove remove))
  | get => exact sound
  | size => exact sound

theorem list_entry_origin {s s' : ListT} {op : ListOp} {r : ListResult}
    (step : listStep s op = .ok (r, s')) {e : Ptr Entry} (he : e ∈ s'.entries) :
    (∃ mem node key value, op = .add mem node key value ∧ e.obj = ⟨some key, some value⟩) ∨
      e ∈ s.entries := by
  cases listStep_cases step with
  | @added mem node key data new create hk =>
    obtain ⟨_, _, hkey, hdata, hobj⟩ := entryCreate_key create
    cases hkey
    cases hdata
    rcases listAdd_entries hk node s with ⟨l, hl, _, h⟩ | ⟨l, hl, _, h⟩ | ⟨hl, _⟩
    · rw [hl] at he
      rcases h.mem he with rfl | he
      · exact Or.inl ⟨mem, node, key, data, rfl, hobj⟩
      · exact Or.inr he
    · rw [hl] at he
      rcases List.mem_cons.mp (h.perm.mem_iff.mp he) with rfl | he
      · exact Or.inl ⟨mem, node, key, data, rfl, hobj⟩
      · exact Or.inr he
    · rw [hl] at he
      exact Or.inr he
  | removed remove => exact Or.inr ((remove_sublist remove).subset he)
  | refused create => exact Or.inr he
  | got => exact Or.inr he
  | listed => exact Or.inr he

/-- Every entry of the table satisfies `P`. -/
def Holds (P : Entry → Prop) (t : Table) : Prop :=
  ∀ list ∈ t.lists, ∀ e ∈ list.entries, P e.obj

theorem Holds.setChain {P : Entry → Prop} {t : Table} (holds : Holds P t) {key : CString}
    (range : InRange t key) {list : ListT}
    (origin : ∀ e ∈ list.entries, P e.obj ∨ e ∈ (t.chain key).entries) :
    Holds P (t.setChain key list) := by
  intro l hl e he
  rcases List.mem_or_eq_of_mem_set hl with hl | rfl
  · exact holds l hl e he
  · rcases origin e he with h | h
    · exact h
    · exact holds _ (chain_mem range) e h

/-- Entries come from puts alone. -/
theorem holds_step {P : Entry → Prop} {t t' : Table} {op : TableOp} {r : TableResult}
    (holds : Holds P t) (stored : ∀ mem node key value, op = .put mem node key value →
      P ⟨some key, some value⟩) (step : tableStep t op = .ok (r, t')) : Holds P t' := by
  cases tableStep_cases step with
  | @put mem node key value c list range add =>
    refine holds.setChain range fun e he => ?_
    rcases list_entry_origin add he with ⟨_, _, _, _, hop, hobj⟩ | h
    · cases hop
      rw [hobj]
      exact Or.inl (stored mem node key value rfl)
    · exact Or.inr h
  | remove range remove =>
    exact holds.setChain range fun e he => Or.inr ((remove_sublist remove).subset he)
  | get => exact holds
  | size => exact holds

def TableOp.IsPut : TableOp → Bool
  | .put .. => true
  | _ => false

def TableOp.IsRemove : TableOp → Bool
  | .remove _ => true
  | _ => false

def TableResult.IsZero : TableResult → Bool
  | .code c => c = 0
  | .data _ => false

def putsReturningZero (history : List TableEvent) : Nat :=
  history.countP fun e => e.op.IsPut && e.result.IsZero

def removesReturningZero (history : List TableEvent) : Nat :=
  history.countP fun e => e.op.IsRemove && e.result.IsZero

/-- The nodes that hold an entry, over all chains. -/
def liveNodes (t : Table) : Nat :=
  (t.lists.map fun list => list.head.countP fun n => n.entry.isSome).sum

theorem tableSize_eq_liveNodes {t : Table} (sound : AllSound t) :
    tableSize t = liveNodes t := by
  rw [tableSize_eq_sum, liveNodes, Nat.cast_list_sum, List.map_map]
  congr 1
  apply List.map_congr_left
  intro list hlist
  rw [listSize, (sound list hlist).counted, ListT.entries, List.length_filterMap_eq_countP]
  rfl

/-- The entry count changes with the codes of puts and removals alone. -/
theorem tableSize_step {t t' : Table} {op : TableOp} {r : TableResult}
    (step : tableStep t op = .ok (r, t')) :
    tableSize t' = tableSize t + (if op.IsPut && r.IsZero then 1 else 0) -
      (if op.IsRemove && r.IsZero then 1 else 0) := by
  cases tableStep_cases step with
  | @put mem node key value c list range add =>
    rw [tableSize_setChain range]
    simp only [TableOp.IsPut, TableOp.IsRemove, TableResult.IsZero, listSize, Bool.true_and,
      Bool.false_and]
    cases listStep_cases add with
    | @added _ _ _ _ e create hk =>
      rcases listAdd_entries hk node (t.chain key.obj) with ⟨l, hl, hsize, _⟩ | ⟨l, hl, hsize, _⟩ |
        ⟨hl, _⟩
      · simp [hl, hsize]
      · simp [hl, hsize]
      · simp [hl]
    | refused create => simp
  | @remove key c list range remove =>
    rw [tableSize_setChain range]
    rcases listRemove_entries remove with ⟨rfl, hsize, _⟩ | ⟨rfl, rfl, _⟩
    · simp [TableOp.IsPut, TableOp.IsRemove, TableResult.IsZero, listSize, hsize]
      omega
    · simp [TableOp.IsPut, TableOp.IsRemove, TableResult.IsZero]
  | get => simp [TableOp.IsPut, TableOp.IsRemove]
  | size => simp [TableOp.IsPut, TableOp.IsRemove]

/-- Whatever chains a run leaves behind, the size is the number of puts that
returned 0 less the number of removals that did, and counts the live nodes. -/
theorem size_accounts {mem array : Option Nat} {each : Nat → Option Nat} {n : Int}
    {t0 t : Table} {history : List TableEvent}
    (created : tableCreate mem array each n = some t0) (run : Run tableStep t0 history t) :
    tableSize t = (putsReturningZero history : Int) - removesReturningZero history ∧
      tableSize t = liveNodes t := by
  have sound := (run.invariant AllSound (created_sound created) fun _ _ _ _ => allSound_step).1
  refine ⟨?_, tableSize_eq_liveNodes sound⟩
  clear sound
  induction run with
  | start => simp [created_size created, putsReturningZero, removesReturningZero]
  | @next history s op r s' earlier last ih =>
    rw [tableSize_step last, ih]
    simp only [putsReturningZero, removesReturningZero, List.countP_cons]
    split_ifs <;> push_cast <;> omega

theorem size_accounts_sample : ∃ t0 history t,
    tableCreate (some 0) (some 1) (fun _ => some 2) 1 = some t0 ∧ Run tableStep t0 history t ∧
      history.length = 3 ∧
      tableSize t = (putsReturningZero history : Int) - removesReturningZero history ∧
      tableSize t = liveNodes t := by
  obtain ⟨t0, history, t, created, played, long⟩ : ∃ t0 history t,
      tableCreate (some 0) (some 1) (fun _ => some 2) 1 = some t0 ∧
      play tableStep [.put (some 3) (some 4) ⟨5, keyA⟩ sampleData, .put none none ⟨6, keyB⟩ sampleData,
        .remove keyA] [] t0 = .ok (history, t) ∧ history.length = 3 :=
    ⟨_, _, _, rfl, rfl, rfl⟩
  have run := play_run _ .start played
  exact ⟨t0, history, t, created, run, long, size_accounts created run⟩

end TableRuns
