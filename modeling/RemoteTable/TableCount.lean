import RemoteTable.TableMap

/-!
# Counting the keys of a table

The keys a history binds form a finite set. The size of the table is the
number of them along a run exactly when no put misses its key because a larger
one stands in front of it on the chain.
-/

namespace TableCount

open CStrings Memory Entries FirstMatch ListOps ListRuns ListOrder Tables TableRuns TableMap Runs

/-- The keys with a value after a history, latest event first. -/
def boundKeys : List TableEvent → Finset CString
  | [] => ∅
  | e :: earlier => match e.op with
    | .put _ _ key _ => insert key.obj (boundKeys earlier)
    | .remove key => (boundKeys earlier).erase key
    | .get .. => boundKeys earlier
    | .size => boundKeys earlier

theorem mem_boundKeys {history : List TableEvent} {k : CString} :
    k ∈ boundKeys history ↔ bound history k ≠ none := by
  induction history with
  | nil => simp [boundKeys, bound]
  | cons e earlier ih =>
    obtain ⟨s, op, r, s'⟩ := e
    cases op with
    | put mem node key value =>
      by_cases hk : key.obj = k
      · simp [boundKeys, bound, hk]
      · simp [boundKeys, bound, hk, Ne.symm hk, ih]
    | remove key =>
      by_cases hk : key = k
      · simp [boundKeys, bound, hk]
      · simp [boundKeys, bound, hk, Ne.symm hk, ih]
    | get mem buffer key => exact ih
    | size => exact ih

/-- No allocation of a put fails. -/
def Allocated : TableOp → Prop
  | .put mem node _ _ => mem ≠ none ∧ node ≠ none
  | _ => True

/-- The put finds its key if it is there at all. -/
def PutFindsKey (t : Table) : TableOp → Prop
  | .put _ _ key _ => Visible key.obj (t.chain key.obj)
  | _ => True

/-- The size after the event is the number of keys bound then. -/
def SizeCounts (earlier : List TableEvent) (e : TableEvent) : Prop :=
  tableSize e.after = (boundKeys (e :: earlier)).card

/-- The chains hold the bound keys, each once. -/
structure Counts (history : List TableEvent) (t : Table) : Prop where
  nodup : ∀ k, InRange t k → (t.chain k).keys.Nodup
  present : ∀ k, InRange t k → (k ∈ (t.chain k).keys ↔ k ∈ boundKeys history)
  size : tableSize t = (boundKeys history).card

theorem created_counts {mem array : Option Nat} {each : Nat → Option Nat} {n : Int} {t : Table}
    (created : tableCreate mem array each n = some t) : Counts [] t := by
  refine ⟨?_, ?_, ?_⟩
  · intro k range
    simp [created_chain created range, emptyList, ListT.keys]
  · intro k range
    simp [created_chain created range, emptyList, ListT.keys, boundKeys]
  · simp [created_size created, boundKeys]

theorem nodup_setChain {t : Table} {key : CString} (range : InRange t key)
    (nodup : ∀ k, InRange t k → (t.chain k).keys.Nodup) {list : ListT}
    (hlist : list.keys.Nodup) : ∀ k, InRange t k → ((t.setChain key list).chain k).keys.Nodup := by
  intro k rangek
  rw [chain_setChain range rangek]
  by_cases same : t.index k = t.index key
  · rwa [if_pos same]
  · rw [if_neg same]
    exact nodup k rangek

theorem first_ne_none_iff {k : CString} {list : ListT} :
    first keyOf k list.entries ≠ none ↔ k ∈ list.keys := by
  rw [Ne, first_eq_none_iff, not_not, keys_eq]

theorem put_code {list list' : ListT} {key : Ptr CString} {value : Ptr Data} {a b : Nat} {c : Int}
    (add : listStep list (.add (some a) (some b) key value) = .ok (.code c, list')) :
    c = 0 ∨ c = 1 := by
  have hk : keyOf ⟨a, ⟨some key, some value⟩⟩ = some key.obj := rfl
  simp only [listStep, entryCreate, Option.map_some, Except.ok.injEq, Prod.mk.injEq,
    ListResult.code.injEq] at add
  obtain ⟨rfl, _⟩ := add
  rcases added_code (listAdd_added hk (some b) list) with ⟨hcode, _⟩ | ⟨hcode, _⟩
  · exact Or.inr hcode
  · exact Or.inl hcode

section Counting

variable {history : List TableEvent} {t : Table} {key : CString} {c : Int} {list : ListT}

theorem present_put {key : Ptr CString} {value : Ptr Data} {a b : Nat} {r : ListResult}
    (e : TableEvent) (counts : Counts history t) (range : InRange t key.obj)
    (add : listStep (t.chain key.obj) (.add (some a) (some b) key value) = .ok (r, list))
    (put : e.op = .put (some a) (some b) key value) (k : CString) (rangek : InRange t k) :
    k ∈ ((t.setChain key.obj list).chain k).keys ↔ k ∈ boundKeys (e :: history) := by
  obtain ⟨⟨o, hself, _⟩, hother⟩ := first_put range add
  rw [← first_ne_none_iff]
  by_cases hk : k = key.obj
  · subst hk
    simp [hself, boundKeys, put]
  · rw [hother k rangek hk, first_ne_none_iff, counts.present k rangek]
    simp [boundKeys, put, hk]

theorem present_remove (e : TableEvent) (counts : Counts history t) (range : InRange t key)
    (remove : listRemove (t.chain key) (some key) = .ok (c, list)) (removal : e.op = .remove key)
    (k : CString) (rangek : InRange t k) :
    k ∈ ((t.setChain key list).chain k).keys ↔ k ∈ boundKeys (e :: history) := by
  rw [← first_ne_none_iff]
  by_cases hk : k = key
  · subst hk
    have single := List.nodup_iff_count_le_one.mp (counts.nodup k range) k
    rw [chain_setChain_same range rfl, removed_gone range remove single]
    simp [boundKeys, removal]
  · rw [(first_remove range remove).2 k rangek hk, first_ne_none_iff, counts.present k rangek]
    simp [boundKeys, removal, hk]

/-- The size counts the keys bound after a put that finds its key, and only then. -/
theorem put_counts_iff {key : Ptr CString} {value : Ptr Data} {a b : Nat}
    (counts : Counts history t) (range : InRange t key.obj)
    (add : listStep (t.chain key.obj) (.add (some a) (some b) key value) = .ok (.code c, list))
    (step : tableStep t (.put (some a) (some b) key value) =
      .ok (.code c, t.setChain key.obj list)) :
    SizeCounts history ⟨t, .put (some a) (some b) key value, .code c, t.setChain key.obj list⟩ ↔
      Visible key.obj (t.chain key.obj) := by
  have hlist : ListOp.Allocated (.add (some a) (some b) key value) := ⟨by simp, by simp⟩
  have htells : ((c = 1 ↔ key.obj ∈ (t.chain key.obj).keys) ∧
      (c = 0 ↔ key.obj ∉ (t.chain key.obj).keys)) ↔ Visible key.obj (t.chain key.obj) :=
    codeTells_iff hlist add
  rw [← htells, SizeCounts, tableSize_step step, counts.size, boundKeys,
    counts.present key.obj range, Finset.card_insert_eq_ite]
  by_cases hmem : key.obj ∈ boundKeys history <;> rcases put_code add with rfl | rfl <;>
    simp [TableOp.IsPut, TableOp.IsRemove, TableResult.IsZero, hmem]

theorem remove_counts (counts : Counts history t) (range : InRange t key)
    (remove : listRemove (t.chain key) (some key) = .ok (c, list))
    (step : tableStep t (.remove key) = .ok (.code c, t.setChain key list)) :
    SizeCounts history ⟨t, .remove key, .code c, t.setChain key list⟩ := by
  have hpresent := counts.present key range
  rw [SizeCounts, tableSize_step step, counts.size, boundKeys]
  rcases (first_remove range remove).1 with ⟨rfl, hfirst, _⟩ | ⟨rfl, hfirst, _⟩
  · rw [first_ne_none_iff, hpresent] at hfirst
    have hcard := Finset.card_erase_add_one hfirst
    simp only [TableOp.IsPut, TableOp.IsRemove, TableResult.IsZero]
    simp
    omega
  · have habsent : key ∉ boundKeys history := by
      rw [← hpresent, ← first_ne_none_iff, not_not]
      exact hfirst
    simp [TableOp.IsPut, TableOp.IsRemove, TableResult.IsZero, Finset.erase_eq_of_notMem habsent]

end Counting

theorem counts_step {history : List TableEvent} {t t' : Table} {op : TableOp} {r : TableResult}
    (counts : Counts history t) (allocated : Allocated op) (step : tableStep t op = .ok (r, t')) :
    (SizeCounts history ⟨t, op, r, t'⟩ ↔ PutFindsKey t op) ∧
      (PutFindsKey t op → Counts (⟨t, op, r, t'⟩ :: history) t') := by
  cases tableStep_cases step with
  | @put mem node key value c list range add =>
    obtain ⟨a, rfl⟩ := Option.ne_none_iff_exists'.mp allocated.1
    obtain ⟨b, rfl⟩ := Option.ne_none_iff_exists'.mp allocated.2
    have hlist : ListOp.Allocated (.add (some a) (some b) key value) := allocated
    have hiff := put_counts_iff counts range add step
    have hnodup := nodup_step_iff (counts.nodup _ range) hlist add
    refine ⟨hiff, fun visible => ⟨?_, present_put _ counts range add rfl, hiff.mpr visible⟩⟩
    exact nodup_setChain range counts.nodup (hnodup.mpr visible)
  | @remove key c list range remove =>
    have hcount := remove_counts counts range remove step
    refine ⟨iff_of_true hcount trivial,
      fun _ => ⟨?_, present_remove _ counts range remove rfl, hcount⟩⟩
    exact nodup_setChain range counts.nodup (remove_nodup remove (counts.nodup key range))
  | @get mem buffer key e d range get copy =>
    have hcount : SizeCounts history ⟨t, .get mem buffer key, .data d, t⟩ := counts.size
    exact ⟨iff_of_true hcount trivial, fun _ => ⟨counts.nodup, counts.present, hcount⟩⟩
  | size =>
    have hcount : SizeCounts history ⟨t, .size, .code (tableSize t), t⟩ := counts.size
    exact ⟨iff_of_true hcount trivial, fun _ => ⟨counts.nodup, counts.present, hcount⟩⟩

/-- In a list, additions tell whether their key was there and the size is the
number of distinct keys, and in a table the size is the number of keys bound,
exactly when no key added is hidden behind a larger one. -/
theorem keys_counted_iff {lhistory : List (Event ListT ListOp ListResult)} {list : ListT}
    (lrun : Run listStep emptyList lhistory list) (lallocated : ∀ e ∈ lhistory, e.op.Allocated)
    {mem array : Option Nat} {each : Nat → Option Nat} {n : Int} {t0 t : Table}
    {history : List TableEvent} (created : tableCreate mem array each n = some t0)
    (run : Run tableStep t0 history t) (allocated : ∀ e ∈ history, Allocated e.op) :
    (((∀ e ∈ lhistory, CodeTells e.before e.op e.result) ↔
        ∀ e ∈ lhistory, FindsKey e.before e.op) ∧
      ((∀ e ∈ lhistory, listSize e.after = e.after.keys.toFinset.card) ↔
        ∀ e ∈ lhistory, FindsKey e.before e.op)) ∧
    (Along SizeCounts history ↔ ∀ e ∈ history, PutFindsKey e.before e.op) :=
  ⟨keys_detected_iff lrun lallocated,
    (run.along_iff (fun _ => Allocated) PutFindsKey Counts SizeCounts (created_counts created)
      (fun _ _ _ _ _ counts halloc hstep => counts_step counts halloc hstep) allocated).1⟩

/-- The key b is missed behind c, so it is stored and counted twice. -/
theorem hidden_key_stored_twice :
    (∃ e history list, play listStep [addKey keyA, addKey keyC, addKey keyB, addKey keyB] []
        emptyList = .ok (e :: history, list) ∧ e.result = .code 0 ∧ keyB ∈ e.before.keys ∧
      list.keys = [keyA, keyC, keyB, keyB] ∧ listSize list ≠ list.keys.toFinset.card) ∧
    ∃ t0 history t, tableCreate (some 0) (some 1) (fun _ => some 2) 1 = some t0 ∧
      play tableStep [putKey keyA 1, putKey keyC 2, putKey keyB 3, putKey keyB 4] [] t0 =
        .ok (history, t) ∧ tableSize t = 4 ∧ (boundKeys history).card = 3 :=
  ⟨⟨_, _, _, rfl, rfl, by decide, by decide, by decide⟩, ⟨_, _, _, rfl, rfl, by decide, by decide⟩⟩

theorem keys_counted_sample : ∃ lhistory list t0 history t,
    Run listStep emptyList lhistory list ∧ lhistory.length = 3 ∧ Run tableStep t0 history t ∧
      history.length = 3 ∧
      ((∀ e ∈ lhistory, CodeTells e.before e.op e.result) ↔
        ∀ e ∈ lhistory, FindsKey e.before e.op) ∧
      (Along SizeCounts history ↔ ∀ e ∈ history, PutFindsKey e.before e.op) := by
  obtain ⟨lhistory, list, lplayed, lallocated, llong⟩ : ∃ lhistory list,
      play listStep [addKey keyA, addKey keyB, .remove keyA] [] emptyList = .ok (lhistory, list) ∧
        (∀ e ∈ lhistory, e.op.Allocated) ∧ lhistory.length = 3 :=
    ⟨_, _, rfl, by simp [addKey, ListOp.Allocated], rfl⟩
  obtain ⟨t0, history, t, created, played, allocated, long⟩ : ∃ t0 history t,
      tableCreate (some 0) (some 1) (fun _ => some 2) 2 = some t0 ∧
      play tableStep [putKey keyA 1, putKey keyB 2, .remove keyA] [] t0 = .ok (history, t) ∧
        (∀ e ∈ history, Allocated e.op) ∧ history.length = 3 :=
    ⟨_, _, _, rfl, rfl, by simp [putKey, Allocated], rfl⟩
  have lrun := play_run _ .start lplayed
  have run := play_run _ .start played
  have counted := keys_counted_iff lrun lallocated created run allocated
  exact ⟨lhistory, list, t0, history, t, lrun, llong, run, long, counted.1.1, counted.2⟩

end TableCount
