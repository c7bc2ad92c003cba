import RemoteTable.ListOrder
import RemoteTable.TableRuns

/-!
# The table as a map

A history of puts and removals binds each key to the value of its latest put
unless a later removal took it back. A table answers like that map as long as
no removal finds its key twice, and its size counts the keys bound exactly as
long as no put misses the key it should replace.
-/

namespace TableMap

open CStrings Memory Entries FirstMatch ListOps ListRuns ListOrder Tables TableRuns Runs

/-- The value a history, latest event first, leaves with a key. -/
def bound : List TableEvent → CString → Option (Ptr Data)
  | [], _ => none
  | e :: earlier, k => match e.op with
    | .put _ _ key value => if key.obj = k then some value else bound earlier k
    | .remove key => if key = k then none else bound earlier k
    | .get .. => bound earlier k
    | .size => bound earlier k

/-- No allocation fails and every value has bytes to copy. -/
def Proper : TableOp → Prop
  | .put mem node _ value => mem ≠ none ∧ node ≠ none ∧ value.obj.value ≠ none
  | .remove _ => True
  | .get mem buffer _ => mem ≠ none ∧ buffer ≠ none
  | .size => True

/-- A get returns a copy of the value bound, a removal says whether there was one. -/
def Answered (earlier : List TableEvent) (e : TableEvent) : Prop :=
  match e.op, e.result with
  | .put .., .code _ => True
  | .remove key, .code c => (c = 0 ↔ bound earlier key ≠ none) ∧ (c = 1 ↔ bound earlier key = none)
  | .get _ _ key, .data d =>
    d.map (fun copy => copy.obj.value) = (bound earlier key).map fun value => value.obj.value
  | .size, .code _ => True
  | _, _ => False

/-- A removal finds its key on at most one node. -/
def RemovesSingle (t : Table) : TableOp → Prop
  | .remove key => (t.chain key).keys.count key ≤ 1
  | _ => True

section Steps

variable {t : Table} {key : CString}

theorem first_setChain (range : InRange t key) {q : CString} (rangeq : InRange t q)
    {list : ListT} (other : first keyOf q list.entries = first keyOf q (t.chain key).entries) :
    first keyOf q ((t.setChain key list).chain q).entries =
      first keyOf q (t.chain q).entries := by
  rw [chain_setChain range rangeq]
  by_cases same : t.index q = t.index key
  · rw [if_pos same, other, chain_congr same]
  · rw [if_neg same]

theorem first_put {key : Ptr CString} {value : Ptr Data} {a b : Nat} {r : ListResult}
    {list : ListT} (range : InRange t key.obj)
    (add : listStep (t.chain key.obj) (.add (some a) (some b) key value) = .ok (r, list)) :
    (∃ e, first keyOf key.obj ((t.setChain key.obj list).chain key.obj).entries = some e ∧
      e.obj.value = some value) ∧
    ∀ q, InRange t q → q ≠ key.obj →
      first keyOf q ((t.setChain key.obj list).chain q).entries =
        first keyOf q (t.chain q).entries := by
  have hk : keyOf ⟨a, ⟨some key, some value⟩⟩ = some key.obj := rfl
  have hlist : list = (listAdd (some b) (t.chain key.obj) (some ⟨a, ⟨some key, some value⟩⟩)).2 := by
    simp only [listStep, entryCreate, Option.map_some, Except.ok.injEq, Prod.mk.injEq] at add
    exact add.2.symm
  rw [chain_setChain_same range rfl]
  rcases listAdd_entries hk (some b) (t.chain key.obj) with ⟨l, hl, _, h⟩ | ⟨l, hl, _, h⟩ | ⟨_, hb⟩
  · rw [hl] at hlist
    subst hlist
    exact ⟨⟨_, h.first_self hk, rfl⟩, fun q rangeq hne =>
      first_setChain range rangeq (h.first_other hk hne)⟩
  · rw [hl] at hlist
    subst hlist
    exact ⟨⟨_, h.first_self hk, rfl⟩, fun q rangeq hne =>
      first_setChain range rangeq (h.first_other hk hne)⟩
  · cases hb

theorem first_remove {c : Int} {list : ListT} (range : InRange t key)
    (remove : listRemove (t.chain key) (some key) = .ok (c, list)) :
    (c = 0 ∧ first keyOf key (t.chain key).entries ≠ none ∧
        (first keyOf key list.entries = none ↔ (t.chain key).keys.count key = 1) ∨
      c = 1 ∧ first keyOf key (t.chain key).entries = none ∧ list = t.chain key) ∧
    ∀ q, InRange t q → q ≠ key →
      first keyOf q ((t.setChain key list).chain q).entries =
        first keyOf q (t.chain q).entries := by
  rcases listRemove_entries remove with ⟨rfl, _, h⟩ | ⟨rfl, rfl, absent⟩
  · refine ⟨Or.inl ⟨rfl, ?_, ?_⟩, fun q rangeq hne =>
      first_setChain range rangeq (h.first_other hne)⟩
    · obtain ⟨old, hold, perm⟩ := h.perm
      rw [Ne, first_eq_none_iff, not_not]
      exact List.mem_filterMap.mpr ⟨old, perm.mem_iff.mpr List.mem_cons_self, hold⟩
    · rw [h.first_self_eq_none_iff, keys_eq]
  · refine ⟨Or.inr ⟨rfl, ?_, rfl⟩, fun q rangeq _ => first_setChain range rangeq rfl⟩
    rwa [first_eq_none_iff, ← keys_eq]

/-- A key that was on one node at most is gone after its removal. -/
theorem removed_gone {c : Int} {list : ListT} (range : InRange t key)
    (remove : listRemove (t.chain key) (some key) = .ok (c, list))
    (single : (t.chain key).keys.count key ≤ 1) : first keyOf key list.entries = none := by
  rcases (first_remove range remove).1 with ⟨_, hfirst, hcount⟩ | ⟨_, hfirst, rfl⟩
  · rw [Ne, first_eq_none_iff, not_not, ← keys_eq, ← List.count_pos_iff] at hfirst
    exact hcount.mpr (by omega)
  · exact hfirst

end Steps

/-- What the chains show of a key is what the history binds to it. -/
def Shows (history : List TableEvent) (t : Table) : Prop :=
  ∀ k, InRange t k → (first keyOf k (t.chain k).entries).map (fun e => e.obj.value) =
    (bound history k).map some

theorem created_shows {mem array : Option Nat} {each : Nat → Option Nat} {n : Int} {t : Table}
    (created : tableCreate mem array each n = some t) : Shows [] t := by
  intro k range
  rw [created_chain created range]
  rfl

/-- The values bound by proper puts can be copied. -/
def Bytes (history : List TableEvent) : Prop :=
  ∀ k v, bound history k = some v → v.obj.value ≠ none

theorem bytes_step {history : List TableEvent} (bytes : Bytes history) {e : TableEvent}
    (proper : Proper e.op) : Bytes (e :: history) := by
  obtain ⟨s, op, r, s'⟩ := e
  intro k v hv
  cases op with
  | put mem node key value =>
    simp only [bound] at hv
    split_ifs at hv with hk
    · cases hv
      exact proper.2.2
    · exact bytes k v hv
  | remove key =>
    simp only [bound] at hv
    split_ifs at hv with hk
    exact bytes k v hv
  | get mem buffer key => exact bytes k v hv
  | size => exact bytes k v hv

section Shown

variable {history : List TableEvent} {t : Table}

theorem shows_put {mem node : Option Nat} {key : Ptr CString} {value : Ptr Data} {r : ListResult}
    {list : ListT} (e : TableEvent) (shows : Shows history t) (allocated : mem ≠ none ∧ node ≠ none)
    (range : InRange t key.obj)
    (add : listStep (t.chain key.obj) (.add mem node key value) = .ok (r, list))
    (put : e.op = .put mem node key value) : Shows (e :: history) (t.setChain key.obj list) := by
  obtain ⟨a, rfl⟩ := Option.ne_none_iff_exists'.mp allocated.1
  obtain ⟨b, rfl⟩ := Option.ne_none_iff_exists'.mp allocated.2
  obtain ⟨⟨e, hself, hvalue⟩, hother⟩ := first_put range add
  intro k rangek
  by_cases hk : key.obj = k
  · subst hk
    simp [bound, put, hself, hvalue]
  · rw [hother k rangek (Ne.symm hk), shows k rangek]
    simp [bound, put, hk]

theorem shows_remove {key : CString} {c : Int} {list : ListT} (e : TableEvent)
    (shows : Shows history t) (range : InRange t key)
    (remove : listRemove (t.chain key) (some key) = .ok (c, list))
    (single : (t.chain key).keys.count key ≤ 1) (removal : e.op = .remove key) :
    Shows (e :: history) (t.setChain key list) := by
  intro k rangek
  by_cases hk : key = k
  · subst hk
    rw [chain_setChain_same range rfl, removed_gone range remove single]
    simp [bound, removal]
  · rw [(first_remove range remove).2 k rangek (Ne.symm hk), shows k rangek]
    simp [bound, removal, hk]

/-- A removal says whether its key was bound. -/
theorem remove_tells {key : CString} {c : Int} {list : ListT} (shows : Shows history t)
    (range : InRange t key) (remove : listRemove (t.chain key) (some key) = .ok (c, list)) :
    (c = 0 ↔ bound history key ≠ none) ∧ (c = 1 ↔ bound history key = none) := by
  have hshows := shows key range
  rcases (first_remove range remove).1 with ⟨rfl, hfirst, _⟩ | ⟨rfl, hfirst, _⟩
  · have hbound : bound history key ≠ none := by
      intro hnone
      rw [hnone, Option.map_none, Option.map_eq_none_iff] at hshows
      exact hfirst hshows
    simp [hbound]
  · have hbound : bound history key = none := by
      rw [hfirst, Option.map_none] at hshows
      exact Option.map_eq_none_iff.mp hshows.symm
    simp [hbound]

/-- A get returns a copy of the value bound. -/
theorem get_copies {mem buffer : Option Nat} {key : CString} {e : Option (Ptr Entry)}
    {d : Option (Ptr Data)} (shows : Shows history t) (bytes : Bytes history)
    (allocated : mem ≠ none ∧ buffer ≠ none) (range : InRange t key)
    (get : listGet (t.chain key) (some key) = .ok e) (copy : copied mem buffer e = .ok d) :
    d.map (fun copy => copy.obj.value) =
      (bound history key).map fun value => value.obj.value := by
  obtain ⟨a, rfl⟩ := Option.ne_none_iff_exists'.mp allocated.1
  obtain ⟨b, rfl⟩ := Option.ne_none_iff_exists'.mp allocated.2
  have hshows := shows key range
  rw [← listGet_first get] at hshows
  cases e with
  | none =>
    cases copy
    have hbound := Option.map_eq_none_iff.mp hshows.symm
    simp [hbound]
  | some e =>
    obtain ⟨v, hv, hvalue⟩ := Option.map_eq_some_iff.mp hshows.symm
    obtain ⟨bs, hbytes⟩ := Option.ne_none_iff_exists'.mp (bytes key v hv)
    obtain ⟨c, hc, hcopy⟩ := dataDup_value hbytes a b
    have hvalue : e.obj.value = some v := hvalue.symm
    rw [copied, hvalue, hc] at copy
    cases copy
    simp [hv, hcopy, hbytes]

end Shown

theorem shows_step {history : List TableEvent} {t t' : Table} {op : TableOp} {r : TableResult}
    (shows : Shows history t) (bytes : Bytes history) (proper : Proper op)
    (single : RemovesSingle t op) (step : tableStep t op = .ok (r, t')) :
    Answered history ⟨t, op, r, t'⟩ ∧ Shows (⟨t, op, r, t'⟩ :: history) t' := by
  cases tableStep_cases step with
  | put range add => exact ⟨trivial, shows_put _ shows ⟨proper.1, proper.2.1⟩ range add rfl⟩
  | remove range remove =>
    exact ⟨remove_tells shows range remove, shows_remove _ shows range remove single rfl⟩
  | get range get copy => exact ⟨get_copies shows bytes proper range get copy, shows⟩
  | size => exact ⟨trivial, shows⟩

/-- The entry's value can be copied. -/
def Copyable (e : Entry) : Prop := ∃ v, e.value = some v ∧ v.obj.value ≠ none

/-- A get right after a removal finds nothing exactly when the key was on at
most one node before. -/
theorem removal_uncovers {t t' t'' : Table} {key : CString} {r : TableResult} {m b : Nat}
    {d : Option (Ptr Data)} (copyable : Holds Copyable t)
    (removal : tableStep t (.remove key) = .ok (r, t'))
    (fetch : tableStep t' (.get (some m) (some b) key) = .ok (.data d, t'')) :
    d = none ↔ RemovesSingle t (.remove key) := by
  have copyable' : Holds Copyable t' := holds_step copyable (by simp) removal
  cases tableStep_cases fetch with
  | @get _ _ _ e _ range' get copy =>
    have copied_iff : d = none ↔ e = none := by
      cases e with
      | none =>
        cases copy
        simp
      | some e =>
        have hmem : e ∈ (t'.chain key).entries := List.mem_of_find?_eq_some (listGet_first get).symm
        obtain ⟨v, hv, hbytes⟩ := copyable' _ (chain_mem range') e hmem
        obtain ⟨bs, hbs⟩ := Option.ne_none_iff_exists'.mp hbytes
        obtain ⟨c, hc, _⟩ := dataDup_value hbs m b
        rw [copied, hv, hc] at copy
        cases copy
        simp
    rw [copied_iff, listGet_first get]
    cases tableStep_cases removal with
    | @remove _ c list range remove =>
      rw [chain_setChain_same range rfl, RemovesSingle]
      rcases (first_remove range remove).1 with ⟨_, hfirst, hcount⟩ | ⟨_, hfirst, rfl⟩
      · rw [hcount]
        rw [Ne, first_eq_none_iff, not_not, ← keys_eq, ← List.count_pos_iff] at hfirst
        omega
      · rw [hfirst]
        rw [first_eq_none_iff, ← keys_eq, ← List.count_eq_zero] at hfirst
        simp [hfirst]

theorem created_holds (P : Entry → Prop) {mem array : Option Nat} {each : Nat → Option Nat}
    {n : Int} {t : Table} (created : tableCreate mem array each n = some t) : Holds P t := by
  intro list hlist
  rw [created_list created hlist]
  simp [emptyList, ListT.entries]

/-- A run in which no removal finds its key twice answers like the map of its
history. The condition cannot be spared: after a removal that finds its key on
several nodes, the next get of that key, if it returns, returns an older value. -/
theorem answers_like_map {mem array : Option Nat} {each : Nat → Option Nat} {n : Int}
    {t0 t : Table} {history : List TableEvent}
    (created : tableCreate mem array each n = some t0) (run : Run tableStep t0 history t)
    (proper : ∀ e ∈ history, Proper e.op) :
    ((∀ e ∈ history, RemovesSingle e.before e.op) → Along Answered history) ∧
    ∀ key r t' m b d t'', tableStep t (.remove key) = .ok (r, t') →
      tableStep t' (.get (some m) (some b) key) = .ok (.data d, t'') →
      (d = none ↔ RemovesSingle t (.remove key)) := by
  constructor
  · intro single
    refine (run.simulation (fun s op => RemovesSingle s op ∧ Proper op)
      (fun history t => Shows history t ∧ Bytes history) Answered
      ⟨created_shows created, by simp [Bytes, bound]⟩ ?_
      (fun e he => ⟨single e he, proper e he⟩)).1
    rintro history s op r s' ⟨shows, bytes⟩ ⟨hsingle, hproper⟩ hstep
    obtain ⟨hanswered, hshows⟩ := shows_step shows bytes hproper hsingle hstep
    exact ⟨hanswered, hshows, bytes_step bytes hproper⟩
  · intro key r t' m b d t'' remove get
    refine removal_uncovers ?_ remove get
    refine (run.invariant_where (fun _ op => Proper op) (Holds Copyable)
      (created_holds Copyable created) ?_ proper).1
    intro s op r s' holds hproper hstep
    refine holds_step holds ?_ hstep
    rintro mem node key value rfl
    exact ⟨value, rfl, hproper.2.2⟩

def sampleValue (b : Byte) : Ptr Data := ⟨0, ⟨1, some ⟨1, [b]⟩⟩⟩

def putKey (k : CString) (b : Byte) : TableOp := .put (some 2) (some 3) ⟨4, k⟩ (sampleValue b)

def getKey (k : CString) : TableOp := .get (some 5) (some 6) k

/-- The second put of b goes behind c again, and removing it shows the first. -/
theorem overwritten_value_returns : ∃ t0 earlier e t,
    tableCreate (some 0) (some 1) (fun _ => some 2) 1 = some t0 ∧
      play tableStep [putKey keyA 1, putKey keyC 2, putKey keyB 3, putKey keyB 4, .remove keyB,
        getKey keyB] [] t0 = .ok (e :: earlier, t) ∧
      (∀ e' ∈ e :: earlier, Proper e'.op) ∧ e.op = getKey keyB ∧
      e.result = .data (some ⟨5, ⟨1, some ⟨6, [3]⟩⟩⟩) ∧
      bound earlier keyB = none ∧ ¬ Along Answered (e :: earlier) := by
  refine ⟨_, _, _, _, rfl, rfl, ?_, rfl, rfl, rfl, ?_⟩
  · simp [putKey, getKey, Proper, sampleValue, Data.value]
  · rintro ⟨answered, _⟩
    cases answered

theorem answers_like_map_sample : ∃ t0 history t,
    tableCreate (some 0) (some 1) (fun _ => some 2) 2 = some t0 ∧ Run tableStep t0 history t ∧
      history.length = 5 ∧
      ((∀ e ∈ history, RemovesSingle e.before e.op) → Along Answered history) := by
  obtain ⟨t0, history, t, created, played, proper, long⟩ : ∃ t0 history t,
      tableCreate (some 0) (some 1) (fun _ => some 2) 2 = some t0 ∧
      play tableStep [putKey keyA 1, putKey keyB 2, putKey keyA 3, getKey keyA, .remove keyA] [] t0 =
        .ok (history, t) ∧ (∀ e ∈ history, Proper e.op) ∧ history.length = 5 :=
    ⟨_, _, _, rfl, rfl, by simp [putKey, getKey, Proper, sampleValue, Data.value], rfl⟩
  have run := play_run _ .start played
  exact ⟨t0, history, t, created, run, long, (answers_like_map created run proper).1⟩

end TableMap
