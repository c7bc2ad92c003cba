import Mathlib.Algebra.BigOperators.Group.List.Basic
import RemoteTable.ListOps

/-!
# The hash table of `table.c`

A table is its size and one list for each index below it. An index outside
the array is an invalid access. The results of `malloc` and the list results
of `list_create` are parameters, as in the modules below.
-/

namespace Tables

open CStrings Memory Entries ListOps

structure Table where
  size : Int
  lists : List ListT
  length_eq : lists.length = size.toNat
  deriving DecidableEq

/-- The loop of `table_create` from index `i`, with `m` lists to go. -/
def createLists (each : Nat → Option Nat) : Nat → Nat → Option (List ListT)
  | _, 0 => some []
  | i, m + 1 => match listCreate (each i) with
    | none => none
    | some list => (createLists each (i + 1) m).map fun lists => list :: lists

theorem createLists_eq {each : Nat → Option Nat} {i m : Nat} {lists : List ListT}
    (h : createLists each i m = some lists) : lists = List.replicate m emptyList := by
  induction m generalizing i lists with
  | zero =>
    cases h
    rfl
  | succ m ih =>
    cases hlist : each i with
    | none => simp [createLists, listCreate, hlist] at h
    | some a =>
      simp only [createLists, listCreate, hlist, Option.map_some, Option.map_eq_some_iff] at h
      obtain ⟨rest, hrest, rfl⟩ := h
      rw [ih hrest, List.replicate_succ]

def tableCreate (mem array : Option Nat) (each : Nat → Option Nat) (n : Int) : Option Table :=
  match mem, array with
  | some _, some _ => match h : createLists each 0 n.toNat with
    | none => none
    | some lists => some ⟨n, lists, by rw [createLists_eq h, List.length_replicate]⟩
  | _, _ => none

/-- The loop of `hash_function`. -/
def hashLoop (hash : Int) : CString → Int
  | [] => hash
  | c :: key => hashLoop (int32 (hash + charValue c)) key

def hashFunction (key : Option CString) (size : Int) : Int :=
  match key with
  | none => -1
  | some key => if size ≤ 0 then -1 else (hashLoop 0 key).tmod size

/-- `table->lists[hash]`. -/
def Table.bucket (table : Table) (hash : Int) : Except Fault ListT :=
  if 0 ≤ hash then match table.lists[hash.toNat]? with
    | none => .error .outOfBounds
    | some list => .ok list
  else .error .outOfBounds

def Table.setBucket (table : Table) (hash : Int) (list : ListT) : Table where
  size := table.size
  lists := table.lists.set hash.toNat list
  length_eq := by rw [List.length_set, table.length_eq]

def tablePut (mem node : Option Nat) (table : Table) (key : Option (Ptr CString))
    (value : Option (Ptr Data)) : Except Fault (Int × Table) :=
  match key, value with
  | some key, some value => do
    let hash := hashFunction (some key.obj) table.size
    let entry := entryCreate mem (some key) (some value)
    let list ← table.bucket hash
    let r := listAdd node list entry
    pure (r.1, table.setBucket hash r.2)
  | _, _ => .ok (-1, table)

def tableGet (mem buffer : Option Nat) (table : Table) (key : Option CString) :
    Except Fault (Option (Ptr Data)) :=
  match key with
  | none => .ok none
  | some key => do
    let hash := hashFunction (some key) table.size
    let list ← table.bucket hash
    let entry ← listGet list (some key)
    match entry with
    | none => pure none
    | some entry => dataDup mem buffer entry.obj.value

def tableRemove (table : Table) (key : Option CString) : Except Fault (Int × Table) :=
  match key with
  | none => .ok (-1, table)
  | some key => do
    let hash := hashFunction (some key) table.size
    let list ← table.bucket hash
    let r ← listRemove list (some key)
    pure (r.1, table.setBucket hash r.2)

/-- The sum is unbounded like the counters: fewer than 2 ^ 31 entries in all. -/
def tableSize (table : Table) : Int :=
  table.lists.foldl (fun size list => size + listSize list) 0

theorem tableCreate_eq {mem array : Option Nat} {each : Nat → Option Nat} {n : Int}
    {table : Table} (h : tableCreate mem array each n = some table) :
    table.size = n ∧ table.lists = List.replicate n.toNat emptyList := by
  unfold tableCreate at h
  split at h
  · split at h
    · cases h
    · rename_i lists hlists
      cases h
      exact ⟨rfl, createLists_eq hlists⟩
  · cases h

/-- The sum of all characters as one wrapped `int`. -/
def charSum (key : CString) : Int := int32 (key.map charValue).sum

theorem hashLoop_eq (hash : Int) (key : CString) :
    hashLoop (int32 hash) key = int32 (hash + (key.map charValue).sum) := by
  induction key generalizing hash with
  | nil => simp [hashLoop]
  | cons c key ih =>
    rw [hashLoop, int32_add_int32, ih, List.map_cons, List.sum_cons, add_assoc]

theorem hashFunction_eq (key : CString) {size : Int} (pos : 0 < size) :
    hashFunction (some key) size = (charSum key).tmod size := by
  have hsum : hashLoop 0 key = charSum key := by
    simpa [charSum, int32] using hashLoop_eq 0 key
  rw [hashFunction, if_neg (not_le.mpr pos), hsum]

def Table.index (table : Table) (key : CString) : Int := hashFunction (some key) table.size

def InRange (table : Table) (key : CString) : Prop :=
  0 ≤ table.index key ∧ table.index key < table.size

instance (table : Table) (key : CString) : Decidable (InRange table key) :=
  inferInstanceAs (Decidable (_ ∧ _))

/-- Remainders take the sign of the dividend. -/
theorem tmod_nonneg_iff (w n : Int) : 0 ≤ w.tmod n ↔ 0 ≤ w ∨ n ∣ w := by
  constructor
  · intro h
    by_cases hw : 0 ≤ w
    · exact Or.inl hw
    · have hneg : 0 ≤ (-w).tmod n := Int.tmod_nonneg n (by omega)
      rw [Int.neg_tmod] at hneg
      exact Or.inr (Int.dvd_of_tmod_eq_zero (by omega))
  · rintro (h | h)
    · exact Int.tmod_nonneg n h
    · rw [Int.tmod_eq_zero_of_dvd h]

/-- The index of a key is in range exactly in a table with buckets and for a key
whose wrapped character sum is not negative, or divides evenly. -/
theorem index_in_range_iff {mem array : Option Nat} {each : Nat → Option Nat} {n : Int}
    {table : Table} (created : tableCreate mem array each n = some table) (key : CString) :
    InRange table key ↔ 0 < n ∧ (0 ≤ charSum key ∨ n ∣ charSum key) := by
  obtain ⟨rfl, _⟩ := tableCreate_eq created
  by_cases pos : 0 < table.size
  · have hlt := Int.tmod_lt_of_pos (charSum key) pos
    simp [InRange, Table.index, hashFunction_eq key pos, pos, hlt, tmod_nonneg_iff]
  · simp [InRange, Table.index, hashFunction, not_lt.mp pos, pos]

/-- The byte 128 is a negative `char`, and a table of size 0 has no index at all. -/
theorem index_out_of_range :
    (∃ table, tableCreate (some 0) (some 1) (fun _ => some 2) 5 = some table ∧
      table.index [⟨128, by decide⟩] = -3 ∧ ¬ InRange table [⟨128, by decide⟩]) ∧
    ∃ table, tableCreate (some 0) (some 1) (fun _ => some 2) 0 = some table ∧
      table.index keyA = -1 ∧ ¬ InRange table keyA :=
  ⟨⟨_, rfl, by decide, by decide⟩, ⟨_, rfl, by decide, by decide⟩⟩

theorem index_in_range_sample : ∃ table,
    tableCreate (some 0) (some 1) (fun _ => some 2) 5 = some table ∧
      (InRange table keyA ↔ 0 < (5 : Int) ∧ (0 ≤ charSum keyA ∨ 5 ∣ charSum keyA)) :=
  ⟨_, rfl, index_in_range_iff (show tableCreate (some 0) (some 1) (fun _ => some 2) 5 = _ from rfl)
    keyA⟩

section Buckets

variable {table : Table} {key : CString}

/-- The list a key belongs to. -/
def Table.chain (table : Table) (key : CString) : ListT :=
  table.lists.getD (table.index key).toNat emptyList

def Table.setChain (table : Table) (key : CString) (list : ListT) : Table :=
  table.setBucket (table.index key) list

@[simp] theorem Table.setChain_size (table : Table) (key : CString) (list : ListT) :
    (table.setChain key list).size = table.size := rfl

@[simp] theorem Table.setChain_index (table : Table) (key other : CString) (list : ListT) :
    (table.setChain key list).index other = table.index other := rfl

theorem InRange.lt_length (h : InRange table key) :
    (table.index key).toNat < table.lists.length := by
  obtain ⟨hlo, hhi⟩ := h
  rw [table.length_eq]
  omega

theorem bucket_index (h : InRange table key) :
    table.bucket (table.index key) = .ok (table.chain key) := by
  have hlt := h.lt_length
  simp [Table.bucket, Table.chain, h.1, hlt]

theorem bucket_out_of_range (h : ¬ InRange table key) :
    table.bucket (table.index key) = .error .outOfBounds := by
  by_cases hlo : 0 ≤ table.index key
  · have hhi : ¬ table.index key < table.size := fun hhi => h ⟨hlo, hhi⟩
    have hle : table.lists.length ≤ (table.index key).toNat := by
      rw [table.length_eq]
      omega
    simp [Table.bucket, hlo, List.getElem?_eq_none hle]
  · simp [Table.bucket, hlo]

@[simp] theorem chain_setChain_same (h : InRange table key) {other : CString}
    (same : table.index other = table.index key) (list : ListT) :
    (table.setChain key list).chain other = list := by
  have hlt := h.lt_length
  rw [Table.chain, Table.setChain_index, same]
  simp [Table.setChain, Table.setBucket, hlt]

theorem chain_setChain_other (h : InRange table key) {other : CString}
    (h' : InRange table other) (differ : table.index other ≠ table.index key) (list : ListT) :
    (table.setChain key list).chain other = table.chain other := by
  have hne : (table.index key).toNat ≠ (table.index other).toNat := by
    have := h.1
    have := h'.1
    omega
  rw [Table.chain, Table.setChain_index]
  simp [Table.setChain, Table.setBucket, Table.chain, hne]

theorem chain_congr {other : CString} (same : table.index other = table.index key) :
    table.chain other = table.chain key := by
  rw [Table.chain, Table.chain, same]

theorem chain_setChain (h : InRange table key) {other : CString} (h' : InRange table other)
    (list : ListT) : (table.setChain key list).chain other =
      if table.index other = table.index key then list else table.chain other := by
  by_cases same : table.index other = table.index key
  · rw [chain_setChain_same h same, if_pos same]
  · rw [chain_setChain_other h h' same, if_neg same]

theorem tableSize_eq_sum (table : Table) : tableSize table = (table.lists.map listSize).sum := by
  rw [List.sum_eq_foldl, List.foldl_map]
  rfl

theorem tableSize_setChain (h : InRange table key) (list : ListT) :
    tableSize (table.setChain key list) =
      tableSize table + (listSize list - listSize (table.chain key)) := by
  have hlt := h.lt_length
  have hlt' : (table.index key).toNat < (table.lists.map listSize).length := by simpa using hlt
  rw [tableSize_eq_sum, tableSize_eq_sum, Table.setChain, Table.setBucket, List.map_set,
    List.sum_set', dif_pos hlt']
  simp [Table.chain, hlt]
  omega

theorem tablePut_eq {key : Ptr CString} (h : InRange table key.obj) (mem node : Option Nat)
    (value : Ptr Data) : tablePut mem node table (some key) (some value) =
      .ok ((listAdd node (table.chain key.obj) (entryCreate mem (some key) (some value))).1,
        table.setChain key.obj
          (listAdd node (table.chain key.obj) (entryCreate mem (some key) (some value))).2) := by
  have hbucket := bucket_index h
  rw [Table.index] at hbucket
  simp only [tablePut, hbucket, ok_bind, pure_eq_ok]
  rfl

theorem tableRemove_eq (h : InRange table key) : tableRemove table (some key) =
    (do let r ← listRemove (table.chain key) (some key); pure (r.1, table.setChain key r.2)) := by
  have hbucket := bucket_index h
  rw [Table.index] at hbucket
  simp only [tableRemove, hbucket, ok_bind]
  rfl

theorem tableGet_eq (h : InRange table key) (mem buffer : Option Nat) :
    tableGet mem buffer table (some key) = (do
      let entry ← listGet (table.chain key) (some key)
      match entry with
      | none => pure none
      | some entry => dataDup mem buffer entry.obj.value) := by
  have hbucket := bucket_index h
  rw [Table.index] at hbucket
  simp only [tableGet, hbucket, ok_bind]

end Buckets

section OutOfRange

variable {table : Table}

theorem tablePut_out_of_range {key : Ptr CString} (h : ¬ InRange table key.obj)
    (mem node : Option Nat) (value : Ptr Data) :
    tablePut mem node table (some key) (some value) = .error .outOfBounds := by
  have hbucket := bucket_out_of_range h
  rw [Table.index] at hbucket
  simp [tablePut, hbucket]

theorem tableRemove_out_of_range {key : CString} (h : ¬ InRange table key) :
    tableRemove table (some key) = .error .outOfBounds := by
  have hbucket := bucket_out_of_range h
  rw [Table.index] at hbucket
  simp [tableRemove, hbucket]

theorem tableGet_out_of_range {key : CString} (h : ¬ InRange table key)
    (mem buffer : Option Nat) :
    tableGet mem buffer table (some key) = .error .outOfBounds := by
  have hbucket := bucket_out_of_range h
  rw [Table.index] at hbucket
  simp [tableGet, hbucket]

end OutOfRange

end Tables
