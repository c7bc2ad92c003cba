import RemoteTable.ListMemory
import RemoteTable.Table

/-!
# `table.c` on an explicit store

The table block points to the array of buckets, which points to the lists.
`table_put` stores the pointers it was given: the entry made by `entry_create`
refers to the caller's own key and value.
-/

namespace TableMemory

open CStrings Memory ListMemory

def loadArray (σ : Store) (p : Option Nat) : Except Fault (List (Option Nat)) := do
  match ← σ.load p with
  | .array lists => pure lists
  | _ => throw .badBlock

def loadTable (σ : Store) (p : Option Nat) : Except Fault (Option Nat × Int) := do
  match ← σ.load p with
  | .table lists size => pure (lists, size)
  | _ => throw .badBlock

def hashFunction (σ : Store) (key : Option Nat) (size : Int) : Except Fault Int :=
  match key with
  | none => pure (-1)
  | some key =>
    if size ≤ 0 then pure (-1)
    else do
      let k ← loadChars σ (some key)
      pure (Tables.hashFunction (some k) size)

/-- `table->lists[hash]`. -/
def element (σ : Store) (table : Nat) (hash : Int) : Except Fault (Option Nat) := do
  let (array, _) ← loadTable σ (some table)
  let lists ← loadArray σ array
  if 0 ≤ hash then match lists[hash.toNat]? with
    | none => throw .outOfBounds
    | some list => pure list
  else throw .outOfBounds

/-- `list_destroy` on the lists from index `j` on, with `m` to go. -/
def destroyLists (array : Nat) : Nat → Nat → Store → Except Fault Store
  | _, 0, σ => pure σ
  | j, m + 1, σ => do
    let lists ← loadArray σ (some array)
    match lists[j]? with
    | none => throw .outOfBounds
    | some list => do
      let r ← listDestroy σ list
      destroyLists array (j + 1) m r.2

/-- The loop of `table_create` from index `i`, with `m` lists to go. -/
def createLoop (each : Nat → Bool) (table array : Nat) :
    Nat → Nat → Store → Except Fault (Option Nat × Store)
  | _, 0, σ => pure (some table, σ)
  | i, m + 1, σ => match listCreate (each i) σ with
    | (none, σ) => do
      let σ ← destroyLists array 0 i σ
      let σ ← σ.free array
      let σ ← σ.free table
      pure (none, σ)
    | (some list, σ) => do
      let lists ← loadArray σ (some array)
      let σ ← σ.store array (.array (lists.set i (some list)))
      createLoop each table array (i + 1) m σ

def tableCreate (mem array : Bool) (each : Nat → Bool) (σ : Store) (n : Int) :
    Except Fault (Option Nat × Store) :=
  match malloc mem σ (.table none n) with
  | (none, σ) => pure (none, σ)
  | (some table, σ) => match malloc array σ (.array (List.replicate n.toNat none)) with
    | (none, σ) => do
      let σ ← σ.free table
      pure (none, σ)
    | (some lists, σ) => do
      let σ ← σ.store table (.table (some lists) n)
      createLoop each table lists 0 n.toNat σ

/-- The loop of `table_destroy` from index `i`, with `m` lists to go. -/
def destroyLoop (table : Nat) : Nat → Nat → Store → Except Fault Store
  | _, 0, σ => pure σ
  | i, m + 1, σ => do
    let list ← element σ table i
    let r ← listDestroy σ list
    destroyLoop table (i + 1) m r.2

def tableDestroy (σ : Store) (table : Option Nat) : Except Fault (Int × Store) :=
  match table with
  | none => pure (-1, σ)
  | some table => do
    let (_, size) ← loadTable σ (some table)
    let σ ← destroyLoop table 0 size.toNat σ
    let (array, _) ← loadTable σ (some table)
    let σ ← match array with
      | none => pure σ
      | some array => σ.free array
    let σ ← σ.free table
    pure (0, σ)

def tablePut (mem node : Bool) (σ : Store) (table key value : Option Nat) :
    Except Fault (Int × Store) :=
  match table, key, value with
  | some table, some key, some value => do
    let (_, size) ← loadTable σ (some table)
    let hash ← hashFunction σ (some key) size
    let (entry, σ) := entryCreate mem σ (some key) (some value)
    let list ← element σ table hash
    listAdd node σ list entry
  | _, _, _ => pure (-1, σ)

def tableGet (mem buffer : Bool) (σ : Store) (table key : Option Nat) :
    Except Fault (Option Nat × Store) :=
  match table, key with
  | some table, some key => do
    let (_, size) ← loadTable σ (some table)
    let hash ← hashFunction σ (some key) size
    let list ← element σ table hash
    let entry ← listGet σ list (some key)
    match entry with
    | none => pure (none, σ)
    | some entry => do
      let (_, value) ← loadEntry σ (some entry)
      dataDup mem buffer σ value
  | _, _ => pure (none, σ)

def tableRemove (σ : Store) (table key : Option Nat) : Except Fault (Int × Store) :=
  match table, key with
  | some table, some key => do
    let (_, size) ← loadTable σ (some table)
    let hash ← hashFunction σ (some key) size
    let list ← element σ table hash
    listRemove σ list (some key)
  | _, _ => pure (-1, σ)

/-- The loop of `table_size` from index `i`, with `m` lists to go. -/
def sizeLoop (σ : Store) (table : Nat) : Nat → Nat → Int → Except Fault Int
  | _, 0, size => pure size
  | i, m + 1, size => do
    let list ← element σ table i
    let s ← listSize σ list
    sizeLoop σ table (i + 1) m (size + s)

def tableSize (σ : Store) (table : Option Nat) : Except Fault Int :=
  match table with
  | none => pure (-1)
  | some table => do
    let (_, size) ← loadTable σ (some table)
    sizeLoop σ table 0 size.toNat 0

end TableMemory
