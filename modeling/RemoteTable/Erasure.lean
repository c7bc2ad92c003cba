import RemoteTable.TableRuns

/-!
# Addresses do not matter to the code on values

Erasing all addresses, and what a buffer holds behind the first `datasize`
bytes, commutes with every operation. So what a call returns depends on the
contents of keys, values and table alone.
-/

namespace Erasure

open CStrings Memory Entries ListOps Tables TableRuns

def eraseKey (k : Ptr CString) : Ptr CString := ⟨0, k.obj⟩

def eraseData (d : Ptr Data) : Ptr Data :=
  ⟨0, ⟨d.obj.datasize, d.obj.data.map fun b => ⟨0, b.obj.take d.obj.datasize.toNat⟩⟩⟩

def eraseEntry (e : Ptr Entry) : Ptr Entry :=
  ⟨0, ⟨e.obj.key.map eraseKey, e.obj.value.map eraseData⟩⟩

def eraseNode (n : Node) : Node := ⟨0, n.entry.map eraseEntry⟩

def eraseWalk (w : Walk) : Walk :=
  ⟨w.passed.map eraseNode, eraseNode w.current, w.comp, w.next.map eraseNode⟩

def eraseList (list : ListT) : ListT := ⟨list.size, list.head.map eraseNode⟩

def eraseTable (T : Table) : Table := ⟨T.size, T.lists.map eraseList, by simp [T.length_eq]⟩

/-- Only whether the allocation succeeded is kept. -/
def eraseAddr (mem : Option Nat) : Option Nat := mem.map fun _ => 0

theorem keyOf_erase (e : Ptr Entry) : keyOf (eraseEntry e) = keyOf e := by
  simp [keyOf, eraseEntry, eraseKey, Function.comp_def]

theorem entryKey_erase (entry : Option (Ptr Entry)) :
    entryKey (entry.map eraseEntry) = entryKey entry := by
  cases entry with
  | none => rfl
  | some e => exact keyOf_erase e

theorem key_erase (n : Node) : (eraseNode n).key = n.key := entryKey_erase n.entry

theorem entryCompare_erase (entry : Option (Ptr Entry)) (e : Ptr Entry) :
    entryCompare (entry.map eraseEntry) (some (eraseEntry e)) = entryCompare entry (some e) := by
  have h := entryKey_erase (some e)
  rw [Option.map_some] at h
  rw [entryCompare, entryCompare, entryKey_erase, h]

theorem entryCreate_erase (mem : Option Nat) (key : Option (Ptr CString))
    (value : Option (Ptr Data)) :
    entryCreate (eraseAddr mem) (key.map eraseKey) (value.map eraseData) =
      (entryCreate mem key value).map eraseEntry := by
  cases key <;> cases value <;> cases mem <;> rfl

theorem dataDup_erase (mem buffer : Option Nat) (d : Option (Ptr Data)) :
    dataDup (eraseAddr mem) (eraseAddr buffer) (d.map eraseData) =
      (dataDup mem buffer d).map (Option.map eraseData) := by
  cases d with
  | none => rfl
  | some d =>
    simp only [dataDup, Option.map_some, eraseData]
    by_cases hsize : d.obj.datasize ≤ 0
    · simp only [if_pos hsize]
      rfl
    · simp only [if_neg hsize]
      cases d.obj.data with
      | none => rfl
      | some b =>
        cases mem with
        | none => rfl
        | some a =>
          cases buffer with
          | none => rfl
          | some a' =>
            have hlen : d.obj.datasize ≤ ((b.obj.take d.obj.datasize.toNat).length : Int) ↔
                d.obj.datasize ≤ (b.obj.length : Int) := by
              rw [List.length_take]
              omega
            simp only [Option.map_some, eraseAddr, hlen]
            split_ifs <;> rfl

theorem addWalk_erase (e : Ptr Entry) (current : Node) (rest : List Node) :
    addWalk (eraseEntry e) (eraseNode current) (rest.map eraseNode) =
      eraseWalk (addWalk e current rest) := by
  induction rest generalizing current with
  | nil => simp [addWalk, eraseWalk, eraseNode, entryCompare_erase]
  | cons next rest ih =>
    have hcomp : entryCompare (eraseNode current).entry (some (eraseEntry e)) =
        entryCompare current.entry (some e) := entryCompare_erase current.entry e
    simp only [addWalk, List.map_cons, hcomp]
    by_cases h : entryCompare current.entry (some e) < 0
    · rw [if_pos h, if_pos h, ih next]
      rfl
    · rw [if_neg h, if_neg h]
      rfl

theorem listAdd_erase (mem : Option Nat) (list : ListT) (entry : Option (Ptr Entry)) :
    listAdd (eraseAddr mem) (eraseList list) (entry.map eraseEntry) =
      ((listAdd mem list entry).1, eraseList (listAdd mem list entry).2) := by
  cases entry with
  | none => rfl
  | some e =>
    obtain ⟨size, nodes⟩ := list
    cases nodes with
    | nil => cases mem <;> rfl
    | cons head rest =>
      have hcomp : entryCompare (eraseNode head).entry (some (eraseEntry e)) =
          entryCompare head.entry (some e) := entryCompare_erase head.entry e
      simp only [listAdd, eraseList, List.map_cons, Option.map_some, hcomp, addWalk_erase]
      generalize addWalk e head rest = w
      by_cases hzero : entryCompare head.entry (some e) = 0
      · simp [hzero, eraseNode]
      by_cases hpos : entryCompare head.entry (some e) > 0
      · cases mem <;> simp [hzero, hpos, eraseAddr, eraseNode]
      by_cases wzero : w.comp = 0
      · simp [hzero, hpos, wzero, eraseWalk, eraseNode]
      by_cases wpos : w.comp > 0
      · cases mem <;> simp [hzero, hpos, wzero, wpos, eraseWalk, eraseAddr, eraseNode]
      cases hnext : w.next with
      | nil => cases mem <;> simp [hzero, hpos, wzero, wpos, hnext, eraseWalk, eraseAddr, eraseNode]
      | cons next after => simp [hzero, hpos, wzero, wpos, hnext, eraseWalk]

theorem removeNode_erase (node : Node) (rest : List Node) :
    removeNode (eraseNode node) (rest.map eraseNode) =
      ((removeNode node rest).1, (removeNode node rest).2.map eraseNode) := by
  induction rest generalizing node with
  | nil => rfl
  | cons next rest ih =>
    have h := ih { next with entry := node.entry }
    simp only [removeNode, List.map_cons]
    have hswap : { eraseNode next with entry := (eraseNode node).entry } =
        eraseNode { next with entry := node.entry } := rfl
    rw [hswap, h]
    rfl

theorem keyCompare_erase (n : Node) (k : CString) :
    keyCompare (eraseNode n) k = keyCompare n k := by
  rw [keyCompare, keyCompare, key_erase]

theorem keyWalk_erase (k : CString) (current : Node) (rest : List Node) :
    keyWalk k (eraseNode current) (rest.map eraseNode) =
      (keyWalk k current rest).map eraseWalk := by
  induction rest generalizing current with
  | nil =>
    simp only [keyWalk, List.map_nil, keyCompare_erase]
    cases keyCompare current k <;> rfl
  | cons next rest ih =>
    simp only [keyWalk, List.map_cons, keyCompare_erase]
    cases keyCompare current k with
    | error fault => rfl
    | ok comp =>
      simp only [ok_bind]
      by_cases h : comp ≠ 0
      · rw [if_pos h, if_pos h, ih next]
        cases keyWalk k next rest <;> rfl
      · rw [if_neg h, if_neg h]
        rfl

theorem listGet_erase (list : ListT) (key : Option CString) :
    listGet (eraseList list) key = (listGet list key).map (Option.map eraseEntry) := by
  cases key with
  | none => rfl
  | some k =>
    obtain ⟨size, nodes⟩ := list
    cases nodes with
    | nil => rfl
    | cons head rest =>
      simp only [listGet, eraseList, List.map_cons, keyWalk_erase]
      cases keyWalk k head rest with
      | error fault => rfl
      | ok w =>
        by_cases h : w.comp = 0
        · simp [Except.map, eraseWalk, eraseNode, h]
        · simp [Except.map, eraseWalk, h]

theorem listRemove_erase (list : ListT) (key : Option CString) :
    listRemove (eraseList list) key =
      (listRemove list key).map fun r => (r.1, eraseList r.2) := by
  cases key with
  | none => rfl
  | some k =>
    obtain ⟨size, nodes⟩ := list
    cases nodes with
    | nil => rfl
    | cons head rest =>
      simp only [listRemove, eraseList, List.map_cons, keyCompare_erase, keyWalk_erase]
      cases keyCompare head k with
      | error fault => rfl
      | ok comp =>
        simp only [ok_bind]
        by_cases hzero : comp = 0
        · simp [hzero, removeNode_erase, removeNode_code, Except.map]
        · cases keyWalk k head rest with
          | error fault => simp [hzero, Except.map]
          | ok w =>
            by_cases h : w.comp = 0
            · simp [hzero, h, Except.map, eraseWalk, removeNode_erase, removeNode_code]
            · simp [hzero, h, Except.map, eraseWalk]

theorem bucket_erase (T : Table) (hash : Int) :
    (eraseTable T).bucket hash = (T.bucket hash).map eraseList := by
  by_cases h : 0 ≤ hash
  · simp only [Table.bucket, if_pos h, eraseTable, List.getElem?_map]
    cases T.lists[hash.toNat]? <;> rfl
  · simp only [Table.bucket, if_neg h]
    rfl

theorem setBucket_erase (T : Table) (hash : Int) (list : ListT) :
    (eraseTable T).setBucket hash (eraseList list) = eraseTable (T.setBucket hash list) := by
  simp only [Table.setBucket, eraseTable, List.map_set]

theorem tablePut_erase (mem node : Option Nat) (T : Table) (key : Option (Ptr CString))
    (value : Option (Ptr Data)) :
    tablePut (eraseAddr mem) (eraseAddr node) (eraseTable T) (key.map eraseKey)
        (value.map eraseData) =
      (tablePut mem node T key value).map fun r => (r.1, eraseTable r.2) := by
  cases key with
  | none => rfl
  | some k =>
    cases value with
    | none => rfl
    | some v =>
      have hcreate := entryCreate_erase mem (some k) (some v)
      simp only [Option.map_some] at hcreate
      have hkey : (eraseKey k).obj = k.obj := rfl
      have hsize : (eraseTable T).size = T.size := rfl
      simp only [tablePut, Option.map_some, hkey, hsize, bucket_erase, hcreate]
      cases T.bucket (hashFunction (some k.obj) T.size) with
      | error fault => rfl
      | ok list =>
        simp only [Except.map, ok_bind, pure_eq_ok, listAdd_erase, setBucket_erase]

theorem tableRemove_erase (T : Table) (key : Option CString) :
    tableRemove (eraseTable T) key =
      (tableRemove T key).map fun r => (r.1, eraseTable r.2) := by
  cases key with
  | none => rfl
  | some k =>
    have hsize : (eraseTable T).size = T.size := rfl
    simp only [tableRemove, hsize, bucket_erase]
    cases T.bucket (hashFunction (some k) T.size) with
    | error fault => rfl
    | ok list =>
      simp only [Except.map, ok_bind, listRemove_erase]
      cases listRemove list (some k) with
      | error fault => rfl
      | ok r => simp only [ok_bind, pure_eq_ok, setBucket_erase]

theorem tableGet_erase (mem buffer : Option Nat) (T : Table) (key : Option CString) :
    tableGet (eraseAddr mem) (eraseAddr buffer) (eraseTable T) key =
      (tableGet mem buffer T key).map (Option.map eraseData) := by
  cases key with
  | none => rfl
  | some k =>
    have hsize : (eraseTable T).size = T.size := rfl
    simp only [tableGet, hsize, bucket_erase]
    cases T.bucket (hashFunction (some k) T.size) with
    | error fault => rfl
    | ok list =>
      simp only [Except.map, ok_bind, listGet_erase]
      cases listGet list (some k) with
      | error fault => rfl
      | ok entry =>
        cases entry with
        | none => rfl
        | some e => exact dataDup_erase mem buffer e.obj.value

theorem tableSize_erase (T : Table) : tableSize (eraseTable T) = tableSize T := by
  simp only [tableSize_eq_sum, eraseTable, List.map_map]
  rfl

def eraseOp : TableOp → TableOp
  | .put mem node key value => .put (eraseAddr mem) (eraseAddr node) (eraseKey key) (eraseData value)
  | .remove key => .remove key
  | .get mem buffer key => .get (eraseAddr mem) (eraseAddr buffer) key
  | .size => .size

def eraseResult : TableResult → TableResult
  | .code c => .code c
  | .data d => .data (d.map eraseData)

theorem tableStep_erase (T : Table) (op : TableOp) :
    tableStep (eraseTable T) (eraseOp op) =
      (tableStep T op).map fun r => (eraseResult r.1, eraseTable r.2) := by
  cases op with
  | put mem node key value =>
    have h := tablePut_erase mem node T (some key) (some value)
    simp only [Option.map_some] at h
    simp only [tableStep, eraseOp, h]
    cases tablePut mem node T (some key) (some value) <;> rfl
  | remove key =>
    simp only [tableStep, eraseOp, tableRemove_erase]
    cases tableRemove T (some key) <;> rfl
  | get mem buffer key =>
    simp only [tableStep, eraseOp, tableGet_erase]
    cases tableGet mem buffer T (some key) <;> rfl
  | size =>
    simp only [tableStep, eraseOp, tableSize_erase]
    rfl

end Erasure
