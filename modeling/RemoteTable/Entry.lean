import RemoteTable.CStrings
import RemoteTable.Memory

/-!
# Data blocks and entries

The types of `data.h` and `entry.h` with every pointer resolved: a pointer
that the code tests for NULL is an `Option`. Results of `malloc` are
parameters, `none` being a failed allocation.
-/

namespace Entries

open CStrings Memory

structure Data where
  datasize : Int
  data : Option (Ptr (List Byte))
  deriving DecidableEq

structure Entry where
  key : Option (Ptr CString)
  value : Option (Ptr Data)
  deriving DecidableEq

/-- The bytes a data block stands for. A value that can be copied has some. -/
def Data.value (d : Data) : Option (List Byte) :=
  d.data.bind fun block =>
    if 0 < d.datasize ∧ d.datasize ≤ block.obj.length then
      some (block.obj.take d.datasize.toNat)
    else none

def dataDup (mem buffer : Option Nat) (data : Option (Ptr Data)) :
    Except Fault (Option (Ptr Data)) :=
  match data with
  | none => .ok none
  | some d =>
    if d.obj.datasize ≤ 0 then .ok none
    else match d.obj.data, mem, buffer with
      | none, _, _ => .ok none
      | some _, none, _ => .ok none
      | some _, some _, none => .ok none
      | some block, some a, some b =>
        -- memcpy reads datasize bytes of the old block
        if d.obj.datasize ≤ block.obj.length then
          .ok (some ⟨a, ⟨d.obj.datasize, some ⟨b, block.obj.take d.obj.datasize.toNat⟩⟩⟩)
        else .error .outOfBounds

def entryCreate (mem : Option Nat) (key : Option (Ptr CString)) (data : Option (Ptr Data)) :
    Option (Ptr Entry) :=
  match key, data with
  | some k, some d => mem.map fun a => ⟨a, ⟨some k, some d⟩⟩
  | _, _ => none

def keyOf (e : Ptr Entry) : Option CString := e.obj.key.map Ptr.obj

/-- The key of an entry pointer, absent when the pointer or its key is NULL. -/
def entryKey (entry : Option (Ptr Entry)) : Option CString := entry.bind keyOf

def entryCompare (entry1 entry2 : Option (Ptr Entry)) : Int :=
  match entryKey entry1, entryKey entry2 with
  | some k1, some k2 =>
    let result := strcmp k1 k2
    if result = 0 then 0 else if result > 0 then 1 else -1
  | _, _ => -2

@[simp] theorem entryKey_none : entryKey none = none := rfl

@[simp] theorem entryKey_some (e : Ptr Entry) : entryKey (some e) = keyOf e := rfl

theorem entryCompare_keyless {entry1 : Option (Ptr Entry)} (entry2 : Option (Ptr Entry))
    (h : entryKey entry1 = none) : entryCompare entry1 entry2 = -2 := by
  simp [entryCompare, h]

section Keyed

variable {entry1 : Option (Ptr Entry)} {e2 : Ptr Entry} {k1 k2 : CString}

theorem entryCompare_eq_zero_iff (h1 : entryKey entry1 = some k1) (h2 : keyOf e2 = some k2) :
    entryCompare entry1 (some e2) = 0 ↔ k1 = k2 := by
  rw [← strcmp_eq_zero_iff]
  simp only [entryCompare, h1, entryKey_some, h2]
  split_ifs <;> simp <;> omega

theorem entryCompare_pos_iff (h1 : entryKey entry1 = some k1) (h2 : keyOf e2 = some k2) :
    0 < entryCompare entry1 (some e2) ↔ k2 < k1 := by
  rw [← strcmp_pos_iff]
  simp only [entryCompare, h1, entryKey_some, h2]
  split_ifs <;> simp <;> omega

theorem entryCompare_eq_neg_one_iff (h1 : entryKey entry1 = some k1)
    (h2 : keyOf e2 = some k2) : entryCompare entry1 (some e2) = -1 ↔ k1 < k2 := by
  rw [← strcmp_neg_iff]
  simp only [entryCompare, h1, entryKey_some, h2]
  split_ifs <;> simp <;> omega

/-- A failed comparison and a smaller key have the same sign. -/
theorem entryCompare_neg_iff (entry1 : Option (Ptr Entry)) (h2 : keyOf e2 = some k2) :
    entryCompare entry1 (some e2) < 0 ↔ ∀ k1, entryKey entry1 = some k1 → k1 < k2 := by
  cases h1 : entryKey entry1 with
  | none => simp [entryCompare_keyless (some e2) h1]
  | some k1 =>
    simp only [Option.some.injEq, forall_eq']
    rw [← strcmp_neg_iff]
    simp only [entryCompare, h1, entryKey_some, h2]
    split_ifs <;> simp <;> omega

end Keyed

theorem entryCreate_key {mem : Option Nat} {key : Option (Ptr CString)}
    {data : Option (Ptr Data)} {e : Ptr Entry} (h : entryCreate mem key data = some e) :
    ∃ k d, key = some k ∧ data = some d ∧ e.obj = ⟨some k, some d⟩ := by
  cases key with
  | none => simp [entryCreate] at h
  | some k =>
    cases data with
    | none => simp [entryCreate] at h
    | some d =>
      simp only [entryCreate, Option.map_eq_some_iff] at h
      obtain ⟨a, _, rfl⟩ := h
      exact ⟨k, d, rfl, rfl, rfl⟩

/-- A copy of a proper value holds the same bytes. -/
theorem dataDup_value {d : Ptr Data} {bytes : List Byte} (h : d.obj.value = some bytes)
    (a b : Nat) : ∃ copy, dataDup (some a) (some b) (some d) = .ok (some copy) ∧
      copy.obj.value = some bytes := by
  obtain ⟨block, hblock, hvalue⟩ := Option.bind_eq_some_iff.mp h
  split_ifs at hvalue with hsize
  simp only [Option.some.injEq] at hvalue
  have hpos : ¬ d.obj.datasize ≤ 0 := by omega
  refine ⟨⟨a, ⟨d.obj.datasize, some ⟨b, block.obj.take d.obj.datasize.toNat⟩⟩⟩,
    by simp only [dataDup, if_neg hpos, hblock, if_pos hsize.2], ?_⟩
  have hlen : bytes.length = d.obj.datasize.toNat := by
    rw [← hvalue, List.length_take]
    omega
  have hle : d.obj.datasize ≤ (bytes.length : Int) := by omega
  have htake : bytes.take d.obj.datasize.toNat = bytes := List.take_of_length_le (by omega)
  simp [Data.value, hvalue, hsize.1, hle, htake]

end Entries
