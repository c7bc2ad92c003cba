import RemoteTable.CStrings
import RemoteTable.Memory

/-!
# Blocks of bytes that remember what was put into them

A cell is a byte together with the fact whether it was received. `malloc` and
`realloc` return cells with arbitrary bytes that were not; they fail on a size
that is negative as an `int`, which is an impossible size as a `size_t`. A
block that is `none` is a null pointer.
-/

namespace ByteBlocks

open CStrings Memory

structure Cell where
  byte : Byte
  received : Bool
  deriving DecidableEq

abbrev Block := Option (List Cell)

def arrived (bytes : List Byte) : List Cell := bytes.map fun b => ⟨b, true⟩

/-- The byte of an `int` at its lowest address. -/
def lowByte (x : Int) : Byte := ⟨(x % 256).toNat, by omega⟩

/-- Memory as it is handed out, position by position. -/
def stale (junk : Nat → Byte) (len : Nat) : List Cell :=
  (List.range len).map fun i => ⟨junk i, false⟩

def realloc (junk : Nat → Byte) (block : Block) (size : Int) : Block :=
  if size < 0 then none
  else
    let old := block.getD []
    some (old.take size.toNat ++ (stale junk size.toNat).drop old.length)

def malloc (junk : Nat → Byte) (size : Int) : Block := realloc junk none size

/-- Write bytes that were received at an offset. -/
def store (block : Block) (offset : Nat) (bytes : List Byte) : Except Fault Block :=
  match block with
  | none => if bytes = [] then .ok none else .error .nullPointer
  | some cells =>
    if offset + bytes.length ≤ cells.length then
      .ok (some (cells.take offset ++ arrived bytes ++ cells.drop (offset + bytes.length)))
    else .error .outOfBounds

@[simp] theorem arrived_length (bytes : List Byte) : (arrived bytes).length = bytes.length := by
  simp [arrived]

theorem arrived_append (front back : List Byte) :
    arrived (front ++ back) = arrived front ++ arrived back :=
  List.map_append

@[simp] theorem stale_length (junk : Nat → Byte) (len : Nat) :
    (stale junk len).length = len := by
  simp [stale]

theorem stale_unreceived {junk : Nat → Byte} {len : Nat} {c : Cell} (hc : c ∈ stale junk len) :
    c.received = false := by
  obtain ⟨i, _, rfl⟩ := List.mem_map.mp hc
  rfl

theorem malloc_eq (junk : Nat → Byte) (len : Nat) :
    malloc junk len = some (stale junk len) := by
  simp [malloc, realloc]

theorem realloc_negative (junk : Nat → Byte) (block : Block) {size : Int} (h : size < 0) :
    realloc junk block size = none := if_pos h

theorem realloc_length {junk : Nat → Byte} {block : Block} {size : Int} {cells : List Cell}
    (h : realloc junk block size = some cells) : (cells.length : Int) = size := by
  unfold realloc at h
  split_ifs at h with hneg
  cases h
  simp
  omega

/-- A block of some size that holds `front` and beyond it what was there. -/
def held (junk : Nat → Byte) (front : List Cell) (size : Nat) : List Cell :=
  front ++ (stale junk size).drop front.length

theorem held_length {junk : Nat → Byte} {front : List Cell} {size : Nat}
    (h : front.length ≤ size) : (held junk front size).length = size := by
  simp [held]
  omega

@[simp] theorem held_nil (junk : Nat → Byte) (size : Nat) : held junk [] size = stale junk size := rfl

theorem held_full (junk : Nat → Byte) (front : List Cell) : held junk front front.length = front := by
  simp [held, List.drop_of_length_le]

/-- A block that does not shrink keeps its contents. -/
theorem realloc_grow (junk : Nat → Byte) {cells : List Cell} {size : Nat}
    (h : cells.length ≤ size) : realloc junk (some cells) size = some (held junk cells size) := by
  simp [realloc, held, List.take_of_length_le h]

theorem store_inside {cells : List Cell} {offset : Nat} {bytes : List Byte}
    (room : offset + bytes.length ≤ cells.length) :
    store (some cells) offset bytes =
      .ok (some (cells.take offset ++ arrived bytes ++ cells.drop (offset + bytes.length))) :=
  if_pos room

theorem store_held (junk : Nat → Byte) {front : List Cell} {size : Nat} {bytes : List Byte}
    (room : front.length + bytes.length ≤ size) :
    store (some (held junk front size)) front.length bytes =
      .ok (some (held junk (front ++ arrived bytes) size)) := by
  have hlen : (held junk front size).length = size := held_length (by omega)
  rw [store_inside (by omega), held, List.take_left, List.drop_append, List.drop_drop]
  simp [held]

@[simp] theorem store_nothing (block : Block) {offset : Nat}
    (room : ∀ cells, block = some cells → offset ≤ cells.length) :
    store block offset [] = .ok block := by
  cases block with
  | none => rfl
  | some cells =>
    rw [store_inside (by simpa using room cells rfl)]
    simp [arrived]

end ByteBlocks
