import Mathlib.Data.List.TakeWhile
import RemoteTable.Memory
import RemoteTable.CStrings

/-!
# Calls of the C library on strings and streams

A character array is the list of its bytes, whatever they hold; a string in it
ends at the first NUL. A stream is the list of the bytes still to come. `fgets`
leaves the array alone at the end of the stream, and a line longer than the
array comes in pieces.
-/

namespace CLibrary

open CStrings Memory

def ascii (c : Char) : Option CChar :=
  if h : 0 < c.toNat ∧ c.toNat < 256 then
    some ⟨⟨c.toNat, h.2⟩, fun zero => Nat.ne_of_gt h.1 (congrArg Fin.val zero)⟩
  else none

def text (s : List Char) : CString := s.filterMap ascii

def bytes (s : CString) : List Byte := s.map Subtype.val

def nul : Byte := ⟨0, by decide⟩

def newline : Byte := ⟨10, by decide⟩

def strncmp : CString → CString → Nat → Int
  | _, _, 0 => 0
  | [], [], _ + 1 => 0
  | [], b :: _, _ + 1 => -byteValue b
  | a :: _, [], _ + 1 => byteValue a
  | a :: as, b :: bs, n + 1 => if a = b then strncmp as bs n else byteValue a - byteValue b

/-- Without a NUL in the array the search leaves it. -/
def strlen : List Byte → Except Fault Nat
  | [] => .error .outOfBounds
  | b :: rest => if b = 0 then .ok 0 else do
    let n ← strlen rest
    pure (n + 1)

def stringAt : List Byte → CString
  | [] => []
  | b :: rest => if h : b = 0 then [] else ⟨b, h⟩ :: stringAt rest

/-- The next line with its newline, or the first `m` bytes of it. -/
def linePiece : Nat → List Byte → List Byte
  | 0, _ => []
  | _ + 1, [] => []
  | m + 1, b :: rest => if b = newline then [b] else b :: linePiece m rest

/-- The array and the stream after the call. -/
def fgets (buf : List Byte) (size : Nat) (stream : List Byte) : List Byte × List Byte :=
  match linePiece (size - 1) stream with
  | [] => (buf, stream)
  | b :: piece => (b :: piece ++ nul :: buf.drop (piece.length + 2), stream.drop (piece.length + 1))

/-- The next token and what later calls go on with. -/
def strtok {α : Type} [DecidableEq α] (delim : α) (s : List α) : Option (List α) × List α :=
  match s.dropWhile (· == delim) with
  | [] => (none, [])
  | c :: rest =>
    (some ((c :: rest).takeWhile (· != delim)), ((c :: rest).dropWhile (· != delim)).tail)

theorem byteValue_inj {a b : CChar} (h : byteValue a = byteValue b) : a = b := by
  apply Subtype.ext
  apply Fin.ext
  simpa [byteValue] using h

/-- Comparing as many bytes as the second string has tests for a prefix. -/
theorem strncmp_eq_zero_iff (s t : CString) : strncmp s t t.length = 0 ↔ t <+: s := by
  induction t generalizing s with
  | nil => simp [strncmp]
  | cons b t ih =>
    cases s with
    | nil =>
      have positive := byteValue_pos b
      simp only [List.length_cons, strncmp, List.prefix_nil, reduceCtorEq, iff_false]
      omega
    | cons a s =>
      by_cases same : a = b
      · subst b
        simp [strncmp, ih]
      · have different : byteValue a - byteValue b ≠ 0 := by
          intro zero
          exact same (byteValue_inj (by omega))
        simp [strncmp, same, different, Ne.symm same]

theorem bytes_append (s t : CString) : bytes (s ++ t) = bytes s ++ bytes t := List.map_append

@[simp] theorem bytes_length (s : CString) : (bytes s).length = s.length := List.length_map _

theorem strlen_string (s : CString) (junk : List Byte) :
    strlen (bytes s ++ nul :: junk) = .ok s.length := by
  induction s with
  | nil => rfl
  | cons c s ih =>
    have step : strlen (bytes (c :: s) ++ nul :: junk) =
        if c.val = 0 then .ok 0
        else strlen (bytes s ++ nul :: junk) >>= fun n => pure (n + 1) := rfl
    rw [step, if_neg c.property, ih]
    rfl

theorem stringAt_string (s : CString) (junk : List Byte) :
    stringAt (bytes s ++ nul :: junk) = s := by
  induction s with
  | nil => rfl
  | cons c s ih =>
    have step : stringAt (bytes (c :: s) ++ nul :: junk) =
        if h : c.val = 0 then [] else ⟨c.val, h⟩ :: stringAt (bytes s ++ nul :: junk) := rfl
    rw [step, dif_neg c.property, ih]

theorem linePiece_starts (m : Nat) (stream : List Byte) : linePiece m stream <+: stream := by
  induction m generalizing stream with
  | zero => exact List.nil_prefix
  | succ m ih =>
    cases stream with
    | nil => exact List.nil_prefix
    | cons b rest =>
      by_cases ends : b = newline
      · simp [linePiece, ends]
      · simpa [linePiece, ends] using ih rest

theorem linePiece_length (m : Nat) (stream : List Byte) : (linePiece m stream).length ≤ m := by
  induction m generalizing stream with
  | zero => exact Nat.le_refl 0
  | succ m ih =>
    cases stream with
    | nil => exact Nat.zero_le _
    | cons b rest =>
      by_cases ends : b = newline
      · simp [linePiece, ends]
      · simpa [linePiece, ends] using ih rest

theorem linePiece_line {m : Nat} {line : List Byte} (inside : newline ∉ line)
    (room : line.length < m) (rest : List Byte) :
    linePiece m (line ++ newline :: rest) = line ++ [newline] := by
  induction line generalizing m with
  | nil =>
    obtain ⟨m, rfl⟩ := Nat.exists_eq_add_of_lt room
    simp [linePiece]
  | cons b line ih =>
    obtain ⟨m, rfl⟩ : ∃ n, m = n + 1 := ⟨m - 1, by omega⟩
    simp only [List.mem_cons, not_or] at inside
    simp only [List.length_cons] at room
    have shorter : line.length < m := by omega
    simp [linePiece, Ne.symm inside.1, ih inside.2 shorter]

theorem fgets_piece {size : Nat} {stream : List Byte} (room : 1 < size) (more : stream ≠ [])
    (buf : List Byte) : ∃ piece junk, piece <+: stream ∧ piece ≠ [] ∧ piece.length < size ∧
      fgets buf size stream = (piece ++ nul :: junk, stream.drop piece.length) := by
  have starts := linePiece_starts (size - 1) stream
  have bound := linePiece_length (size - 1) stream
  obtain ⟨b, rest, rfl⟩ := List.exists_cons_of_ne_nil more
  obtain ⟨m, hm⟩ : ∃ m, size - 1 = m + 1 := ⟨size - 2, by omega⟩
  cases hp : linePiece (size - 1) (b :: rest) with
  | nil =>
    rw [hm, linePiece] at hp
    split_ifs at hp
  | cons c piece =>
    rw [hp] at starts bound
    refine ⟨c :: piece, buf.drop (piece.length + 2), starts, by simp, by omega, ?_⟩
    simp [fgets, hp]

theorem fgets_line {size : Nat} {line : List Byte} (inside : newline ∉ line)
    (room : line.length + 1 < size) (buf rest : List Byte) : ∃ junk,
      fgets buf size (line ++ newline :: rest) = (line ++ newline :: nul :: junk, rest) := by
  have piece := linePiece_line (m := size - 1) inside (by omega) rest
  refine ⟨buf.drop (line.length + 2), ?_⟩
  cases line with
  | nil => simp only [List.nil_append] at piece ⊢; simp [fgets, piece]
  | cons b line =>
    simp only [List.cons_append] at piece ⊢
    simp [fgets, piece]

section Tokens

variable {α : Type} [DecidableEq α] {delim : α} {token : List α}

theorem strtok_some {c : α} {rest s : List α}
    (start : s.dropWhile (· == delim) = c :: rest) : strtok delim s =
      (some ((c :: rest).takeWhile (· != delim)), ((c :: rest).dropWhile (· != delim)).tail) := by
  simp [strtok, start]

theorem strtok_start (nonempty : token ≠ []) (inside : delim ∉ token) (rest : List α) :
    strtok delim (token ++ rest) = (some (token ++ rest.takeWhile (· != delim)),
      (rest.dropWhile (· != delim)).tail) := by
  have pass : ∀ x ∈ token, (x != delim) = true := by
    intro x hx
    simpa using fun same : x = delim => inside (same ▸ hx)
  obtain ⟨c, cs, rfl⟩ := List.exists_cons_of_ne_nil nonempty
  have first : (c == delim) = false := by simpa using pass c List.mem_cons_self
  have start : (c :: cs ++ rest).dropWhile (· == delim) = c :: (cs ++ rest) := by simp [first]
  rw [strtok_some start, ← List.cons_append, List.takeWhile_append_of_pos pass,
    List.dropWhile_append_of_pos pass]

theorem strtok_token (nonempty : token ≠ []) (inside : delim ∉ token) (rest : List α) :
    strtok delim (token ++ delim :: rest) = (some token, rest) := by
  rw [strtok_start nonempty inside]
  simp

theorem strtok_last (nonempty : token ≠ []) (inside : delim ∉ token) :
    strtok delim token = (some token, []) := by
  simpa using strtok_start nonempty inside []

/-- There is a token unless nothing but delimiters is left. -/
theorem strtok_isSome_iff (s : List α) :
    (strtok delim s).1.isSome ↔ ∃ x ∈ s, x ≠ delim := by
  cases start : s.dropWhile (· == delim) with
  | nil =>
    have only : ∀ x ∈ s, x = delim := by simpa using List.dropWhile_eq_nil_iff.mp start
    simpa [strtok, start] using only
  | cons c rest =>
    have other := List.head_dropWhile_not (· == delim) (l := s) (by simp [start])
    have present : c ∈ s := (List.dropWhile_suffix _).subset (start ▸ List.mem_cons_self)
    simp only [start, List.head_cons, beq_eq_false_iff_ne] at other
    simp only [strtok, start, Option.isSome_some, true_iff]
    exact ⟨c, present, other⟩

/-- A second token needs a delimiter behind the first one, and more behind that. -/
theorem strtok_twice_iff (s : List α) :
    ((strtok delim s).1.isSome ∧ (strtok delim (strtok delim s).2).1.isSome) ↔
      ∃ front back, s = front ++ delim :: back ∧ (∃ x ∈ front, x ≠ delim) ∧
        ∃ y ∈ back, y ≠ delim := by
  simp only [strtok_isSome_iff]
  constructor
  · rintro ⟨_, y, hy, other⟩
    cases start : s.dropWhile (· == delim) with
    | nil => simp [strtok, start] at hy
    | cons c rest =>
      rw [strtok_some start] at hy
      cases stop : (c :: rest).dropWhile (· != delim) with
      | nil => simp [stop] at hy
      | cons d back =>
        rw [stop] at hy
        have atDelim := List.head_dropWhile_not (· != delim) (l := c :: rest) (by simp [stop])
        simp only [stop, List.head_cons, bne_eq_false_iff_eq] at atDelim
        subst atDelim
        have unlike := List.head_dropWhile_not (· == d) (l := s) (by simp [start])
        simp only [start, List.head_cons, beq_eq_false_iff_ne] at unlike
        refine ⟨s.takeWhile (· == d) ++ (c :: rest).takeWhile (· != d), back, ?_, ⟨c, ?_, unlike⟩,
          y, hy, other⟩
        · rw [List.append_assoc, ← stop, List.takeWhile_append_dropWhile, ← start,
            List.takeWhile_append_dropWhile]
        · simp [unlike]
  · rintro ⟨front, back, rfl, ⟨x, hx, unlike⟩, y, hy, other⟩
    refine ⟨⟨x, List.mem_append_left _ hx, unlike⟩, y, ?_, other⟩
    have kept : front.dropWhile (· == delim) ≠ [] := by
      intro gone
      exact unlike (by simpa using List.dropWhile_eq_nil_iff.mp gone x hx)
    obtain ⟨c, rest, hfront⟩ := List.exists_cons_of_ne_nil kept
    have start : (front ++ delim :: back).dropWhile (· == delim) =
        c :: (rest ++ delim :: back) := by
      rw [List.dropWhile_append, hfront]
      simp
    rw [strtok_some start, ← List.cons_append, List.dropWhile_append]
    cases stop : (c :: rest).dropWhile (· != delim) with
    | nil => simpa using hy
    | cons d more => simp [hy]

end Tokens

end CLibrary
