import Mathlib.Data.List.Lex
import Mathlib.Order.Fin.Basic
import Mathlib.Tactic.Linarith

/-!
# C strings, plain `char` and the 32-bit `int`

A string is kept without its terminating NUL, so every character of it is a
nonzero byte and no string can end early. `strcmp` compares unsigned bytes;
callers use its sign alone, which is the lexicographic order on the bytes.
Plain `char` is signed and `int` wraps, as gcc has it on x86-64.
-/

namespace CStrings

abbrev Byte := Fin 256

abbrev CChar := {b : Byte // b ≠ 0}

abbrev CString := List CChar

/-- One-letter keys for worked runs. -/
def keyA : CString := [⟨97, by decide⟩]

def keyB : CString := [⟨98, by decide⟩]

def keyC : CString := [⟨99, by decide⟩]

def byteValue (c : CChar) : Int := c.val.val

/-- The value of a plain `char`. -/
def charValue (c : CChar) : Int :=
  if c.val.val < 128 then c.val.val else c.val.val - 256

/-- Two's complement wrap-around of a 32-bit `int`. -/
def int32 (x : Int) : Int := Int.bmod x (2 ^ 32)

def strcmp : CString → CString → Int
  | [], [] => 0
  | [], b :: _ => -byteValue b
  | a :: _, [] => byteValue a
  | a :: as, b :: bs => if a = b then strcmp as bs else byteValue a - byteValue b

theorem byteValue_pos (c : CChar) : 0 < byteValue c := by
  have hne : c.val.val ≠ 0 := fun h => c.property (Fin.ext h)
  simp only [byteValue]
  omega

theorem byteValue_lt_iff (a b : CChar) : byteValue a < byteValue b ↔ a < b := by
  simp only [byteValue, Nat.cast_lt]
  rfl

theorem strcmp_self (a : CString) : strcmp a a = 0 := by
  induction a with
  | nil => rfl
  | cons c cs ih => simpa [strcmp] using ih

theorem strcmp_neg_iff (a b : CString) : strcmp a b < 0 ↔ a < b := by
  induction a generalizing b with
  | nil =>
    cases b with
    | nil => simp [strcmp]
    | cons d ds =>
      have hd := byteValue_pos d
      simp only [strcmp, List.nil_lt_cons, iff_true]
      omega
  | cons c cs ih =>
    cases b with
    | nil =>
      have hc := byteValue_pos c
      simp only [strcmp, List.not_lt_nil, iff_false]
      omega
    | cons d ds =>
      rw [List.cons_lt_cons_iff]
      by_cases h : c = d
      · subst d
        simp [strcmp, ih]
      · rw [strcmp, if_neg h, ← byteValue_lt_iff]
        simp only [h, false_and, or_false]
        omega

theorem strcmp_antisymm (a b : CString) : strcmp b a = -strcmp a b := by
  induction a generalizing b with
  | nil => cases b <;> simp [strcmp]
  | cons c cs ih =>
    cases b with
    | nil => simp [strcmp]
    | cons d ds =>
      by_cases h : c = d
      · subst d
        simpa [strcmp] using ih ds
      · simp only [strcmp, if_neg h, if_neg (Ne.symm h)]
        omega

theorem strcmp_pos_iff (a b : CString) : 0 < strcmp a b ↔ b < a := by
  rw [← strcmp_neg_iff, strcmp_antisymm a b]
  omega

theorem strcmp_eq_zero_iff (a b : CString) : strcmp a b = 0 ↔ a = b := by
  constructor
  · intro h
    have hlt : ¬ a < b := by rw [← strcmp_neg_iff]; omega
    have hgt : ¬ b < a := by rw [← strcmp_pos_iff]; omega
    exact le_antisymm (not_lt.mp hgt) (not_lt.mp hlt)
  · rintro rfl
    exact strcmp_self a

theorem int32_add_int32 (x y : Int) : int32 (int32 x + y) = int32 (x + y) :=
  Int.bmod_add_bmod

theorem int32_of_range {x : Int} (lo : -(2 ^ 31) ≤ x) (hi : x < 2 ^ 31) : int32 x = x := by
  unfold int32
  apply Int.bmod_eq_of_le <;> omega

/-- One bit too many makes a number negative. -/
theorem int32_wrapped {x : Int} (lo : 2 ^ 31 ≤ x) (hi : x < 2 ^ 32) : int32 x < 0 := by
  rw [int32, Int.bmod_def, Int.emod_eq_of_lt (by omega) (by omega), if_neg (by omega)]
  omega

end CStrings
