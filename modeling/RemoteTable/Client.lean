import RemoteTable.CLibrary

/-!
# The command loop of `table_client.c`

The loop reads a command line into `option`, which outlives the iterations, and
the lines a branch needs into arrays of its own, which hold anything when it
begins. The stubs a branch calls and what it prints touch neither the arrays nor
the input. An index of -1 is a write in front of the array.
-/

namespace Client

open CStrings Memory CLibrary

inductive Command where
  | put
  | get
  | del
  | size
  | getkeys
  | gettable
  | quit
  deriving DecidableEq

def Command.name : Command → CString
  | .put => text ['p', 'u', 't']
  | .get => text ['g', 'e', 't']
  | .del => text ['d', 'e', 'l']
  | .size => text ['s', 'i', 'z', 'e']
  | .getkeys => text ['g', 'e', 't', 'k', 'e', 'y', 's']
  | .gettable => text ['g', 'e', 't', 't', 'a', 'b', 'l', 'e']
  | .quit => text ['q', 'u', 'i', 't']

/-- The comparison of the loop, `strncmp(option, NAME, strlen(NAME)) == 0`. -/
def Command.Begins (c : Command) (option : CString) : Prop :=
  strncmp option c.name c.name.length = 0

instance (c : Command) (option : CString) : Decidable (c.Begins option) :=
  inferInstanceAs (Decidable (_ = _))

/-- The branch that is taken; without one the line is reported as invalid. -/
def dispatch (option : CString) : Option Command :=
  if Command.put.Begins option then some .put
  else if Command.get.Begins option then some .get
  else if Command.del.Begins option then some .del
  else if Command.size.Begins option then some .size
  else if Command.getkeys.Begins option then some .getkeys
  else if Command.gettable.Begins option then some .gettable
  else if Command.quit.Begins option then some .quit
  else none

/-- The exit test of the loop. -/
def Leaves (option : CString) : Prop := Command.quit.Begins option

instance (option : CString) : Decidable (Leaves option) :=
  inferInstanceAs (Decidable (_ = _))

/-- What a reader leaves in its array and in the input. -/
abbrev LineReader := List Byte → Except Fault (List Byte × List Byte)

def readLine (buf : List Byte) : LineReader := fun input => do
  let (buf, rest) := fgets buf 1024 input
  let len ← strlen buf
  if len = 0 then .error .outOfBounds else pure (buf.set (len - 1) nul, rest)

def readOption (option : List Byte) : LineReader := readLine option

def readKey (key : List Byte) : LineReader := readLine key

def readData (data : List Byte) : LineReader := readLine data

/-- The arrays of one iteration. -/
structure Scratch where
  key : List Byte
  data : List Byte

/-- The lines that a branch reads, in order. -/
def arguments (scratch : Scratch) : Option Command → List LineReader
  | some .put => [readKey scratch.key, readData scratch.data]
  | some .get => [readKey scratch.key]
  | some .del => [readKey scratch.key]
  | _ => []

/-- One call of a reader: the input it found, its string and the input it left. -/
structure Read where
  before : List Byte
  text : CString
  after : List Byte
  deriving DecidableEq

def readInTurn : List LineReader → List Byte → Except Fault (List Read × List Byte)
  | [], input => .ok ([], input)
  | reader :: readers, input => do
    let (buf, rest) ← reader input
    let (later, left) ← readInTurn readers rest
    pure (⟨input, stringAt buf, rest⟩ :: later, left)

def clientStep (scratch : Scratch) (option input : List Byte) :
    Except Fault (List Byte × List Read × List Byte) := do
  let (option, rest) ← readOption option input
  let (later, left) ← readInTurn (arguments scratch (dispatch (stringAt option))) rest
  pure (option, ⟨input, stringAt option, rest⟩ :: later, left)

/-- A `continue` in a branch goes to the exit test as well. -/
def mainLoop : Nat → (Nat → Scratch) → List Byte → List Byte → Except Fault (List Read)
  | 0, _, _, _ => .error .endless
  | fuel + 1, scratch, option, input => do
    let (option, reads, rest) ← clientStep (scratch 0) option input
    if Leaves (stringAt option) then pure reads
    else do
      let later ← mainLoop fuel (fun i => scratch (i + 1)) option rest
      pure (reads ++ later)

theorem begins_iff (c : Command) (option : CString) : c.Begins option ↔ c.name <+: option :=
  strncmp_eq_zero_iff option c.name

theorem name_injective {c d : Command} (h : c.name = d.name) : c = d := by
  cases c <;> cases d <;> first | rfl | exact absurd h (by decide)

theorem dispatch_begins {option : CString} {c : Command} (h : dispatch option = some c) :
    c.name <+: option := by
  rw [← begins_iff]
  unfold dispatch at h
  split_ifs at h <;> cases h <;> assumption

theorem dispatch_none_iff {option : CString} :
    dispatch option = none ↔ ∀ c : Command, ¬ c.name <+: option := by
  constructor
  · intro h c
    rw [← begins_iff]
    unfold dispatch at h
    split_ifs at h
    cases c <;> assumption
  · intro h
    cases taken : dispatch option with
    | none => rfl
    | some c => exact absurd (dispatch_begins taken) (h c)

/-- The test for `get` is made first and answers for the two longer names as well. -/
theorem dispatch_not_longer (option : CString) :
    dispatch option ≠ some .getkeys ∧ dispatch option ≠ some .gettable := by
  have covered : ∀ c : Command, Command.get.name <+: c.name → dispatch option = some c →
      c = .get := by
    intro c longer taken
    have get : Command.get.Begins option :=
      (begins_iff _ _).mpr (longer.trans (dispatch_begins taken))
    unfold dispatch at taken
    rw [if_pos get] at taken
    split_ifs at taken with put
    · obtain rfl : Command.put = c := Option.some.inj taken
      exact absurd longer (by decide)
    · exact (Option.some.inj taken).symm
  constructor
  · intro taken
    cases covered .getkeys (by decide) taken
  · intro taken
    cases covered .gettable (by decide) taken

theorem leaves_iff (option : CString) : Leaves option ↔ Command.quit.name <+: option :=
  begins_iff .quit option

/-- A line that begins with `quit` begins with no other name. -/
theorem leaves_dispatch {option : CString} (leaves : Leaves option) :
    dispatch option = some .quit := by
  have begins := (leaves_iff option).mp leaves
  cases taken : dispatch option with
  | none => exact absurd begins (dispatch_none_iff.mp taken .quit)
  | some c =>
    rcases List.prefix_or_prefix_of_prefix (dispatch_begins taken) begins with h | h
    · cases c <;> first | rfl | exact absurd h (by decide)
    · cases c <;> first | rfl | exact absurd h (by decide)

end Client
