import RemoteTable.Client

/-!
# Which branch a command line takes

The loop compares prefixes, a user types words. The two agree except on lines
that start with a command name and run on, and on lines that start with a blank
and have a command name as their first word. Two of the seven names run on from
a third, so their own branches are never taken.
-/

namespace Dispatch

open CStrings CLibrary Client

/-- What `isspace` accepts. -/
def blank (c : CChar) : Bool := c.val.val == 32 || 9 ≤ c.val.val && c.val.val ≤ 13

def firstWord (line : CString) : CString := (line.dropWhile blank).takeWhile fun c => !blank c

/-- The command typed is the one executed. -/
structure Right (line : CString) : Prop where
  taken : ∀ c : Command, firstWord line = c.name → dispatch line = some c
  reported : (∀ c : Command, firstWord line ≠ c.name) → dispatch line = none
  left : Leaves line ↔ firstWord line = Command.quit.name

/-- A command name that does not end where a word ends. -/
def RunsOn (line : CString) : Prop :=
  ∃ (c : Command) (next : CChar) (rest : CString),
    line = c.name ++ next :: rest ∧ blank next = false

/-- A command name with blanks in front of it. -/
def Indented (line : CString) : Prop :=
  ∃ (c : Command) (next : CChar) (rest : CString),
    line = next :: rest ∧ blank next = true ∧ firstWord line = c.name

theorem name_nonempty (c : Command) : c.name ≠ [] := by cases c <;> decide

theorem name_unblank (c : Command) : ∀ x ∈ c.name, blank x = false := by
  have all : c.name.all (fun x => !blank x) = true := by cases c <;> rfl
  intro x hx
  simpa using List.all_eq_true.mp all x hx

/-- The only names that run on from another name. -/
theorem longer_name {c d : Command} (h : c.name <+: d.name) :
    c = d ∨ d = .getkeys ∨ d = .gettable := by
  cases c <;> cases d <;> first | exact absurd h (by decide) | simp

theorem firstWord_name (c : Command) (rest : CString) :
    firstWord (c.name ++ rest) = c.name ++ rest.takeWhile fun x => !blank x := by
  obtain ⟨x, xs, hname⟩ := List.exists_cons_of_ne_nil (name_nonempty c)
  have start : (c.name ++ rest).dropWhile blank = c.name ++ rest := by
    have first := name_unblank c x (by simp [hname])
    simp [hname, first]
  rw [firstWord, start]
  apply List.takeWhile_append_of_pos
  intro y hy
  simp [name_unblank c y hy]

theorem firstWord_begins {next : CChar} (rest : CString) (unblank : blank next = false) :
    firstWord (next :: rest) <+: next :: rest := by
  simp only [firstWord, List.dropWhile_cons, unblank]
  exact List.takeWhile_prefix _

theorem begins_iff_firstWord {line : CString} (whole : ¬ RunsOn line) (flush : ¬ Indented line)
    (c : Command) : c.name <+: line ↔ firstWord line = c.name := by
  constructor
  · rintro ⟨rest, rfl⟩
    rw [firstWord_name]
    cases rest with
    | nil => simp
    | cons next rest =>
      cases hb : blank next with
      | true => simp [hb]
      | false => exact absurd ⟨c, next, rest, rfl, hb⟩ whole
  · intro word
    cases line with
    | nil => exact absurd word.symm (name_nonempty c)
    | cons next rest =>
      cases hb : blank next with
      | true => exact absurd ⟨c, next, rest, rfl, hb, word⟩ flush
      | false =>
        have starts := firstWord_begins rest hb
        rwa [word] at starts

theorem right_of_whole {line : CString} (whole : ¬ RunsOn line) (flush : ¬ Indented line) :
    Right line := by
  have same := begins_iff_firstWord whole flush
  constructor
  · intro c word
    cases taken : dispatch line with
    | none => exact absurd ((same c).mpr word) (dispatch_none_iff.mp taken c)
    | some d =>
      have other := (same d).mp (dispatch_begins taken)
      rw [name_injective (word.symm.trans other)]
  · intro unknown
    apply dispatch_none_iff.mpr
    intro c begins
    exact unknown c ((same c).mp begins)
  · rw [leaves_iff, same]

theorem not_right_of_runsOn {line : CString} (run : RunsOn line) : ¬ Right line := by
  intro right
  obtain ⟨c, next, rest, rfl, unblank⟩ := run
  have begins : c.name <+: c.name ++ next :: rest := List.prefix_append _ _
  have word := firstWord_name c (next :: rest)
  simp only [List.takeWhile_cons, unblank, Bool.not_false, if_true] at word
  -- some branch is taken, so the longer first word has to be a name as well
  by_cases named : ∃ d : Command, firstWord (c.name ++ next :: rest) = d.name
  · obtain ⟨d, hd⟩ := named
    have longer : c.name <+: d.name := by
      rw [← hd, word]
      exact List.prefix_append _ _
    have taken := right.taken d hd
    rcases longer_name longer with rfl | rfl | rfl
    · have length := congrArg List.length (hd.symm.trans word)
      simp at length
    · exact (dispatch_not_longer _).1 taken
    · exact (dispatch_not_longer _).2 taken
  · have none := right.reported fun d hd => named ⟨d, hd⟩
    exact dispatch_none_iff.mp none c begins

theorem not_right_of_indented {line : CString} (indented : Indented line) : ¬ Right line := by
  intro right
  obtain ⟨c, next, rest, rfl, isBlank, word⟩ := indented
  have taken := dispatch_begins (right.taken c word)
  obtain ⟨x, xs, hname⟩ := List.exists_cons_of_ne_nil (name_nonempty c)
  have unblank := name_unblank c x (by simp [hname])
  rw [hname, List.cons_prefix_cons] at taken
  rw [taken.1, isBlank] at unblank
  cases unblank

/-- The command typed is executed, and the loop left on `quit` alone, exactly on
lines where no command name runs on and none has blanks in front of it. -/
theorem dispatched_iff (line : CString) : Right line ↔ ¬ RunsOn line ∧ ¬ Indented line := by
  constructor
  · intro right
    constructor
    · intro run
      exact not_right_of_runsOn run right
    · intro indented
      exact not_right_of_indented indented right
  · rintro ⟨whole, flush⟩
    exact right_of_whole whole flush

/-- The line `getkeys` takes the branch of `get`, and `quitter` leaves the loop. -/
theorem getkeys_taken_for_get :
    firstWord Command.getkeys.name = Command.getkeys.name ∧
    dispatch Command.getkeys.name = some .get ∧ ¬ Right Command.getkeys.name ∧
    Leaves (text ['q', 'u', 'i', 't', 't', 'e', 'r']) ∧
    firstWord (text ['q', 'u', 'i', 't', 't', 'e', 'r']) ≠ Command.quit.name := by
  refine ⟨by decide, by decide, ?_, by decide, by decide⟩
  intro right
  exact absurd (right.taken .getkeys (by decide)) (by decide)

end Dispatch
