import RemoteTable.Client

/-!
# The client and the end of its input

A reader is faithful when its string is the next line of the input. The readers
cut the last byte of what `fgets` stored, whatever it is, and store nothing at
the end of the input; the loop ends on a line that begins with `quit` alone. So
a run is faithful exactly when it finds such a line, and complete lines of fewer
than 1023 bytes up to it.
-/

namespace ClientInput

open CStrings Memory CLibrary Client

/-- There was a line, and the string is all of it but its newline. -/
structure Faithful (r : Read) : Prop where
  more : r.before ≠ []
  line : newline ∉ bytes r.text
  next : r.before = bytes r.text ++ newline :: r.after ∨ r.before = bytes r.text ∧ r.after = []

/-- The loop ends without a write in front of an array, and every reader is faithful. -/
def Consumes (scratch : Nat → Scratch) (option input : List Byte) : Prop :=
  ∃ fuel reads, mainLoop fuel scratch option input = .ok reads ∧ ∀ r ∈ reads, Faithful r

/-- A line that goes into an array of 1024 bytes with its newline. -/
def Fits (line : CString) : Prop := newline ∉ bytes line ∧ line.length ≤ 1022

def lines (args : List CString) : List Byte := args.flatMap fun a => bytes a ++ [newline]

def argumentCount : Option Command → Nat
  | some .put => 2
  | some .get => 1
  | some .del => 1
  | _ => 0

/-- Complete lines that fit, with the arguments of each command behind it, up to
a line that begins with `quit`. -/
inductive Served : List Byte → Prop
  | quit {line : CString} {rest : List Byte} (fits : Fits line) (leaves : Leaves line) :
      Served (bytes line ++ newline :: rest)
  | command {line : CString} {args : List CString} {rest : List Byte} (fits : Fits line)
      (stays : ¬ Leaves line) (count : args.length = argumentCount (dispatch line))
      (held : ∀ a ∈ args, Fits a) (later : Served rest) :
      Served (bytes line ++ newline :: (lines args ++ rest))

theorem cut_last (s : CString) (c : CChar) (junk : List Byte) :
    stringAt ((bytes (s ++ [c]) ++ nul :: junk).set s.length nul) = s := by
  have cut : (bytes (s ++ [c]) ++ nul :: junk).set s.length nul =
      bytes s ++ nul :: nul :: junk := by
    rw [bytes_append, List.append_assoc, List.set_append_right _ _ (by simp)]
    simp [bytes]
  rw [cut, stringAt_string]

theorem readLine_stored {buf input stored junk rest : List Byte} {s : CString} {c : CChar}
    (got : fgets buf 1024 input = (stored ++ nul :: junk, rest))
    (held : stored = bytes (s ++ [c])) :
    ∃ out, readLine buf input = .ok (out, rest) ∧ stringAt out = s := by
  refine ⟨(bytes (s ++ [c]) ++ nul :: junk).set s.length nul, ?_, cut_last s c junk⟩
  have length := strlen_string (s ++ [c]) junk
  simp [readLine, got, held, length]

theorem read_line {line : CString} (fits : Fits line) (buf rest : List Byte) :
    ∃ out, readLine buf (bytes line ++ newline :: rest) = .ok (out, rest) ∧
      stringAt out = line := by
  have room : (bytes line).length + 1 < 1024 := by
    have short := fits.2
    rw [bytes_length]
    omega
  obtain ⟨junk, got⟩ := fgets_line fits.1 room buf rest
  have regroup : bytes line ++ newline :: nul :: junk =
      (bytes line ++ [newline]) ++ nul :: junk := by simp
  rw [regroup] at got
  exact readLine_stored got (c := ⟨newline, by decide⟩) (by simp [bytes])

theorem readLine_fgets {buf input out rest : List Byte}
    (read : readLine buf input = .ok (out, rest)) : rest = (fgets buf 1024 input).2 := by
  simp only [readLine, bind_eq_ok_iff] at read
  obtain ⟨len, _, done⟩ := read
  split_ifs at done
  cases done
  rfl

theorem line_of_faithful {buf input out rest : List Byte}
    (read : readLine buf input = .ok (out, rest))
    (good : Faithful ⟨input, stringAt out, rest⟩) :
    Fits (stringAt out) ∧ input = bytes (stringAt out) ++ newline :: rest := by
  obtain ⟨more, inside, next⟩ := good
  simp only at more inside next
  obtain ⟨piece, junk, starts, nonempty, short, got⟩ :=
    fgets_piece (show 1 < 1024 by omega) more buf
  have left := readLine_fgets read
  rw [got] at left
  obtain ⟨back, rfl⟩ := starts
  obtain rfl : rest = back := by simpa using left
  rcases next with next | ⟨whole, rfl⟩
  · have length := congrArg List.length next
    simp only [List.length_append, bytes_length, List.length_cons] at length
    exact ⟨⟨inside, by omega⟩, next⟩
  · -- the last line has no newline, so its own last byte is cut
    exfalso
    rw [List.append_nil] at whole
    generalize held : stringAt out = text at whole
    rcases List.eq_nil_or_concat text with rfl | ⟨s, c, rfl⟩
    · exact nonempty whole
    · rw [List.concat_eq_append] at whole held
      obtain ⟨out', read', cut⟩ := readLine_stored got whole
      simp only [read, Except.ok.injEq, Prod.mk.injEq] at read'
      rw [← read'.1, held] at cut
      have length := congrArg List.length cut
      simp at length

theorem line_faithful {line : CString} (fits : Fits line) (rest : List Byte) :
    Faithful ⟨bytes line ++ newline :: rest, line, rest⟩ :=
  ⟨by simp, fits.1, Or.inl rfl⟩

section Arguments

variable {readers : List LineReader}

theorem arguments_readLine (scratch : Scratch) (branch : Option Command) :
    ∀ reader ∈ arguments scratch branch, ∃ buf, reader = readLine buf := by
  have key : readKey scratch.key = readLine scratch.key := rfl
  have data : readData scratch.data = readLine scratch.data := rfl
  unfold arguments
  split <;> simp [key, data]

theorem arguments_length (scratch : Scratch) (branch : Option Command) :
    (arguments scratch branch).length = argumentCount branch := by
  cases branch with
  | none => rfl
  | some c => cases c <;> rfl

theorem arguments_read (plain : ∀ reader ∈ readers, ∃ buf, reader = readLine buf)
    {args : List CString} (count : args.length = readers.length) (held : ∀ a ∈ args, Fits a)
    (rest : List Byte) : ∃ reads,
      readInTurn readers (lines args ++ rest) = .ok (reads, rest) ∧ ∀ r ∈ reads, Faithful r := by
  induction readers generalizing args with
  | nil =>
    obtain rfl := List.eq_nil_of_length_eq_zero count
    exact ⟨[], rfl, by simp⟩
  | cons reader readers ih =>
    obtain ⟨arg, args, rfl⟩ : ∃ a as, args = a :: as := by
      apply List.exists_cons_of_ne_nil
      rintro rfl
      simp at count
    obtain ⟨buf, rfl⟩ := plain reader List.mem_cons_self
    have fits := held arg List.mem_cons_self
    obtain ⟨out, read, text⟩ := read_line fits buf (lines args ++ rest)
    obtain ⟨later, hlater, good⟩ := ih (fun r hr => plain r (List.mem_cons_of_mem _ hr))
      (by simpa using count) fun a ha => held a (List.mem_cons_of_mem _ ha)
    have split : lines (arg :: args) ++ rest = bytes arg ++ newline :: (lines args ++ rest) := by
      simp [lines]
    refine ⟨⟨bytes arg ++ newline :: (lines args ++ rest), arg, lines args ++ rest⟩ :: later,
      ?_, ?_⟩
    · rw [split]
      simp [readInTurn, read, hlater, text]
    · exact List.forall_mem_cons.mpr ⟨line_faithful fits _, good⟩

theorem arguments_of_faithful (plain : ∀ reader ∈ readers, ∃ buf, reader = readLine buf)
    {input left : List Byte} {reads : List Read}
    (read : readInTurn readers input = .ok (reads, left)) (good : ∀ r ∈ reads, Faithful r) :
    ∃ args : List CString, args.length = readers.length ∧ (∀ a ∈ args, Fits a) ∧
      input = lines args ++ left := by
  induction readers generalizing input reads with
  | nil =>
    simp only [readInTurn, Except.ok.injEq, Prod.mk.injEq] at read
    exact ⟨[], rfl, by simp, by simp [lines, read.2]⟩
  | cons reader readers ih =>
    obtain ⟨buf, rfl⟩ := plain reader List.mem_cons_self
    simp only [readInTurn, bind_eq_ok_iff, pure_eq_ok, Except.ok.injEq, Prod.mk.injEq] at read
    obtain ⟨⟨out, rest⟩, first, ⟨later, left'⟩, others, rfl, rfl⟩ := read
    obtain ⟨goodFirst, goodLater⟩ := List.forall_mem_cons.mp good
    obtain ⟨fits, here⟩ := line_of_faithful first goodFirst
    obtain ⟨args, count, held, there⟩ := ih (fun r hr => plain r (List.mem_cons_of_mem _ hr))
      others goodLater
    refine ⟨stringAt out :: args, by simp [count], List.forall_mem_cons.mpr ⟨fits, held⟩, ?_⟩
    calc
      input = bytes (stringAt out) ++ newline :: rest := here
      _ = bytes (stringAt out) ++ newline :: (lines args ++ left') := by rw [← there]
      _ = lines (stringAt out :: args) ++ left' := by simp [lines]

end Arguments

section Loop

variable (scratch : Scratch) (option : List Byte)

theorem clientStep_read {line : CString} {args : List CString} (fits : Fits line)
    (count : args.length = argumentCount (dispatch line)) (held : ∀ a ∈ args, Fits a)
    (rest : List Byte) : ∃ out reads,
      clientStep scratch option (bytes line ++ newline :: (lines args ++ rest)) =
        .ok (out, reads, rest) ∧ stringAt out = line ∧ ∀ r ∈ reads, Faithful r := by
  obtain ⟨out, read, text⟩ := read_line fits option (lines args ++ rest)
  have enough : args.length = (arguments scratch (dispatch line)).length := by
    rw [count, arguments_length]
  obtain ⟨later, hlater, good⟩ := arguments_read (arguments_readLine scratch _) enough held rest
  refine ⟨out, ⟨bytes line ++ newline :: (lines args ++ rest), line, lines args ++ rest⟩ :: later,
    ?_, text, ?_⟩
  · simp [clientStep, readOption, read, text, hlater]
  · exact List.forall_mem_cons.mpr ⟨line_faithful fits _, good⟩

variable {scratch option}

theorem clientStep_of_faithful {input out rest : List Byte} {reads : List Read}
    (step : clientStep scratch option input = .ok (out, reads, rest))
    (good : ∀ r ∈ reads, Faithful r) : Fits (stringAt out) ∧ ∃ args : List CString,
      args.length = argumentCount (dispatch (stringAt out)) ∧ (∀ a ∈ args, Fits a) ∧
      input = bytes (stringAt out) ++ newline :: (lines args ++ rest) := by
  simp only [clientStep, bind_eq_ok_iff, pure_eq_ok, Except.ok.injEq, Prod.mk.injEq] at step
  obtain ⟨⟨out', between⟩, first, ⟨later, left⟩, others, rfl, rfl, rfl⟩ := step
  obtain ⟨goodFirst, goodLater⟩ := List.forall_mem_cons.mp good
  obtain ⟨fits, here⟩ := line_of_faithful first goodFirst
  obtain ⟨args, count, held, there⟩ := arguments_of_faithful (arguments_readLine scratch _)
    others goodLater
  rw [arguments_length] at count
  exact ⟨fits, args, count, held, by rw [← there]; exact here⟩

end Loop

theorem served_of_consumes {fuel : Nat} {scratch : Nat → Scratch} {option input : List Byte}
    {reads : List Read} (loop : mainLoop fuel scratch option input = .ok reads)
    (good : ∀ r ∈ reads, Faithful r) : Served input := by
  induction fuel generalizing scratch option input reads with
  | zero => cases loop
  | succ fuel ih =>
    obtain ⟨⟨out, now, rest⟩, step, after⟩ := (bind_eq_ok_iff _ _ _).mp loop
    by_cases leaves : Leaves (stringAt out)
    · simp only [leaves, if_true, pure_eq_ok, Except.ok.injEq] at after
      subst after
      obtain ⟨fits, args, _, _, rfl⟩ := clientStep_of_faithful step good
      exact .quit fits leaves
    · simp only [leaves, if_false, bind_eq_ok_iff, pure_eq_ok, Except.ok.injEq] at after
      obtain ⟨later, hlater, rfl⟩ := after
      obtain ⟨fits, args, count, held, rfl⟩ := clientStep_of_faithful step fun r hr =>
        good r (List.mem_append_left _ hr)
      exact .command fits leaves count held (ih hlater fun r hr =>
        good r (List.mem_append_right _ hr))

theorem consumes_of_served {input : List Byte} (served : Served input)
    (scratch : Nat → Scratch) (option : List Byte) : Consumes scratch option input := by
  induction served generalizing scratch option with
  | @quit line rest fits leaves =>
    have none : ([] : List CString).length = argumentCount (dispatch line) := by
      rw [leaves_dispatch leaves]
      rfl
    obtain ⟨out, reads, step, text, good⟩ :=
      clientStep_read (scratch 0) option fits none (by simp) rest
    refine ⟨1, reads, ?_, good⟩
    rw [lines, List.flatMap_nil, List.nil_append] at step
    simp [mainLoop, step, text, leaves]
  | @command line args rest fits stays count held later ih =>
    obtain ⟨out, reads, step, text, good⟩ :=
      clientStep_read (scratch 0) option fits count held rest
    obtain ⟨fuel, more, loop, goodMore⟩ := ih (fun i => scratch (i + 1)) out
    refine ⟨fuel + 1, reads ++ more, ?_, ?_⟩
    · simp [mainLoop, step, text, stays, loop]
    · exact List.forall_mem_append.mpr ⟨good, goodMore⟩

/-- Whatever the arrays hold, the client reads its input line by line and ends
exactly when the input has a line that begins with `quit`, and up to it every
line and argument is complete and fits. -/
theorem consumes_iff (scratch : Nat → Scratch) (option input : List Byte) :
    Consumes scratch option input ↔ Served input := by
  constructor
  · rintro ⟨fuel, reads, loop, good⟩
    exact served_of_consumes loop good
  · intro served
    exact consumes_of_served served scratch option

def blankArray : List Byte := List.replicate 1024 nul

def blankScratch : Scratch := ⟨blankArray, blankArray⟩

/-- After the line `size` and the end of the input, `option` is read from what it
held before, one byte less each time, and then the index is -1. -/
theorem leftovers_read :
    (∃ out, clientStep blankScratch blankArray (lines [Command.size.name]) =
        .ok (out, [⟨lines [Command.size.name], Command.size.name, []⟩], []) ∧
      ∃ out', clientStep blankScratch out [] =
        .ok (out', [⟨[], text ['s', 'i', 'z'], []⟩], [])) ∧
    mainLoop 6 (fun _ => blankScratch) blankArray (lines [Command.size.name]) =
      .error .outOfBounds ∧
    ¬ Consumes (fun _ => blankScratch) blankArray (lines [Command.size.name]) := by
  refine ⟨⟨_, rfl, _, rfl⟩, rfl, ?_⟩
  rintro ⟨fuel, reads, loop, _⟩
  rcases fuel with _ | _ | _ | _ | _ | _ | fuel <;> cases loop

end ClientInput
