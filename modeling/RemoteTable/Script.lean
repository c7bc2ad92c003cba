import RemoteTable.ClientInput

/-!
# Scripts of commands for `table_client`

A script is written down as the loop reads it: the name of a command on a line,
its arguments on the lines behind it, and `quit` at the end. Read back, it makes
the calls that were written, unless an argument does not fit its array or the
command is one of the two that are taken for `get`.
-/

namespace Script

open CStrings Memory CLibrary Client ClientInput

/-- A call of a stub, as the branches make them. -/
inductive StubCall where
  | put (key data : CString)
  | get (key : CString)
  | del (key : CString)
  | size
  | getkeys
  | gettable
  deriving DecidableEq

namespace StubCall

def command : StubCall → Command
  | put .. => .put
  | get _ => .get
  | del _ => .del
  | size => .size
  | getkeys => .getkeys
  | gettable => .gettable

def arguments : StubCall → List CString
  | put key data => [key, data]
  | get key => [key]
  | del key => [key]
  | _ => []

def written (c : StubCall) : List CString := c.command.name :: c.arguments

end StubCall

def script (calls : List StubCall) : List Byte :=
  lines (calls.flatMap StubCall.written ++ [Command.quit.name])

/-- The call of the branch with the strings it has read. -/
def stubCall : Option Command → List CString → List StubCall
  | some .put, [key, data] => [.put key data]
  | some .get, [key] => [.get key]
  | some .del, [key] => [.del key]
  | some .size, [] => [.size]
  | some .getkeys, [] => [.getkeys]
  | some .gettable, [] => [.gettable]
  | _, _ => []

def iterationCalls (option : List Byte) (reads : List Read) : List StubCall :=
  stubCall (dispatch (stringAt option)) (reads.tail.map Read.text)

/-- `mainLoop` with the calls it makes, and the input it leaves. -/
def session : Nat → (Nat → Scratch) → List Byte → List Byte →
    Except Fault (List StubCall × List Byte)
  | 0, _, _, _ => .error .endless
  | fuel + 1, scratch, option, input => do
    let (option, reads, rest) ← clientStep (scratch 0) option input
    let calls := iterationCalls option reads
    if Leaves (stringAt option) then pure (calls, rest)
    else do
      let (later, left) ← session fuel (fun i => scratch (i + 1)) option rest
      pure (calls ++ later, left)

section Lines

theorem name_fits (c : Command) : Fits c.name := by
  cases c <;> exact ⟨by decide, by decide⟩

theorem stringAt_cut (buf : List Byte) (n : Nat) :
    (stringAt (buf.set n nul)).length ≤ n := by
  induction buf generalizing n with
  | nil => exact Nat.zero_le _
  | cons b buf ih =>
    cases n with
    | zero => exact Nat.zero_le _
    | succ n =>
      have step : stringAt (b :: buf.set n nul) =
          if h : b = 0 then [] else ⟨b, h⟩ :: stringAt (buf.set n nul) := rfl
      rw [List.set_cons_succ, step]
      split_ifs
      · exact Nat.zero_le _
      · exact Nat.succ_le_succ (ih n)

theorem strlen_piece {piece junk : List Byte} {n : Nat}
    (h : strlen (piece ++ nul :: junk) = .ok n) : n ≤ piece.length := by
  induction piece generalizing n with
  | nil =>
    cases h
    exact le_rfl
  | cons b piece ih =>
    have step : strlen (b :: (piece ++ nul :: junk)) =
        if b = 0 then .ok 0
        else strlen (piece ++ nul :: junk) >>= fun m => pure (m + 1) := rfl
    rw [List.cons_append, step] at h
    split_ifs at h
    · cases h
      exact Nat.zero_le _
    · obtain ⟨m, hm, h⟩ := (bind_eq_ok_iff _ _ _).mp h
      cases h
      exact Nat.succ_le_succ (ih hm)

theorem linePiece_break (m : Nat) {line : List Byte} (inside : newline ∈ line) (rest : List Byte) :
    (linePiece m (line ++ rest)).length ≤ line.length := by
  induction line generalizing m with
  | nil => simp at inside
  | cons b line ih =>
    cases m with
    | zero => exact Nat.zero_le _
    | succ m =>
      rw [List.cons_append, linePiece]
      split_ifs with ends
      · simp
      · have later : newline ∈ line := (List.mem_cons.mp inside).resolve_left (Ne.symm ends)
        exact Nat.succ_le_succ (ih m later)

variable {buf input out left : List Byte}

/-- A reader loses the last byte of what was stored. -/
theorem readLine_shorter (more : input ≠ []) (read : readLine buf input = .ok (out, left)) :
    (stringAt out).length < (linePiece 1023 input).length := by
  obtain ⟨b, piece, hpiece⟩ : ∃ b piece, linePiece 1023 input = b :: piece := by
    obtain ⟨b, rest, rfl⟩ := List.exists_cons_of_ne_nil more
    by_cases ends : b = newline
    · exact ⟨b, [], by rw [linePiece, if_pos ends]⟩
    · exact ⟨b, _, by rw [linePiece, if_neg ends]⟩
  simp only [readLine, fgets, hpiece] at read
  obtain ⟨len, hlen, read⟩ := (bind_eq_ok_iff _ _ _).mp read
  have bound := strlen_piece hlen
  split_ifs at read with empty
  cases read
  have cut := stringAt_cut (b :: piece ++ nul :: buf.drop (piece.length + 2)) (len - 1)
  rw [hpiece]
  omega

/-- Only what fits is read back as it was written. -/
theorem fits_of_read {line : CString} {rest : List Byte}
    (read : readLine buf (bytes line ++ newline :: rest) = .ok (out, left))
    (same : stringAt out = line) : Fits line := by
  have shorter := readLine_shorter (by simp) read
  rw [same] at shorter
  constructor
  · intro inside
    have bound := linePiece_break 1023 inside (newline :: rest)
    rw [bytes_length] at bound
    omega
  · have bound := linePiece_length 1023 (bytes line ++ newline :: rest)
    omega

end Lines

section Arguments

variable {readers : List LineReader}

theorem lines_cons (arg : CString) (args : List CString) (rest : List Byte) :
    lines (arg :: args) ++ rest = bytes arg ++ newline :: (lines args ++ rest) := by
  simp [lines]

theorem arguments_texts (plain : ∀ reader ∈ readers, ∃ buf, reader = readLine buf)
    {args : List CString} (count : args.length = readers.length) (held : ∀ a ∈ args, Fits a)
    (rest : List Byte) : ∃ later, readInTurn readers (lines args ++ rest) = .ok (later, rest) ∧
      later.map Read.text = args := by
  induction readers generalizing args with
  | nil =>
    obtain rfl := List.length_eq_zero_iff.mp count
    exact ⟨[], rfl, rfl⟩
  | cons reader readers ih =>
    obtain ⟨buf, rfl⟩ := plain reader List.mem_cons_self
    obtain ⟨arg, args, rfl⟩ := List.exists_cons_of_length_pos (l := args) (by simp [count])
    obtain ⟨fits, held⟩ := List.forall_mem_cons.mp held
    obtain ⟨out, read, text⟩ := read_line fits buf (lines args ++ rest)
    obtain ⟨later, hlater, texts⟩ := ih (fun r hr => plain r (List.mem_cons_of_mem _ hr))
      (by simpa using count) held
    rw [lines_cons]
    refine ⟨⟨bytes arg ++ newline :: (lines args ++ rest), arg, lines args ++ rest⟩ :: later,
      ?_, ?_⟩
    · simp [readInTurn, read, hlater, text]
    · simp [texts]

theorem arguments_fit (plain : ∀ reader ∈ readers, ∃ buf, reader = readLine buf)
    {args : List CString} {rest left : List Byte} {later : List Read}
    (read : readInTurn readers (lines args ++ rest) = .ok (later, left))
    (texts : later.map Read.text = args) : ∀ a ∈ args, Fits a := by
  induction readers generalizing args later with
  | nil =>
    cases read
    cases texts
    simp
  | cons reader readers ih =>
    obtain ⟨buf, rfl⟩ := plain reader List.mem_cons_self
    simp only [readInTurn, bind_eq_ok_iff, pure_eq_ok, Except.ok.injEq, Prod.mk.injEq] at read
    obtain ⟨⟨out, between⟩, first, ⟨more, left'⟩, others, rfl, rfl⟩ := read
    obtain rfl : stringAt out :: more.map Read.text = args := texts
    rw [lines_cons] at first
    have fits := fits_of_read first rfl
    obtain ⟨out', again, _⟩ := read_line fits buf (lines (more.map Read.text) ++ rest)
    obtain rfl : lines (more.map Read.text) ++ rest = between := by
      rw [first] at again
      cases again
      rfl
    exact List.forall_mem_cons.mpr ⟨fits, ih (fun r hr => plain r (List.mem_cons_of_mem _ hr))
      others rfl⟩

theorem readInTurn_length {input left : List Byte} {later : List Read}
    (read : readInTurn readers input = .ok (later, left)) : later.length = readers.length := by
  induction readers generalizing input later with
  | nil =>
    cases read
    rfl
  | cons reader readers ih =>
    simp only [readInTurn, bind_eq_ok_iff, pure_eq_ok, Except.ok.injEq, Prod.mk.injEq] at read
    obtain ⟨_, _, ⟨more, left'⟩, others, rfl, rfl⟩ := read
    simp [ih others]

end Arguments

/-- The branch that the line with a command's name takes. -/
def taken : Command → Command
  | .getkeys => .get
  | .gettable => .get
  | c => c

theorem dispatch_name (c : Command) : dispatch c.name = some (taken c) := by
  cases c <;> decide

theorem leaves_name (c : Command) : Leaves c.name ↔ c = .quit := by
  cases c <;> decide

def StubCall.branch (c : StubCall) : Command := taken c.command

theorem dispatch_written (c : StubCall) : dispatch c.command.name = some c.branch :=
  dispatch_name c.command

/-- A call whose line takes its own branch. -/
def StubCall.Plain (c : StubCall) : Prop := c.branch = c.command

theorem plain_iff (c : StubCall) : c.Plain ↔ c ≠ .getkeys ∧ c ≠ .gettable := by
  cases c <;> simp [StubCall.Plain, StubCall.branch, StubCall.command, taken]

theorem name_stays (c : StubCall) : ¬ Leaves c.command.name := by
  rw [leaves_name]
  cases c <;> exact Command.noConfusion

theorem argumentCount_written {c : StubCall} (plain : c.Plain) :
    c.arguments.length = argumentCount (some c.branch) := by
  cases c <;> first | rfl | cases plain

/-- The branch of `c` makes one call, with its own command and the strings read. -/
theorem stubCall_branch (c : StubCall) {texts : List CString}
    (count : texts.length = argumentCount (some c.branch)) :
    ∃ made, stubCall (some c.branch) texts = [made] ∧ made.command = c.branch ∧
      made.arguments = texts := by
  have two : argumentCount (some c.branch) = 2 → ∃ key data, texts = [key, data] := by
    intro h
    rw [h] at count
    exact List.length_eq_two.mp count
  have one : argumentCount (some c.branch) = 1 → ∃ key, texts = [key] := by
    intro h
    rw [h] at count
    exact List.length_eq_one_iff.mp count
  cases c with
  | put key data =>
    obtain ⟨key, data, rfl⟩ := two rfl
    exact ⟨.put key data, rfl, rfl, rfl⟩
  | get key =>
    obtain ⟨key, rfl⟩ := one rfl
    exact ⟨.get key, rfl, rfl, rfl⟩
  | del key =>
    obtain ⟨key, rfl⟩ := one rfl
    exact ⟨.del key, rfl, rfl, rfl⟩
  | size =>
    obtain rfl := List.length_eq_zero_iff.mp count
    exact ⟨.size, rfl, rfl, rfl⟩
  | getkeys =>
    obtain ⟨key, rfl⟩ := one rfl
    exact ⟨.get key, rfl, rfl, rfl⟩
  | gettable =>
    obtain ⟨key, rfl⟩ := one rfl
    exact ⟨.get key, rfl, rfl, rfl⟩

theorem call_eq {made c : StubCall} (command : made.command = c.command)
    (arguments : made.arguments = c.arguments) : made = c := by
  cases made <;> cases c <;>
    simp_all [StubCall.command, StubCall.arguments]

section Iterations

variable {scratch : Scratch} {option : List Byte}

/-- A call that is plain and fits is made as it was written. -/
theorem iteration_makes {c : StubCall} (plain : c.Plain) (held : ∀ a ∈ c.arguments, Fits a)
    (scratch : Scratch) (option rest : List Byte) : ∃ out reads,
      clientStep scratch option (lines c.written ++ rest) = .ok (out, reads, rest) ∧
      stringAt out = c.command.name ∧ iterationCalls out reads = [c] := by
  obtain ⟨out, read, text⟩ := read_line (name_fits c.command) option (lines c.arguments ++ rest)
  have count : c.arguments.length = (arguments scratch (some c.branch)).length := by
    rw [arguments_length, argumentCount_written plain]
  obtain ⟨later, hlater, texts⟩ := arguments_texts (arguments_readLine scratch _) count held rest
  refine ⟨out, ⟨bytes c.command.name ++ newline :: (lines c.arguments ++ rest), c.command.name,
    lines c.arguments ++ rest⟩ :: later, ?_, text, ?_⟩
  · rw [StubCall.written, lines_cons]
    simp [clientStep, readOption, read, text, dispatch_written, hlater]
  · obtain ⟨made, hmade, command, same⟩ := stubCall_branch c (argumentCount_written plain)
    rw [iterationCalls, text, dispatch_written, List.tail_cons, texts, hmade]
    rw [call_eq (command.trans plain) same]

/-- The iteration at a written call makes one call; if it is the one written, it was
plain and its arguments fit. -/
theorem iteration_made {c : StubCall} {rest out left : List Byte} {reads : List Read}
    (step : clientStep scratch option (lines c.written ++ rest) = .ok (out, reads, left)) :
    stringAt out = c.command.name ∧ ∃ made, iterationCalls out reads = [made] ∧
      (made = c → c.Plain ∧ ∀ a ∈ c.arguments, Fits a) := by
  obtain ⟨out', read, text⟩ := read_line (name_fits c.command) option (lines c.arguments ++ rest)
  simp only [clientStep, readOption, StubCall.written, lines_cons, read, ok_bind, text,
    dispatch_written] at step
  obtain ⟨⟨later, left'⟩, others, step⟩ := (bind_eq_ok_iff _ _ _).mp step
  cases step
  refine ⟨text, ?_⟩
  have count : (later.map Read.text).length = argumentCount (some c.branch) := by
    rw [List.length_map, readInTurn_length others, arguments_length]
  obtain ⟨made, hmade, command, same⟩ := stubCall_branch c count
  refine ⟨made, by rw [iterationCalls, text, dispatch_written, List.tail_cons, hmade], ?_⟩
  rintro rfl
  exact ⟨command.symm, arguments_fit (arguments_readLine scratch _) others same.symm⟩

end Iterations

theorem script_cons (c : StubCall) (calls : List StubCall) (rest : List Byte) :
    script (c :: calls) ++ rest = lines c.written ++ (script calls ++ rest) := by
  simp [script, lines]

theorem session_quits (scratch : Nat → Scratch) (option rest : List Byte) (fuel : Nat) :
    session (fuel + 1) scratch option (script [] ++ rest) = .ok ([], rest) := by
  obtain ⟨out, read, text⟩ := read_line (name_fits .quit) option rest
  have start : script [] ++ rest = bytes Command.quit.name ++ newline :: rest := by
    simp [script, lines]
  have branch : dispatch Command.quit.name = some .quit := dispatch_name .quit
  have leaves : Leaves Command.quit.name := (leaves_name .quit).mpr rfl
  have calls : iterationCalls out [⟨bytes Command.quit.name ++ newline :: rest,
      Command.quit.name, rest⟩] = [] := by
    rw [iterationCalls, text, branch]
    rfl
  rw [start]
  simp [session, clientStep, readOption, read, text, branch, arguments, readInTurn, calls, leaves]

/-- A script read back makes the calls it was written for, and leaves what comes behind it,
exactly if every argument fits and no command is `getkeys` or `gettable`. -/
theorem script_executed_iff (scratch : Nat → Scratch) (option : List Byte)
    (calls : List StubCall) (rest : List Byte) :
    (∃ fuel, session fuel scratch option (script calls ++ rest) = .ok (calls, rest)) ↔
      ∀ c ∈ calls, (c ≠ .getkeys ∧ c ≠ .gettable) ∧ ∀ a ∈ c.arguments, Fits a := by
  simp only [← plain_iff]
  induction calls generalizing scratch option with
  | nil => exact ⟨fun _ => by simp, fun _ => ⟨1, session_quits scratch option rest 0⟩⟩
  | cons c calls ih =>
    rw [script_cons, List.forall_mem_cons]
    constructor
    · rintro ⟨_ | fuel, h⟩
      · cases h
      obtain ⟨⟨out, reads, left⟩, step, h⟩ := (bind_eq_ok_iff _ _ _).mp h
      obtain ⟨text, made, hmade, own⟩ := iteration_made step
      have stays : ¬ Leaves (stringAt out) := by
        rw [text]
        exact name_stays c
      simp only [stays, if_false] at h
      obtain ⟨⟨later, left'⟩, hlater, h⟩ := (bind_eq_ok_iff _ _ _).mp h
      simp only [hmade, pure_eq_ok, Except.ok.injEq, Prod.mk.injEq, List.cons_append,
        List.nil_append, List.cons.injEq] at h
      obtain ⟨⟨rfl, rfl⟩, rfl⟩ := h
      obtain ⟨plain, held⟩ := own rfl
      -- what is left over is the rest of the script
      obtain ⟨out', reads', again, _, _⟩ :=
        iteration_makes plain held (scratch 0) option (script later ++ left')
      rw [again] at step
      cases step
      exact ⟨⟨plain, held⟩, (ih _ _).mp ⟨fuel, hlater⟩⟩
    · rintro ⟨⟨plain, held⟩, others⟩
      obtain ⟨out, reads, step, text, hmade⟩ :=
        iteration_makes plain held (scratch 0) option (script calls ++ rest)
      obtain ⟨fuel, hlater⟩ := (ih (fun i => scratch (i + 1)) out).mpr others
      have stays : ¬ Leaves (stringAt out) := by
        rw [text]
        exact name_stays c
      exact ⟨fuel + 1, by simp [session, step, stays, hmade, hlater]⟩

end Script
