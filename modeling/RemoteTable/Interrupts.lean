import RemoteTable.ReadLoop

/-!
# Interrupted system calls

Both loops make an interrupted call again, so the outcomes that matter are the
others. In `write_all` this holds from the start. In `read_all` the retry goes
through the loop's condition, whose flag has no value before the first call
that is not interrupted.
-/

namespace Interrupts

open CStrings Memory ByteBlocks MessageIO ReadLoop

universe u

/-- `x` is put in at any number of places. -/
inductive Inserted {α : Type u} (x : α) : List α → List α → Prop
  | none : Inserted x [] []
  | keep {p q} (a : α) (rest : Inserted x p q) : Inserted x (a :: p) (a :: q)
  | insert {p q} (rest : Inserted x p q) : Inserted x p (x :: q)

section Inserting

variable {α : Type u} [DecidableEq α] {x : α} {p q : List α}

/-- What is not `x` stays as it is. -/
theorem Inserted.filter_eq (h : Inserted x p q) :
    q.filter (fun a => a ≠ x) = p.filter fun a => a ≠ x := by
  induction h with
  | none => rfl
  | keep a rest ih => rw [List.filter_cons, List.filter_cons, ih]
  | insert rest ih => simpa using ih

end Inserting

/-- What the caller and the peer see of a write. -/
def seenWrite (out : Except Fault WriteDone) : Except Fault (Int × List Byte) :=
  out.map fun w => (w.result, w.sent)

def seenRead (out : Except Fault (ReadDone Socket)) : Except Fault (Int × Block × Incoming) :=
  out.map fun d => (d.count, d.buffer, d.rest.incoming)

/-- What a chunk adds to what is seen of the calls after it. -/
theorem seenWrite_chunk (front : List Byte) (out : Except Fault WriteDone) :
    seenWrite (do
      let rest ← out
      pure { rest with sent := front ++ rest.sent }) =
      (seenWrite out).map fun p => (p.1, front ++ p.2) := by
  cases out <;> rfl

/-- `write_all` skips interrupted calls. -/
theorem writeLoop_filter (bufsize : Int) (plan : List WriteOutcome) (buf : List Byte) (len : Int) :
    seenWrite (writeLoop bufsize (plan.filter fun o => o ≠ .interrupted) buf len) =
      seenWrite (writeLoop bufsize plan buf len) := by
  induction plan generalizing buf len with
  | nil => rfl
  | cons outcome plan ih =>
    by_cases pos : len > 0
    · cases outcome with
      | interrupted => simpa [writeLoop, pos] using ih buf len
      | failed => simp [writeLoop, pos, seenWrite, Except.map]
      | accepted k =>
        have hkeep : (WriteOutcome.accepted k :: plan).filter (fun o => o ≠ .interrupted) =
            .accepted k :: plan.filter fun o => o ≠ .interrupted := by simp
        rw [hkeep]
        simp only [writeLoop, if_pos pos]
        split_ifs with room
        · rw [seenWrite_chunk, seenWrite_chunk, ih]
        · rfl
    · have done : ∀ plan, seenWrite (writeLoop bufsize plan buf len) = .ok (bufsize, []) := by
        intro plan
        cases plan <;> simp [writeLoop, pos, seenWrite, Except.map]
      rw [done, done]

theorem writeAll_inserted {p q : List WriteOutcome} (inserted : Inserted .interrupted p q)
    (buf : List Byte) (len : Int) :
    seenWrite (writeAll q buf len) = seenWrite (writeAll p buf len) := by
  rw [writeAll, writeAll, ← writeLoop_filter len q, inserted.filter_eq, writeLoop_filter]

section Reads

variable {junk : Nat → Byte} {n : Int} {plan : List ReadOutcome} {st : Reading}

/-- Once the flag is set, `read_all` skips interrupted calls too. -/
theorem readLoop_filter (pos : 0 < n) (full : st.fullBuffer = true) :
    seenRead (readLoop junk n (plan.filter fun o => o ≠ .interrupted) st) =
      seenRead (readLoop junk n plan st) := by
  induction plan generalizing st with
  | nil => rfl
  | cons outcome plan ih =>
    by_cases hout : outcome = .interrupted
    · have hneg : ¬ n < 0 := by omega
      have hne : ¬ n = 0 := by omega
      subst hout
      simpa [readLoop, sysRead, hneg, hne, full] using ih full
    · have hkeep : (outcome :: plan).filter (fun o => o ≠ .interrupted) =
          outcome :: plan.filter fun o => o ≠ .interrupted := by simp [hout]
      rw [hkeep]
      simp only [readLoop]
      generalize sysRead outcome st.incoming st.buffer n = result
      obtain ⟨result, incoming⟩ := result
      cases result with
      | interrupted => simpa only [if_pos full] using ih full
      | failed => rfl
      | data bytes =>
        simp only
        cases store st.buffer st.totalBytesRead bytes with
        | error fault => rfl
        | ok buffer =>
          simp only [ok_bind]
          split_ifs with hfull
          · exact ih rfl
          · rfl

theorem sysRead_answers {outcome : ReadOutcome} (hout : outcome ≠ .interrupted)
    (incoming : Incoming) (buffer : Block) (n : Int) :
    (sysRead outcome incoming buffer n).1 ≠ .interrupted := by
  cases outcome with
  | interrupted => exact absurd rfl hout
  | failed =>
    simp only [sysRead]
    split_ifs <;> simp
  | upTo k =>
    simp only [sysRead]
    split_ifs <;> simp

/-- A call that is not interrupted sets the flag. -/
theorem readLoop_flag {outcome : ReadOutcome} (hout : outcome ≠ .interrupted) (full : Bool) :
    readLoop junk n (outcome :: plan) { st with fullBuffer := full } =
      readLoop junk n (outcome :: plan) st := by
  have answers := sysRead_answers hout st.incoming st.buffer n
  simp only [readLoop]
  generalize sysRead outcome st.incoming st.buffer n = result at answers
  obtain ⟨result, incoming⟩ := result
  cases result with
  | interrupted => exact absurd rfl answers
  | failed => rfl
  | data bytes => rfl

end Reads

/-- The first call is interrupted and the flag happens to be zero. -/
def Abandons (flag : Bool) (plan : List ReadOutcome) : Prop :=
  flag = false ∧ plan.head? = some .interrupted

section Starts

variable {junk : Nat → Byte} {n : Int} {plan : List ReadOutcome} {flag : Bool}
  {incoming : Incoming} {buffer : Block}

theorem abandoned (pos : 0 < n) (abandons : Abandons flag plan) :
    seenRead (readAll junk flag ⟨incoming, plan⟩ buffer n) = .ok (0, buffer, incoming) := by
  obtain ⟨rfl, hhead⟩ := abandons
  obtain ⟨rest, rfl⟩ := List.head?_eq_some_iff.mp hhead
  have hneg : ¬ n < 0 := by omega
  have hne : ¬ n = 0 := by omega
  simp [readAll, readLoop, sysRead, hneg, hne, seenRead, Except.map]

/-- What `read_all` comes to when no call is interrupted. -/
def undisturbed (junk : Nat → Byte) (incoming : Incoming) (buffer : Block) (n : Int)
    (plan : List ReadOutcome) : Except Fault (Int × Block × Incoming) :=
  seenRead (readLoop junk n (plan.filter fun o => o ≠ .interrupted)
    ⟨incoming, buffer, true, 0, n⟩)

theorem persisted (pos : 0 < n) (persists : ¬ Abandons flag plan) :
    seenRead (readAll junk flag ⟨incoming, plan⟩ buffer n) =
      undisturbed junk incoming buffer n plan := by
  rw [undisturbed, readLoop_filter pos rfl, readAll]
  cases flag with
  | true => rfl
  | false =>
    cases plan with
    | nil => rfl
    | cons outcome rest =>
      have hout : outcome ≠ .interrupted := by
        rintro rfl
        exact persists ⟨rfl, rfl⟩
      rw [← readLoop_flag hout true]

/-- Nothing is read in an undisturbed call if the stream had ended in order. -/
theorem undisturbed_nothing_iff (junk : Nat → Byte) (buffer : Block) (pos : 0 < n) :
    undisturbed junk incoming buffer n plan = .ok (0, buffer, incoming) ↔
      incoming.bytes = [] ∧ incoming.broken = false ∧
        ∃ k, (plan.filter fun o => o ≠ .interrupted).head? = some (.upTo k) := by
  obtain ⟨m, rfl⟩ := Int.eq_ofNat_of_zero_le (le_of_lt pos)
  have pos' : 0 < m := by omega
  have hne : m ≠ 0 := by omega
  have kept : ∀ o ∈ plan.filter (fun o => o ≠ .interrupted), o ≠ .interrupted := by
    intro o ho
    simpa using (List.mem_filter.mp ho).2
  unfold undisturbed
  generalize plan.filter (fun o => o ≠ .interrupted) = calls at kept
  cases calls with
  | nil => simp [readLoop, seenRead, Except.map]
  | cons outcome rest =>
    cases outcome with
    | interrupted => exact absurd rfl (kept _ List.mem_cons_self)
    | failed => simp [readLoop, sysRead, hne, seenRead, Except.map]
    | upTo k =>
      by_cases ended : incoming.bytes = []
      · rw [readLoop_end pos' ended fun _ _ => Nat.zero_le _]
        cases incoming.broken <;> simp [seenRead, Except.map, ended]
      · simp only [ended, false_and, iff_false]
        intro h
        cases hcall : readLoop junk m (.upTo k :: rest) ⟨incoming, buffer, true, 0, m⟩ with
        | error fault => simp [hcall, seenRead, Except.map] at h
        | ok done =>
          have progress := readLoop_progress pos' ended hcall
          simp only [hcall, seenRead, Except.map, Except.ok.injEq, Prod.mk.injEq] at h
          simp only [h.1] at progress
          omega

end Starts

section Pairs

variable {junk : Nat → Byte} {n : Int} {p q : List ReadOutcome} {flag flag' : Bool}
  {incoming : Incoming} {buffer : Block}

theorem undisturbed_inserted (inserted : Inserted .interrupted p q) :
    undisturbed junk incoming buffer n q = undisturbed junk incoming buffer n p := by
  rw [undisturbed, undisturbed, inserted.filter_eq]

theorem reads_agree_iff (pos : 0 < n) (inserted : Inserted .interrupted p q) :
    seenRead (readAll junk flag' ⟨incoming, q⟩ buffer n) =
        seenRead (readAll junk flag ⟨incoming, p⟩ buffer n) ↔
      (Abandons flag' q ↔ Abandons flag p) ∨
        incoming.bytes = [] ∧ incoming.broken = false ∧
          ∃ k, (p.filter fun o => o ≠ .interrupted).head? = some (.upTo k) := by
  rw [← undisturbed_nothing_iff junk buffer pos]
  by_cases hq : Abandons flag' q
  · by_cases hp : Abandons flag p
    · simp [abandoned pos hq, abandoned pos hp, hq, hp]
    · rw [abandoned pos hq, persisted pos hp]
      simp [hq, hp, eq_comm]
  · by_cases hp : Abandons flag p
    · rw [abandoned pos hp, persisted pos hq, undisturbed_inserted inserted]
      simp [hq, hp]
    · rw [persisted pos hp, persisted pos hq, undisturbed_inserted inserted]
      simp [hq, hp]

theorem Inserted.cons_of_cons {α : Type u} {x a : α} {p q : List α}
    (inserted : Inserted x (a :: p) q) : ∃ b rest, q = b :: rest := by
  cases inserted with
  | keep _ rest => exact ⟨_, _, rfl⟩
  | insert rest => exact ⟨_, _, rfl⟩

/-- A size that is negative is refused without looking at the outcome. -/
theorem reads_agree_negative (neg : n < 0) (inserted : Inserted .interrupted p q)
    {done : ReadDone Socket} (returns : readAll junk flag ⟨incoming, p⟩ buffer n = .ok done) :
    seenRead (readAll junk flag' ⟨incoming, q⟩ buffer n) =
      seenRead (readAll junk flag ⟨incoming, p⟩ buffer n) := by
  cases p with
  | nil => cases returns
  | cons outcome rest =>
    obtain ⟨outcome', rest', rfl⟩ := inserted.cons_of_cons
    rw [readAll_negative neg, readAll_negative neg]
    rfl

end Pairs

/-- Interrupted calls do not show in what `write_all` returns and sends. They
do not show in what `read_all` returns, leaves in the buffer and takes from the
stream exactly if both runs or neither give up at a first call that is
interrupted with the flag at zero, or if there was nothing to read. -/
theorem interrupts_invisible_iff (junk : Nat → Byte) {flag flag' : Bool} {incoming : Incoming}
    {buffer : Block} {n : Int} {p q : List ReadOutcome} {done : ReadDone Socket}
    (inserted : Inserted .interrupted p q)
    (returns : readAll junk flag ⟨incoming, p⟩ buffer n = .ok done) :
    (∀ (p' q' : List WriteOutcome) (buf : List Byte) (len : Int), Inserted .interrupted p' q' →
      seenWrite (writeAll q' buf len) = seenWrite (writeAll p' buf len)) ∧
    (seenRead (readAll junk flag' ⟨incoming, q⟩ buffer n) =
        seenRead (readAll junk flag ⟨incoming, p⟩ buffer n) ↔
      n < 0 ∨ (Abandons flag' q ↔ Abandons flag p) ∨
        incoming.bytes = [] ∧ incoming.broken = false ∧
          ∃ k, (p.filter fun o => o ≠ .interrupted).head? = some (.upTo k)) := by
  refine ⟨fun p' q' buf len inserted' => writeAll_inserted inserted' buf len, ?_⟩
  rcases lt_trichotomy n 0 with neg | rfl | pos
  · simp [neg, reads_agree_negative neg inserted returns]
  · exact absurd returns (readLoop_zero _ _ _ _)
  · rw [reads_agree_iff pos inserted]
    simp [not_lt.mpr (le_of_lt pos)]

/-- Two bytes in a request for four. -/
def twoBytes (plan : List ReadOutcome) : Socket := ⟨⟨[lowByte 1, lowByte 2], false⟩, plan⟩

theorem interrupts_invisible_sample :
    seenRead (readAll (fun _ => lowByte 0) true (twoBytes [.interrupted, .upTo 1])
        (malloc (fun _ => lowByte 0) 4) 4) =
      seenRead (readAll (fun _ => lowByte 0) false (twoBytes [.upTo 1])
        (malloc (fun _ => lowByte 0) 4) 4) := by
  have inserted : Inserted ReadOutcome.interrupted [.upTo 1] [.interrupted, .upTo 1] :=
    .insert (.keep _ .none)
  have agree : Abandons true [.interrupted, .upTo 1] ↔ Abandons false [.upTo 1] := by
    simp [Abandons]
  exact (interrupts_invisible_iff (fun _ => lowByte 0) inserted rfl).2.mpr (Or.inr (Or.inl agree))

/-- With the flag at zero an interrupt in front of the two bytes makes `read_all` return 0. -/
theorem interrupt_shows :
    Inserted ReadOutcome.interrupted [.upTo 1] [.interrupted, .upTo 1] ∧
      (readAll (fun _ => lowByte 0) false (twoBytes [.upTo 1])
        (malloc (fun _ => lowByte 0) 4) 4).map ReadDone.count = .ok 2 ∧
      (readAll (fun _ => lowByte 0) false (twoBytes [.interrupted, .upTo 1])
        (malloc (fun _ => lowByte 0) 4) 4).map ReadDone.count = .ok 0 :=
  ⟨.insert (.keep _ .none), rfl, rfl⟩

end Interrupts
