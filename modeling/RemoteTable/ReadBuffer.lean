import RemoteTable.ReadLoop

/-!
# The buffer of `read_all` between two calls

A call that fills the request makes the buffer grow by one request, so there
is always room for the next one behind what was received. Capacity, offset
and contents are tied by one invariant of the loop, which holds in front of
every call as long as the counter of the size does not wrap.
-/

namespace ReadBuffer

open CStrings Memory ByteBlocks MessageIO ReadLoop

/-- One `read`: the locals in front of it and the bytes it stores. -/
structure ReadCall where
  before : Reading
  got : List Byte

/-- The calls the loop makes. At the end of the plan it is about to make another. -/
def readCalls (junk : Nat → Byte) (readNBytes : Int) : List ReadOutcome → Reading → List ReadCall
  | [], st => [⟨st, []⟩]
  | outcome :: plan, st =>
    match sysRead outcome st.incoming st.buffer readNBytes with
    | (.interrupted, _) =>
      ⟨st, []⟩ :: if st.fullBuffer then readCalls junk readNBytes plan st else []
    | (.failed, _) => [⟨st, []⟩]
    | (.data bytes, incoming) => ⟨st, bytes⟩ ::
      match store st.buffer st.totalBytesRead bytes with
      | .error _ => []
      | .ok buffer =>
        if (bytes.length : Int) = readNBytes then
          let bufferSize := int32 (st.bufferSize + readNBytes)
          readCalls junk readNBytes plan ⟨incoming, realloc junk buffer bufferSize, true,
            st.totalBytesRead + bytes.length, bufferSize⟩
        else []

/-- The chunks of all calls, in order. -/
def receivedBytes (calls : List ReadCall) : List Byte := calls.flatMap ReadCall.got

/-- In front of a call: what came so far is at the front of the buffer, and
behind it there is room for `n` bytes and no more. -/
structure Roomy (n : Nat) (sofar : List Byte) (st : Reading) : Prop where
  total : st.totalBytesRead = sofar.length
  size : st.bufferSize = (sofar.length + n : Nat)
  block : ∃ cells, st.buffer = some cells ∧ cells.length = sofar.length + n ∧
    cells.take sofar.length = arrived sofar

section Loop

variable {junk : Nat → Byte} {n : Nat} {sofar : List Byte} {st : Reading}

theorem sysRead_short {outcome : ReadOutcome} {incoming incoming' : Incoming} {buffer : Block}
    {bytes : List Byte} (h : sysRead outcome incoming buffer n = (.data bytes, incoming')) :
    bytes.length ≤ n := by
  have hdata : bytes = [] ∨ ∃ k, bytes = incoming.bytes.take (min (k + 1) n) := by
    cases outcome with
    | interrupted =>
      simp only [sysRead] at h
      split_ifs at h <;> cases h
      exact Or.inl rfl
    | failed =>
      simp only [sysRead] at h
      split_ifs at h <;> cases h
      exact Or.inl rfl
    | upTo k =>
      simp only [sysRead] at h
      split_ifs at h <;> cases h
      · exact Or.inl rfl
      · exact Or.inl rfl
      · exact Or.inr ⟨k, rfl⟩
  rcases hdata with rfl | ⟨k, rfl⟩
  · exact Nat.zero_le n
  · rw [List.length_take]
    omega

/-- The chunk of a call fits, and its bytes come behind those received before. -/
theorem Roomy.store (roomy : Roomy n sofar st) {bytes : List Byte} (short : bytes.length ≤ n) :
    ∃ cells, ByteBlocks.store st.buffer st.totalBytesRead bytes = .ok (some cells) ∧
      cells.length = sofar.length + n ∧
      cells.take (sofar ++ bytes).length = arrived (sofar ++ bytes) := by
  obtain ⟨old, hbuffer, hlen, hfront⟩ := roomy.block
  have room : sofar.length + bytes.length ≤ old.length := by omega
  rw [hbuffer, roomy.total, store_inside room, hfront]
  refine ⟨_, rfl, ?_, ?_⟩
  · simp only [List.length_append, arrived_length, List.length_drop]
    omega
  · rw [arrived_append]
    exact List.take_left' (by simp)

/-- A chunk that fills the request leaves room for another request. -/
theorem Roomy.grow {cells : List Cell} {bytes : List Byte} {incoming : Incoming}
    (hlen : cells.length = sofar.length + n) (full : bytes.length = n)
    (hfront : cells.take (sofar ++ bytes).length = arrived (sofar ++ bytes))
    (small : sofar.length + n + n < 2 ^ 31) :
    Roomy n (sofar ++ bytes) ⟨incoming,
      realloc junk (some cells) (int32 (((sofar.length + n : Nat) : Int) + n)), true,
      sofar.length + bytes.length, int32 (((sofar.length + n : Nat) : Int) + n)⟩ := by
  have hsize : int32 (((sofar.length + n : Nat) : Int) + n) =
      ((sofar.length + n + n : Nat) : Int) := by
    push_cast
    exact int32_of_range (by omega) (by omega)
  have hall : (sofar ++ bytes).length = cells.length := by
    rw [List.length_append, full, hlen]
  refine ⟨List.length_append.symm, ?_, ?_⟩
  · rw [hsize, hall, hlen]
  · refine ⟨held junk cells (sofar.length + n + n), ?_, ?_, ?_⟩
    · simp only [hsize]
      exact realloc_grow junk (by omega)
    · rw [held_length (by omega), hall, hlen]
    · rw [← hfront, hall, held, List.take_left', List.take_of_length_le le_rfl]
      rfl

/-- The state the loop is in is the one in front of its next call. -/
theorem readCalls_first {plan : List ReadOutcome} (st : Reading) :
    ∃ got, ⟨st, got⟩ ∈ readCalls junk n plan st := by
  cases plan with
  | nil => exact ⟨[], by simp [readCalls]⟩
  | cons outcome plan =>
    simp only [readCalls]
    cases sysRead outcome st.incoming st.buffer n with
    | mk result incoming =>
      cases result with
      | interrupted => exact ⟨[], List.mem_cons_self⟩
      | failed => exact ⟨[], List.mem_cons_self⟩
      | data bytes => exact ⟨bytes, List.mem_cons_self⟩

/-- The run of the loop from a roomy state: every call has room, and what is
returned counts what is at the front of the buffer. -/
theorem readLoop_roomy {plan : List ReadOutcome} (roomy : Roomy n sofar st)
    (small : ∀ c ∈ readCalls junk n plan st, c.before.totalBytesRead + n < 2 ^ 31) :
    (∀ c ∈ readCalls junk n plan st, ∃ sofar', Roomy n sofar' c.before) ∧
      (∀ fault, readLoop junk n plan st = .error fault → fault = .endless) ∧
      ∀ done, readLoop junk n plan st = .ok done → 0 ≤ done.count →
        done.count = ((sofar ++ receivedBytes (readCalls junk n plan st)).length : Nat) ∧
        ∃ cells, done.buffer = some cells ∧
          cells.take (sofar ++ receivedBytes (readCalls junk n plan st)).length =
            arrived (sofar ++ receivedBytes (readCalls junk n plan st)) := by
  induction plan generalizing sofar st with
  | nil =>
    refine ⟨?_, by simp [readLoop], by simp [readLoop]⟩
    simpa [readCalls] using ⟨sofar, roomy⟩
  | cons outcome plan ih =>
    obtain ⟨cells, hbuffer, hlen, hfront⟩ := roomy.block
    simp only [readCalls, readLoop] at small ⊢
    cases hread : sysRead outcome st.incoming st.buffer n with
    | mk result incoming =>
      rw [hread] at small
      cases result with
      | interrupted =>
        simp only at small ⊢
        by_cases full : st.fullBuffer = true
        · simp only [if_pos full, List.forall_mem_cons] at small ⊢
          obtain ⟨hcalls, hfaults, hdone⟩ := ih roomy small.2
          exact ⟨⟨⟨sofar, roomy⟩, hcalls⟩, hfaults, hdone⟩
        · simp only [if_neg full]
          refine ⟨by simpa using ⟨sofar, roomy⟩, by simp, ?_⟩
          rintro done ⟨⟩ _
          refine ⟨by simp [receivedBytes, roomy.total], cells, hbuffer, ?_⟩
          simpa [receivedBytes] using hfront
      | failed =>
        refine ⟨by simpa using ⟨sofar, roomy⟩, by simp, ?_⟩
        rintro done ⟨⟩ hneg
        simp at hneg
      | data bytes =>
        obtain ⟨written, hstore, hwlen, hwfront⟩ := roomy.store (sysRead_short hread)
        simp only [hstore, ok_bind, List.forall_mem_cons] at small ⊢
        by_cases full : (bytes.length : Int) = n
        · simp only [if_pos full] at small ⊢
          have hbytes : bytes.length = n := by omega
          have fits : sofar.length + n + n < 2 ^ 31 := by
            obtain ⟨got, hfirst⟩ := readCalls_first _
            have hnext := small.2 _ hfirst
            simp only [roomy.total] at hnext
            omega
          have grown : Roomy n (sofar ++ bytes) ⟨incoming,
              realloc junk (some written) (int32 (st.bufferSize + n)), true,
              st.totalBytesRead + bytes.length, int32 (st.bufferSize + n)⟩ := by
            rw [roomy.size, roomy.total]
            exact Roomy.grow hwlen hbytes hwfront fits
          obtain ⟨hcalls, hfaults, hdone⟩ := ih grown small.2
          rw [List.append_assoc] at hdone
          exact ⟨⟨⟨sofar, roomy⟩, hcalls⟩, hfaults, hdone⟩
        · simp only [if_neg full]
          refine ⟨by simpa using ⟨sofar, roomy⟩, by simp, ?_⟩
          rintro done ⟨⟩ _
          refine ⟨by simp [receivedBytes, roomy.total], written, rfl, ?_⟩
          simpa [receivedBytes] using hwfront

end Loop

/-- The calls of `read_all` on a buffer of `n` bytes, whatever is in the flag. -/
def callsOf (junk : Nat → Byte) (flag : Bool) (socket : Socket) (cells : List Cell) (n : Nat) :
    List ReadCall :=
  readCalls junk n socket.plan ⟨socket.incoming, some cells, flag, 0, n⟩

/-- In front of every call the buffer has room for a whole request behind what
was received. Nothing is written elsewhere, and the count that is returned is
that of the chunks, which are at the front of the buffer. -/
theorem read_inside_buffer (junk : Nat → Byte) (flag : Bool) (socket : Socket) {n : Nat}
    {cells : List Cell} (hcells : cells.length = n)
    (small : ∀ c ∈ callsOf junk flag socket cells n, c.before.totalBytesRead + n < 2 ^ 31) :
    (∀ c ∈ callsOf junk flag socket cells n, ∃ capacity, c.before.buffer = some capacity ∧
      c.before.bufferSize = capacity.length ∧
      c.before.totalBytesRead + n ≤ capacity.length) ∧
    (∀ fault, readAll junk flag socket (some cells) n = .error fault → fault = .endless) ∧
    ∀ done, readAll junk flag socket (some cells) n = .ok done → 0 ≤ done.count →
      done.count = ((receivedBytes (callsOf junk flag socket cells n)).length : Nat) ∧
      ∃ kept, done.buffer = some kept ∧
        kept.take (receivedBytes (callsOf junk flag socket cells n)).length =
          arrived (receivedBytes (callsOf junk flag socket cells n)) := by
  have start : Roomy n [] ⟨socket.incoming, some cells, flag, 0, n⟩ := by
    refine ⟨rfl, by simp, cells, rfl, by simpa using hcells, rfl⟩
  obtain ⟨hcalls, hfaults, hdone⟩ := readLoop_roomy start small
  simp only [List.nil_append] at hdone
  refine ⟨?_, hfaults, hdone⟩
  intro c hc
  obtain ⟨sofar, total, size, capacity, hbuffer, hlen, _⟩ := hcalls c hc
  refine ⟨capacity, hbuffer, ?_, ?_⟩
  · rw [size, hlen]
  · rw [total, hlen]

/-- A request of two bytes is filled and one more byte follows, behind an interrupt. -/
theorem read_inside_buffer_sample : ∃ kept,
    readAll (fun _ => lowByte 0) false
        ⟨⟨[lowByte 1, lowByte 2, lowByte 3], false⟩, [.upTo 1, .interrupted, .upTo 5]⟩
        (some (stale (fun _ => lowByte 0) 2)) 2 = .ok ⟨3, some kept, ⟨⟨[], false⟩, []⟩⟩ ∧
      kept.take 3 = arrived [lowByte 1, lowByte 2, lowByte 3] := by
  have fits : ∀ c ∈ callsOf (fun _ => lowByte 0) false
      ⟨⟨[lowByte 1, lowByte 2, lowByte 3], false⟩, [.upTo 1, .interrupted, .upTo 5]⟩
      (stale (fun _ => lowByte 0) 2) 2, c.before.totalBytesRead + 2 < 2 ^ 31 := by
    decide
  obtain ⟨_, _, hdone⟩ := read_inside_buffer (fun _ => lowByte 0) false
    ⟨⟨[lowByte 1, lowByte 2, lowByte 3], false⟩, [.upTo 1, .interrupted, .upTo 5]⟩
    (stale_length _ 2) fits
  obtain ⟨kept, hcall⟩ : ∃ kept, readAll (fun _ => lowByte 0) false
      ⟨⟨[lowByte 1, lowByte 2, lowByte 3], false⟩, [.upTo 1, .interrupted, .upTo 5]⟩
      (some (stale (fun _ => lowByte 0) 2)) 2 = .ok ⟨3, some kept, ⟨⟨[], false⟩, []⟩⟩ := ⟨_, rfl⟩
  obtain ⟨_, kept', hkept, hfront⟩ := hdone _ hcall (by simp)
  cases hkept
  exact ⟨kept, hcall, hfront⟩

end ReadBuffer
