import RemoteTable.Receiving

/-!
# No frame is received as it was sent

A frame is all that comes until it is answered. A byte is received once, so what
the two calls of `read_all` hand on are no more bytes than the stream had. A
call for two bytes that returns has not stopped behind the second byte unless
the stream ends there: it had one byte, or it went on and took more.
-/

namespace Delivery

open CStrings Memory ByteBlocks MessageIO ReadLoop Network Framing Receiving

/-- The bytes of a block that were received. -/
def receivedIn (block : Block) : Nat := (block.getD []).countP Cell.received

section Blocks

variable {junk : Nat → Byte} {block block' : Block}

theorem receivedIn_stale (junk : Nat → Byte) (len : Nat) : (stale junk len).countP Cell.received = 0 := by
  rw [List.countP_eq_zero]
  intro c hc
  simp [stale_unreceived hc]

theorem receivedIn_realloc (junk : Nat → Byte) (block : Block) (size : Int) :
    receivedIn (realloc junk block size) ≤ receivedIn block := by
  unfold realloc
  split_ifs
  · exact Nat.zero_le _
  · have front : ((block.getD []).take size.toNat).countP Cell.received ≤ receivedIn block :=
      (List.take_sublist _ _).countP_le
    have back : ((stale junk size.toNat).drop (block.getD []).length).countP Cell.received = 0 :=
      Nat.eq_zero_of_le_zero (receivedIn_stale junk size.toNat ▸
        (List.drop_sublist _ _).countP_le)
    simpa [receivedIn, back] using front

theorem receivedIn_malloc (size : Int) : receivedIn (malloc junk size) = 0 :=
  Nat.eq_zero_of_le_zero (receivedIn_realloc junk none size)

theorem receivedIn_store {offset : Nat} {bytes : List Byte}
    (h : store block offset bytes = .ok block') :
    receivedIn block' ≤ receivedIn block + bytes.length := by
  cases block with
  | none =>
    simp only [store] at h
    split_ifs at h
    cases h
    exact Nat.le_add_right _ _
  | some cells =>
    simp only [store] at h
    split_ifs at h
    cases h
    have split : cells.countP Cell.received =
        (cells.take offset).countP Cell.received + (cells.drop offset).countP Cell.received := by
      rw [← List.countP_append, List.take_append_drop]
    have back : (cells.drop (offset + bytes.length)).countP Cell.received ≤
        (cells.drop offset).countP Cell.received := by
      rw [← List.drop_drop]
      exact (List.drop_sublist _ _).countP_le
    have middle : (arrived bytes).countP Cell.received = bytes.length := by
      simp [arrived, List.countP_map, Function.comp_def]
    simp only [receivedIn, Option.getD_some, List.countP_append, middle, split]
    omega

end Blocks

section Reads

variable {junk : Nat → Byte} {outcome : ReadOutcome} {incoming left : Incoming} {buffer : Block}

/-- A read that does not fail comes to the end or takes bytes from the front. -/
theorem sysRead_cases {count : Int} {bytes : List Byte}
    (h : sysRead outcome incoming buffer count = (.data bytes, left)) :
    (bytes = [] ∧ left = incoming ∧ (count ≠ 0 → incoming.bytes = [])) ∨
    ∃ m, 0 < m ∧ m ≤ count.toNat ∧ incoming.bytes ≠ [] ∧ bytes = incoming.bytes.take m ∧
      left.bytes = incoming.bytes.drop m := by
  by_cases negative : count < 0
  · simp [sysRead, negative] at h
  by_cases zero : count = 0
  · subst zero
    simp only [sysRead, lt_irrefl, if_false, if_true] at h
    cases h
    exact Or.inl ⟨rfl, rfl, fun other => absurd rfl other⟩
  cases outcome with
  | interrupted => simp [sysRead, negative, zero] at h
  | failed => simp [sysRead, negative, zero] at h
  | upTo k =>
    simp only [sysRead, negative, zero, if_false] at h
    by_cases ended : incoming.bytes = []
    · rw [if_pos ended] at h
      split_ifs at h with broken
      · cases h
      · cases h
        exact Or.inl ⟨rfl, rfl, fun _ => ended⟩
    · rw [if_neg ended] at h
      split_ifs at h with null
      · cases h
      · cases h
        exact Or.inr ⟨min (k + 1) count.toNat, by omega, by omega, ended, rfl, rfl⟩

theorem sysRead_length {count : Int} {bytes : List Byte}
    (h : sysRead outcome incoming buffer count = (.data bytes, left)) :
    incoming.bytes.length = bytes.length + left.bytes.length ∧ bytes.length ≤ count.toNat ∧
      (count ≠ 0 → bytes = [] → left.bytes = []) := by
  rcases sysRead_cases h with ⟨rfl, rfl, ended⟩ | ⟨m, pos, short, more, rfl, hleft⟩
  · exact ⟨by simp, by simp, fun other _ => ended other⟩
  · refine ⟨by simp [hleft]; omega, by simp; omega, ?_⟩
    intro _ nothing
    rcases List.take_eq_nil_iff.mp nothing with rfl | none
    · omega
    · exact absurd none more

/-- A byte of the stream is received in one place at most. -/
theorem readLoop_conserves {n : Int} {plan : List ReadOutcome} {st : Reading}
    {done : ReadDone Socket} (h : readLoop junk n plan st = .ok done) :
    receivedIn done.buffer + done.rest.incoming.bytes.length ≤
      receivedIn st.buffer + st.incoming.bytes.length := by
  induction plan generalizing st with
  | nil => cases h
  | cons outcome plan ih =>
    simp only [readLoop] at h
    split at h
    · split_ifs at h with full
      · exact ih h
      · cases h
        exact le_rfl
    · cases h
      exact le_rfl
    · rename_i bytes left read
      obtain ⟨buffer, stored, h⟩ := (bind_eq_ok_iff _ _ _).mp h
      have front := (sysRead_length read).1
      have kept := receivedIn_store stored
      split_ifs at h with full
      · have later := ih h
        have grown := receivedIn_realloc junk buffer (int32 (st.bufferSize + n))
        simp only at later
        omega
      · cases h
        simp only
        omega

/-- Where a loop that does not fail stops: behind some full requests and a part of one.
With no part it has come to the end, or it has given up before the first byte. -/
theorem readLoop_stops {n : Nat} (pos : 0 < n) {plan : List ReadOutcome} {st : Reading}
    {done : ReadDone Socket} (h : readLoop junk n plan st = .ok done) (good : done.count ≠ -1) :
    ∃ full part, part < n ∧
      st.incoming.bytes.length = full * n + part + done.rest.incoming.bytes.length ∧
      (part = 0 → done.rest.incoming.bytes = [] ∨ st.fullBuffer = false ∧ full = 0) := by
  induction plan generalizing st with
  | nil => cases h
  | cons outcome plan ih =>
    simp only [readLoop] at h
    split at h
    · split_ifs at h with full
      · exact ih h
      · cases h
        exact ⟨0, 0, pos, by simp, fun _ => Or.inr ⟨by simpa using full, rfl⟩⟩
    · cases h
      exact absurd rfl good
    · rename_i bytes left read
      obtain ⟨buffer, stored, h⟩ := (bind_eq_ok_iff _ _ _).mp h
      obtain ⟨front, short, ended⟩ := sysRead_length read
      split_ifs at h with filled
      · obtain ⟨full, part, less, length, stops⟩ := ih h
        refine ⟨full + 1, part, less, ?_, ?_⟩
        · simp only at length
          rw [Nat.add_mul]
          omega
        · intro whole
          have hend := stops whole
          exact Or.inl (by simpa using hend)
      · cases h
        refine ⟨0, bytes.length, ?_, ?_, ?_⟩
        · omega
        · simp only
          omega
        · intro nothing
          exact Or.inl (ended (by omega) (List.length_eq_zero_iff.mp nothing))

end Reads

section Frames

variable {M : Type} {codec : Codec M} {size body : Nat → Byte} {sizeFlag bodyFlag : Bool}

/-- The cells that are handed on were received from the stream, if they were received. -/
theorem receivedIn_load {block : Block} {len : Int} {cells : List Cell}
    (h : load block len = .ok cells) :
    cells.length = len.toNat ∧ cells.countP Cell.received ≤ receivedIn block := by
  cases block with
  | none =>
    simp only [load] at h
    split_ifs at h with zero
    cases h
    simp [zero]
  | some held =>
    simp only [load] at h
    split_ifs at h with fits
    cases h
    refine ⟨by simp; omega, (List.take_sublist _ _).countP_le⟩

theorem received_arrived (bytes : List Byte) :
    (arrived bytes).countP Cell.received = bytes.length := by
  simp [arrived, List.countP_map, Function.comp_def]

/-- The two calls on a stream that is one frame do not come to that frame. -/
theorem receiveMessage_not_frame {packed : List Byte} {broken : Bool} {plan : List ReadOutcome}
    {r : Received M Socket}
    (h : receiveMessage codec size body (readAll size sizeFlag) (readAll body bodyFlag)
      ⟨⟨lengthBytes packed.length ++ packed, broken⟩, plan⟩ = .ok r) :
    r.used ≠ arrived (lengthBytes packed.length ++ packed) := by
  intro used
  obtain ⟨first, hfirst, h⟩ := (bind_eq_ok_iff _ _ _).mp h
  have total : (lengthBytes packed.length ++ packed).length = packed.length + 2 := by
    simp [lengthBytes]
  split_ifs at h with failed
  · cases h
    simp [arrived, lengthBytes] at used
  obtain ⟨field, hfield, h⟩ := (bind_eq_ok_iff _ _ _).mp h
  obtain ⟨fieldLength, fieldReceived⟩ := receivedIn_load hfield
  -- the length is the one that was sent, so the body is read for that many bytes
  obtain ⟨bytes, split⟩ := receiveBody_used h
  rw [used, arrived_append] at split
  obtain ⟨rfl, rfl⟩ := List.append_inj split (by simp [lengthBytes, fieldLength])
  obtain ⟨second, hsecond, h⟩ := (bind_eq_ok_iff _ _ _).mp h
  rw [cellsLength_lengthBytes] at hsecond h
  have nonempty : packed.length ≠ 0 := by
    intro empty
    rw [empty] at hsecond
    exact readLoop_zero _ _ _ _ hsecond
  split_ifs at h with lost
  · cases h
    have lengths := congrArg List.length used
    simp [lengthBytes] at lengths
    exact nonempty (by simp [lengths])
  obtain ⟨cells, hcells, h⟩ := (bind_eq_ok_iff _ _ _).mp h
  cases h
  obtain rfl : cells = arrived packed := by
    rw [arrived_append] at used
    exact List.append_cancel_left used
  -- all of it was received, which leaves two bytes for the length
  have bodyReceived := (receivedIn_load hcells).2
  have conserved := readLoop_conserves hfirst
  have conserved' := readLoop_conserves hsecond
  obtain ⟨full, part, less, length, ended⟩ :=
    readLoop_stops (n := 2) (by decide) hfirst (by omega)
  rw [received_arrived] at fieldReceived bodyReceived
  simp only [receivedIn_malloc, total] at conserved conserved' length
  have hfield : (lengthBytes packed.length).length = 2 := rfl
  rcases ended (by omega) with nothing | ⟨_, none⟩
  · have left : first.rest.incoming.bytes.length = 0 := by rw [nothing]; rfl
    omega
  · omega

/-- Whatever the kernel does, a message that was written whole and is all that comes does
not arrive: neither side hands on the bytes that were sent. -/
theorem message_never_arrives {plan : List WriteOutcome} {msg : M} {w : WriteDone}
    {broken : Bool} {reads : List ReadOutcome} (sent : networkSend codec plan msg = .ok w)
    (whole : ¬ w.result < 0) :
    (∀ r, networkReceive codec size body (readAll size sizeFlag) (readAll body bodyFlag)
      ⟨⟨w.sent, broken⟩, reads⟩ = .ok r → r.used ≠ arrived w.sent) ∧
    ∀ request plan' w' r, networkSendReceive codec size body (readAll size sizeFlag)
      (readAll body bodyFlag) plan' ⟨⟨w.sent, broken⟩, reads⟩ request = .ok (w', r) →
        r.used ≠ arrived w.sent := by
  obtain ⟨_, _, frame⟩ := sendMessage_sent sent whole
  rw [frame]
  refine ⟨fun r received => receiveMessage_not_frame received, ?_⟩
  intro request plan' w' r exchanged
  obtain ⟨asked, _, exchanged⟩ := (bind_eq_ok_iff _ _ _).mp exchanged
  split_ifs at exchanged with failed
  · cases exchanged
    simp [arrived, lengthBytes]
  · obtain ⟨reply, received, exchanged⟩ := (bind_eq_ok_iff _ _ _).mp exchanged
    cases exchanged
    exact receiveMessage_not_frame received

end Frames

/-- The third byte of the frame goes with the length, the body is made of what memory held. -/
theorem message_never_arrives_sample : ∃ w r,
    networkSend rawCodec [.accepted 1, .accepted 0] [lowByte 7] = .ok w ∧
    networkReceive rawCodec (fun _ => lowByte 0) (fun _ => lowByte 9)
      (readAll (fun _ => lowByte 0) false) (readAll (fun _ => lowByte 9) false)
      ⟨⟨w.sent, false⟩, [.upTo 1, .upTo 0, .upTo 0]⟩ = .ok r ∧
    r.message = some [lowByte 9] ∧ r.used ≠ arrived w.sent := by
  have sent : networkSend rawCodec [.accepted 1, .accepted 0] [lowByte 7] =
      .ok ⟨0, [lowByte 1, lowByte 0, lowByte 7], []⟩ := by decide +kernel
  have received : networkReceive rawCodec (fun _ => lowByte 0) (fun _ => lowByte 9)
      (readAll (fun _ => lowByte 0) false) (readAll (fun _ => lowByte 9) false)
      ⟨⟨[lowByte 1, lowByte 0, lowByte 7], false⟩, [.upTo 1, .upTo 0, .upTo 0]⟩ =
        .ok ⟨some [lowByte 9], [⟨lowByte 1, true⟩, ⟨lowByte 0, true⟩, ⟨lowByte 9, false⟩],
          ⟨⟨[], false⟩, []⟩⟩ := by decide +kernel
  exact ⟨_, _, sent, received, rfl, (message_never_arrives sent (by decide)).1 _ received⟩

end Delivery
