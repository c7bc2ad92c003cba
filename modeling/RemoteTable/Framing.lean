import RemoteTable.Network

/-!
# Framing

Both ends are taken at their best: no write fails and every read delivers the
bytes it was asked for. Then messages arrive as they were sent as long as
their length is a `short`; a longer one is written out all the same.
-/

namespace Framing

open CStrings Memory ByteBlocks MessageIO Network

variable {M : Type}

section Writing

/-- A loop that reports no failure has written everything. -/
theorem writeLoop_complete {bufsize : Int} {plan : List WriteOutcome} {buf : List Byte}
    {w : WriteDone} (h : writeLoop bufsize plan buf buf.length = .ok w) :
    w.result = -1 ∨ w.result = bufsize ∧ w.sent = buf := by
  induction plan generalizing buf w with
  | nil =>
    simp only [writeLoop] at h
    split_ifs at h with hlen
    cases h
    exact Or.inr ⟨rfl, (List.eq_nil_of_length_eq_zero (by omega)).symm⟩
  | cons outcome plan ih =>
    simp only [writeLoop] at h
    split_ifs at h with hlen
    · cases outcome with
      | interrupted => exact ih h
      | failed =>
        cases h
        exact Or.inl rfl
      | accepted k =>
        simp only [Int.toNat_natCast] at h
        split_ifs at h with hroom
        obtain ⟨rest, hrest, h⟩ := (bind_eq_ok_iff _ _ _).mp h
        cases h
        have hleft : (buf.length : Int) - (min (k + 1) buf.length : Nat) =
            ((buf.drop (min (k + 1) buf.length)).length : Nat) := by
          rw [List.length_drop]
          omega
        rw [hleft] at hrest
        rcases ih hrest with hneg | ⟨hresult, hsent⟩
        · exact Or.inl hneg
        · exact Or.inr ⟨hresult, by rw [hsent, List.take_append_drop]⟩
    · cases h
      exact Or.inr ⟨rfl, (List.eq_nil_of_length_eq_zero (by omega)).symm⟩

theorem writeAll_complete {plan : List WriteOutcome} {buf : List Byte} {len : Int} {w : WriteDone}
    (hlen : len = buf.length) (h : writeAll plan buf len = .ok w) (ok : ¬ w.result < 0) :
    w.sent = buf := by
  subst hlen
  rcases writeLoop_complete h with hneg | ⟨_, hsent⟩
  · omega
  · exact hsent

/-- One call that accepts all bytes ends the loop. -/
theorem writeAll_at_once {k : Nat} {plan : List WriteOutcome} {buf : List Byte} {len : Int}
    (hlen : len = buf.length) (pos : buf ≠ []) (fits : buf.length ≤ k + 1) :
    writeAll (.accepted k :: plan) buf len = .ok ⟨len, buf, plan⟩ := by
  subst hlen
  have hpos : 0 < buf.length := List.length_pos_iff.mpr pos
  have hmin : min (k + 1) buf.length = buf.length := by omega
  have hend : writeLoop buf.length plan [] 0 = .ok ⟨buf.length, [], plan⟩ := by
    cases plan <;> rfl
  simp only [writeAll, writeLoop, Int.toNat_natCast, hmin, List.drop_length, sub_self, hend,
    ok_bind, pure_eq_ok, List.take_length, List.append_nil, le_refl, if_true]
  rw [if_pos (by omega)]

end Writing

section Sending

variable {codec : Codec M} {plan : List WriteOutcome} {msg : M} {w : WriteDone}

theorem int32_lt (x : Int) : int32 x < 2 ^ 31 := by
  have h := Int.bmod_lt (x := x) (m := 2 ^ 32) (by norm_num)
  rw [int32]
  omega

/-- A message that went out whole is its length and its packed form. -/
theorem sendMessage_sent (h : sendMessage codec plan msg = .ok w) (ok : ¬ w.result < 0) :
    (codec.pack msg).length < 2 ^ 31 ∧ w.result = 0 ∧
      w.sent = lengthBytes (codec.pack msg).length ++ codec.pack msg := by
  have hlt := int32_lt (codec.pack msg).length
  simp only [sendMessage] at h
  split_ifs at h with hneg hroom
  have hsize : int32 (codec.pack msg).length = (codec.pack msg).length := by
    apply int32_of_range <;> omega
  rw [hsize] at h
  obtain ⟨size, hsent, h⟩ := (bind_eq_ok_iff _ _ _).mp h
  split_ifs at h with hfail
  · cases h
    simp at ok
  · obtain ⟨body, hbody, h⟩ := (bind_eq_ok_iff _ _ _).mp h
    split_ifs at h with hfail'
    · cases h
      simp at ok
    · cases h
      have hfirst := writeAll_complete rfl hsent hfail
      have hsecond := writeAll_complete rfl hbody hfail'
      exact ⟨by omega, rfl, by rw [hfirst, hsecond]⟩

/-- A kernel that accepts all it is offered takes the length and the message. -/
theorem sendMessage_at_once (codec : Codec M) {msg : M} (hlen : (codec.pack msg).length < 2 ^ 31)
    (nonempty : codec.pack msg ≠ []) :
    sendMessage codec [.accepted 1, .accepted (codec.pack msg).length] msg =
      .ok ⟨0, lengthBytes (codec.pack msg).length ++ codec.pack msg, []⟩ := by
  have hsize : int32 (codec.pack msg).length = (codec.pack msg).length := by
    apply int32_of_range <;> omega
  have hfirst : writeAll [.accepted 1, .accepted (codec.pack msg).length]
      (lengthBytes (codec.pack msg).length) 2 =
        .ok ⟨2, lengthBytes (codec.pack msg).length, [.accepted (codec.pack msg).length]⟩ :=
    writeAll_at_once rfl (by simp [lengthBytes]) (by simp [lengthBytes])
  have hsecond : writeAll [.accepted (codec.pack msg).length] (codec.pack msg)
      (codec.pack msg).length = .ok ⟨(codec.pack msg).length, codec.pack msg, []⟩ :=
    writeAll_at_once rfl nonempty (by omega)
  have hnn : ¬ ((codec.pack msg).length : Int) < 0 := by omega
  simp only [sendMessage, hsize, if_neg hnn, lt_irrefl, if_false, hfirst, hsecond, ok_bind,
    pure_eq_ok, Int.reduceLT]

end Sending

section Receiving

variable {codec : Codec M} {size body : Nat → Byte} {read : Reader (List Byte)}

/-- Every read delivers exactly the bytes it was asked for. -/
def Exact (read : Reader (List Byte)) : Prop :=
  ∀ (cells : List Cell) (front back : List Byte), cells.length = front.length →
    read (front ++ back) (some cells) front.length =
      .ok ⟨front.length, some (arrived front), back⟩

theorem load_arrived (bytes : List Byte) {len : Int} (hlen : len = bytes.length) :
    load (some (arrived bytes)) len = .ok (arrived bytes) := by
  subst hlen
  simp [load, List.take_of_length_le]

theorem receiveMessage_exact (exact : Exact read) {packed : List Byte}
    (carried : packed.length ≤ 32767) (rest : List Byte) :
    receiveMessage codec size body read read (lengthBytes packed.length ++ packed ++ rest) =
      .ok ⟨codec.unpack packed, arrived (lengthBytes packed.length) ++ arrived packed, rest⟩ := by
  have hlength : cellsLength (arrived (lengthBytes packed.length)) = packed.length :=
    cellsLength_of_le (by omega) (by omega)
  have hsize : malloc size 2 = some (stale size 2) := malloc_eq size 2
  have hfirst := exact (stale size 2) (lengthBytes packed.length) (packed ++ rest) (by simp [lengthBytes])
  have htwo : ((lengthBytes packed.length).length : Int) = 2 := rfl
  have hsecond := exact (stale body packed.length) packed rest (stale_length _ _)
  have hnn : ¬ (packed.length : Int) < 0 := by omega
  rw [htwo, ← List.append_assoc] at hfirst
  rw [receiveMessage, hsize, hfirst]
  simp only [ok_bind, Int.reduceLT, if_false]
  rw [load_arrived _ htwo.symm]
  simp only [ok_bind, receiveBody, hlength, malloc_eq, hsecond, if_neg hnn]
  rw [load_arrived _ rfl]
  simp [arrived, Function.comp_def]

end Receiving

section Sequences

variable {σ : Type}

/-- One message after another on one connection, up to the first failure. -/
def sendEach (send : List WriteOutcome → M → Except Fault WriteDone) :
    List WriteOutcome → List M → Except Fault WriteDone
  | plan, [] => .ok ⟨0, [], plan⟩
  | plan, msg :: msgs => do
    let first ← send plan msg
    if first.result < 0 then pure first
    else do
      let later ← sendEach send first.plan msgs
      pure { later with sent := first.sent ++ later.sent }

/-- A number of receiving calls on one connection. -/
def receiveEach (receive : σ → Except Fault (Received M σ)) :
    Nat → σ → Except Fault (List (Option M) × σ)
  | 0, socket => .ok ([], socket)
  | calls + 1, socket => do
    let first ← receive socket
    let later ← receiveEach receive calls first.rest
    pure (first.message :: later.1, later.2)

/-- Messages sent one after another are received as they were sent, with
nothing left over; one that no `short` can announce is refused unwritten. -/
structure RoundTrips (codec : Codec M) (send : List WriteOutcome → M → Except Fault WriteDone)
    (receive : List Byte → Except Fault (Received M (List Byte))) (msgs : List M) : Prop where
  arrive : ∀ plan w, sendEach send plan msgs = .ok w → ¬ w.result < 0 →
    receiveEach receive msgs.length w.sent = .ok (msgs.map some, [])
  refused : ∀ msg ∈ msgs, 32767 < (codec.pack msg).length →
    ∀ plan, ∃ w, send plan msg = .ok w ∧ w.result < 0 ∧ w.sent = []

variable {codec : Codec M} {size body : Nat → Byte} {read : Reader (List Byte)}

theorem sendEach_arrives (exact : Exact read)
    (inverse : ∀ msg, codec.unpack (codec.pack msg) = some msg) {msgs : List M}
    (carried : ∀ msg ∈ msgs, (codec.pack msg).length ≤ 32767) {plan : List WriteOutcome}
    {w : WriteDone} (h : sendEach (sendMessage codec) plan msgs = .ok w) (ok : ¬ w.result < 0) :
    receiveEach (receiveMessage codec size body read read) msgs.length w.sent =
      .ok (msgs.map some, []) := by
  induction msgs generalizing plan w with
  | nil =>
    cases h
    rfl
  | cons msg msgs ih =>
    rw [List.forall_mem_cons] at carried
    obtain ⟨first, hfirst, h⟩ := (bind_eq_ok_iff _ _ _).mp h
    split_ifs at h with hfail
    · cases h
      exact absurd hfail ok
    · obtain ⟨later, hlater, h⟩ := (bind_eq_ok_iff _ _ _).mp h
      cases h
      obtain ⟨_, _, hsent⟩ := sendMessage_sent hfirst hfail
      have hrest := ih carried.2 hlater ok
      simp only [List.length_cons, receiveEach, hsent, receiveMessage_exact exact carried.1,
        ok_bind, hrest, pure_eq_ok, inverse, List.map_cons]

/-- No message is refused for its length. -/
theorem sendMessage_not_refused {msg : M} (long : 32767 < (codec.pack msg).length) :
    ¬ ∀ plan, ∃ w, sendMessage codec plan msg = .ok w ∧ w.result < 0 ∧ w.sent = [] := by
  intro refused
  have nonempty : codec.pack msg ≠ [] := by
    intro hnil
    simp [hnil] at long
  obtain ⟨w, hw, hneg, _⟩ := refused [.accepted 1, .accepted (codec.pack msg).length]
  by_cases hlen : (codec.pack msg).length < 2 ^ 31
  · rw [sendMessage_at_once codec hlen nonempty] at hw
    cases hw
    simp at hneg
  · have hlt := int32_lt (codec.pack msg).length
    have hroom : int32 (codec.pack msg).length < (codec.pack msg).length := by omega
    simp only [sendMessage, if_pos hroom] at hw
    split_ifs at hw

theorem roundTrips_iff (exact : Exact read)
    (inverse : ∀ msg, codec.unpack (codec.pack msg) = some msg) (msgs : List M) :
    RoundTrips codec (sendMessage codec) (receiveMessage codec size body read read) msgs ↔
      ∀ msg ∈ msgs, (codec.pack msg).length ≤ 32767 := by
  constructor
  · intro h msg hmsg
    by_contra long
    exact sendMessage_not_refused (by omega) (h.refused msg hmsg (by omega))
  · intro carried
    refine ⟨fun plan w h ok => sendEach_arrives exact inverse carried h ok, ?_⟩
    intro msg hmsg long
    have := carried msg hmsg
    omega

/-- From the client to the server and back, sequences of messages arrive as
they were sent exactly when each of their lengths is a `short`. -/
theorem framing_round_trips_iff (size body : Nat → Byte) (exact : Exact read)
    (inverse : ∀ msg, codec.unpack (codec.pack msg) = some msg) (msgs : List M) :
    (RoundTrips codec (sendRequest codec) (networkReceive codec size body read read) msgs ↔
      ∀ msg ∈ msgs, (codec.pack msg).length ≤ 32767) ∧
    (RoundTrips codec (networkSend codec) (receiveReply codec size body read read) msgs ↔
      ∀ msg ∈ msgs, (codec.pack msg).length ≤ 32767) :=
  ⟨roundTrips_iff exact inverse msgs, roundTrips_iff exact inverse msgs⟩

end Sequences

/-- Messages that are their own packed form. -/
def rawCodec : Codec (List Byte) := ⟨id, some⟩

def exactRead : Reader (List Byte) := fun stream _ n =>
  if n < 0 then .ok ⟨-1, none, stream⟩
  else .ok ⟨(stream.take n.toNat).length, some (arrived (stream.take n.toNat)),
    stream.drop n.toNat⟩

theorem exactRead_exact : Exact exactRead := by
  intro cells front back _
  simp [exactRead]

/-- A length of 40000 is written as two bytes and read as a negative number. -/
theorem long_message_lost :
    (∃ w, networkSend rawCodec [.accepted 1, .accepted 40000] (List.replicate 40000 (lowByte 7)) =
        .ok w ∧ w.result = 0 ∧ w.sent.length = 40002 ∧
      ∃ r, networkReceive rawCodec (fun _ => lowByte 0) (fun _ => lowByte 0) exactRead exactRead
        w.sent = .ok r ∧ r.message = none) ∧
    ¬ RoundTrips rawCodec (networkSend rawCodec)
      (receiveReply rawCodec (fun _ => lowByte 0) (fun _ => lowByte 0) exactRead exactRead)
      [List.replicate 40000 (lowByte 7)] := by
  generalize hmsg : List.replicate 40000 (lowByte 7) = msg
  have hlen : (rawCodec.pack msg).length = 40000 := by
    rw [← hmsg]
    exact List.length_replicate
  constructor
  · have nonempty : rawCodec.pack msg ≠ [] := List.ne_nil_of_length_pos (by omega)
    have hsent := sendMessage_at_once rawCodec (by omega) nonempty
    rw [hlen] at hsent
    refine ⟨_, hsent, rfl, ?_, ?_⟩
    · rw [List.length_append, hlen]
      rfl
    · have hfirst : exactRead (lengthBytes (40000 : Nat) ++ rawCodec.pack msg)
          (malloc (fun _ => lowByte 0) 2) 2 =
            .ok ⟨2, some (arrived (lengthBytes (40000 : Nat))), rawCodec.pack msg⟩ := rfl
      have hfield : load (some (arrived (lengthBytes (40000 : Nat)))) 2 =
          .ok (arrived (lengthBytes (40000 : Nat))) := load_arrived _ rfl
      have hlength : cellsLength (arrived (lengthBytes (40000 : Nat))) = -25536 := by
        rw [cellsLength_lengthBytes]
        rfl
      refine ⟨⟨none, arrived (lengthBytes (40000 : Nat)), rawCodec.pack msg⟩, ?_, rfl⟩
      simp only [networkReceive, receiveMessage, hfirst, ok_bind, Int.reduceLT, if_false, hfield,
        receiveBody, hlength]
      rfl
  · intro h
    exact sendMessage_not_refused (by omega) (h.refused msg List.mem_cons_self (by omega))

theorem framing_round_trips_sample :
    RoundTrips rawCodec (sendRequest rawCodec)
      (networkReceive rawCodec (fun _ => lowByte 0) (fun _ => lowByte 0) exactRead exactRead)
      [[lowByte 7, lowByte 8], [], [lowByte 9]] :=
  (framing_round_trips_iff _ _ exactRead_exact (fun _ => rfl) _).1.mpr (by decide)

end Framing
