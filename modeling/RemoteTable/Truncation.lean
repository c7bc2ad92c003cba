import RemoteTable.Receiving

/-!
# Frames that stop before their end

The peer sends a proper prefix of a frame and then closes the connection, or it
fails. `network_receive` looks only for negative counts, so it takes what
memory held for what is missing.
-/

namespace Truncation

open CStrings Memory ByteBlocks MessageIO ReadLoop Network Framing Receiving

variable {M : Type} {codec : Codec M} {size body : Nat → Byte} {sizeFlag bodyFlag : Bool}
  {field : List Cell}

/-- What one message looks like on the wire. -/
def frame (packed : List Byte) : List Byte := lengthBytes packed.length ++ packed

/-- No message, and nothing used that did not come from the peer. -/
def Rejected (r : Received M Socket) : Prop :=
  r.message = none ∧ ∀ c ∈ r.used, c.received = true

variable {chunks : Nat → Nat}

theorem sizeCells_received {junk : Nat → Byte} {got : List Byte}
    (h : ∀ c ∈ sizeCells junk got, c.received = true) : 2 ≤ got.length := by
  match got with
  | [] => simp [sizeCells] at h
  | [low] => simp [sizeCells] at h
  | low :: high :: rest => simp

/-- Both bytes of the length of a frame. -/
theorem sizeCells_frame (junk : Nat → Byte) (packed : List Byte) {n : Nat} (hn : 2 ≤ n) :
    sizeCells junk ((frame packed).take n) = arrived (lengthBytes packed.length) := by
  obtain ⟨r, rfl⟩ : ∃ r, n = r + 2 := ⟨n - 2, by omega⟩
  simp [frame, lengthBytes, sizeCells, arrived]

/-- Fewer bytes than the length says: the call returns them as if they were all. -/
theorem receiveBody_short {bytes : List Byte} {broken : Bool} {len : Nat}
    (hlen : cellsLength field = len) (fits : len < 2 ^ 31) (short : bytes.length < len)
    (m : Nat) : ∃ r, receiveBody codec body (readAll body bodyFlag) field
        ⟨⟨bytes, broken⟩, schedule (fun _ => 0) chunks (m + 1)⟩ = .ok r ∧
      if broken = true ∧ bytes.length = 0 then r.message = none ∧ r.used = field
      else ∃ c ∈ r.used, c.received = false := by
  have skip : ¬ GivesUp bodyFlag fun _ => 0 := fun gives => absurd gives.2 (lt_irrefl 0)
  have stops : StopsAt len chunks bytes.length 0 := ⟨by simp, Or.inr (by omega)⟩
  have hcall : readAll body bodyFlag ⟨⟨bytes, broken⟩, schedule (fun _ => 0) chunks (m + (0 + 1))⟩
      (malloc body len) len = _ := readAll_call (by omega) m skip (by omega) stops
  simp only [zero_add, one_mul, zero_mul] at hcall
  generalize hgot : bytes.take (taken len chunks bytes.length 0) = got at hcall
  have hlt : got.length < len := by
    rw [← hgot, List.length_take]
    omega
  simp only [receiveBody, hlen, hcall, ok_bind]
  by_cases ended : broken = true ∧ bytes.length = 0
  · simp [ended]
  · have hnn : ¬ ((taken len chunks bytes.length 0 : Nat) : Int) < 0 := by omega
    have hheld : (held body (arrived got) len).length = len :=
      held_length (by rw [arrived_length]; omega)
    have hload : load (some (held body (arrived got) len)) len = .ok (held body (arrived got) len) := by
      rw [load, if_pos (by omega), Int.toNat_natCast, List.take_of_length_le hheld.le]
    simp only [if_neg ended, if_neg hnn, hload, ok_bind, pure_eq_ok]
    refine ⟨_, rfl, ?_⟩
    have hstale : 0 < ((stale body len).drop (arrived got).length).length := by
      rw [List.length_drop, stale_length, arrived_length]
      omega
    obtain ⟨c, hc⟩ := List.exists_mem_of_length_pos hstale
    refine ⟨c, ?_, stale_unreceived (List.mem_of_mem_drop hc)⟩
    exact List.mem_append_right _ (List.mem_append_right _ hc)

/-- The calls for the length take a whole stream exactly when each finds two
bytes until at most one is left. -/
theorem taken_all_iff {len h : Nat} (stops : StopsAt 2 chunks len h) :
    taken 2 chunks len h = len ↔ ∀ i < len / 2, chunks i ≠ 0 := by
  obtain ⟨hfill, hlast⟩ := stops
  rw [taken]
  constructor
  · intro hall i hi
    by_cases hih : i < h
    · have := (hfill i hih).1
      omega
    · omega
  · intro hall
    by_cases hh : h < len / 2
    · have := hall h hh
      omega
    · omega

variable {packed : List Byte} {cut : Nat} {broken : Bool}

theorem receiveMessage_rejects_iff (valid : packed.length ≤ 32767)
    (hcut : cut < (frame packed).length) :
    (∃ m r, receiveMessage codec size body (readAll size sizeFlag) (readAll body bodyFlag)
        ⟨⟨(frame packed).take cut, broken⟩, schedule (fun _ => 0) chunks m⟩ = .ok r ∧
          Rejected r) ↔
      broken = true ∧ cut ≠ 1 ∧ ∀ i < cut / 2, chunks i ≠ 0 := by
  have hframe : (frame packed).length = packed.length + 2 := by
    simp [frame, lengthBytes]
  have hbytes : ((frame packed).take cut).length = cut := List.length_take_of_le hcut.le
  obtain ⟨h, stops⟩ := exists_stop (by omega : 0 < 2) chunks cut
  have hle := stops.le
  have skip : ¬ GivesUp sizeFlag fun _ => 0 := fun gives => absurd gives.2 (lt_irrefl 0)
  have hcall : ∀ m, receiveMessage codec size body (readAll size sizeFlag) (readAll body bodyFlag)
      ⟨⟨(frame packed).take cut, broken⟩, schedule (fun _ => 0) chunks (m + (h + 1))⟩ = _ :=
    fun m => receiveMessage_call m skip (by omega) (by rwa [hbytes])
  simp only [hbytes] at hcall
  rw [← taken_all_iff stops]
  have htaken : taken 2 chunks cut h = min cut (h * 2 + chunks h + 1) := rfl
  generalize taken 2 chunks cut h = n at hcall htaken ⊢
  have hgot : (((frame packed).take cut).take n).length = n := by
    rw [List.length_take, hbytes]
    omega
  have hleft : (((frame packed).take cut).drop n).length = cut - n := by
    rw [List.length_drop, hbytes]
  have hfield : 2 ≤ n → cellsLength (sizeCells size (((frame packed).take cut).take n)) =
      packed.length := by
    intro htwo
    rw [List.take_take, sizeCells_frame size packed (by omega)]
    exact cellsLength_of_le (by omega) (by omega)
  constructor
  · rintro ⟨m, r, hr, hnone, hreceived⟩
    obtain ⟨more, hmore⟩ := schedule_append (fun _ => 0) chunks m (1 + (h + 1))
    have hlong := receiveMessage_append more hr
    rw [← hmore, ← Nat.add_assoc, hcall] at hlong
    split_ifs at hlong with ended
    · exact ⟨ended.1, by omega, by omega⟩
    · obtain ⟨bytes, hused⟩ := receiveBody_used hlong
      simp only at hused
      rw [hused] at hreceived
      have htwo := sizeCells_received fun c hc => hreceived c (List.mem_append_left _ hc)
      rw [hgot] at htwo
      have hshort : (((frame packed).take cut).drop n).length < packed.length := by omega
      obtain ⟨r', hr', hout⟩ := receiveBody_short (hfield htwo) (by omega) hshort m
      rw [hr'] at hlong
      cases hlong
      simp only [hleft] at hout
      split_ifs at hout with hend
      · exact ⟨hend.1, by omega, by omega⟩
      · obtain ⟨c, hc, hstale⟩ := hout
        rw [hused] at hc
        exact absurd (hreceived c hc) (by simp [hstale])
  · rintro ⟨rfl, hne, hall⟩
    by_cases ended : cut = h * 2
    · have hr := hcall 0
      rw [if_pos ⟨rfl, ended⟩] at hr
      exact ⟨_, _, hr, rfl, by simp⟩
    · have htwo : 2 ≤ n := by omega
      have hshort : (((frame packed).take cut).drop n).length < packed.length := by omega
      obtain ⟨r, hr, hout⟩ := receiveBody_short (hfield htwo) (by omega) hshort 0
      have hr' := hcall 1
      rw [if_neg (fun h => ended h.2)] at hr'
      rw [if_pos ⟨rfl, by omega⟩] at hout
      refine ⟨_, r, hr'.trans hr, hout.1, ?_⟩
      rw [hout.2, List.take_take, sizeCells_frame size packed (by omega)]
      simp [arrived]

/-- Both receiving functions return nothing for a truncated frame, and use
nothing they did not receive, exactly when the connection failed and the calls
for the length swallowed the whole of a prefix that is not a single byte. -/
theorem truncated_frame_rejected_iff (codec : Codec M) (size body : Nat → Byte)
    (sizeFlag bodyFlag : Bool) (chunks : Nat → Nat) (broken : Bool)
    (valid : packed.length ≤ 32767) (hcut : cut < (frame packed).length) :
    ((∃ m r, networkReceive codec size body (readAll size sizeFlag) (readAll body bodyFlag)
        ⟨⟨(frame packed).take cut, broken⟩, schedule (fun _ => 0) chunks m⟩ = .ok r ∧
          Rejected r) ↔
      broken = true ∧ cut ≠ 1 ∧ ∀ i < cut / 2, chunks i ≠ 0) ∧
    ((∃ m r, receiveReply codec size body (readAll size sizeFlag) (readAll body bodyFlag)
        ⟨⟨(frame packed).take cut, broken⟩, schedule (fun _ => 0) chunks m⟩ = .ok r ∧
          Rejected r) ↔
      broken = true ∧ cut ≠ 1 ∧ ∀ i < cut / 2, chunks i ≠ 0) :=
  ⟨receiveMessage_rejects_iff valid hcut, receiveMessage_rejects_iff valid hcut⟩

/-- Three bytes of a frame of five, then the end: what is unpacked is what the
memory of the body held before. -/
theorem truncated_frame_accepted :
    (∃ r, networkReceive rawCodec (fun _ => lowByte 4) (fun _ => lowByte 5)
      (readAll (fun _ => lowByte 4) false) (readAll (fun _ => lowByte 5) false)
      ⟨⟨(frame [lowByte 7, lowByte 8, lowByte 9]).take 3, false⟩,
        schedule (fun _ => 0) (fun _ => 1) 3⟩ = .ok r ∧
          r.message = some [lowByte 5, lowByte 5, lowByte 5]) ∧
    ¬ ∃ m r, networkReceive rawCodec (fun _ => lowByte 4) (fun _ => lowByte 5)
      (readAll (fun _ => lowByte 4) false) (readAll (fun _ => lowByte 5) false)
      ⟨⟨(frame [lowByte 7, lowByte 8, lowByte 9]).take 3, false⟩,
        schedule (fun _ => 0) (fun _ => 1) m⟩ = .ok r ∧ Rejected r := by
  refine ⟨⟨⟨some [lowByte 5, lowByte 5, lowByte 5],
    arrived [lowByte 3, lowByte 0] ++ stale (fun _ => lowByte 5) 3, ⟨⟨[], false⟩, []⟩⟩,
    by decide, rfl⟩, ?_⟩
  intro rejects
  have cond := (receiveMessage_rejects_iff (by decide) (by decide)).mp rejects
  exact absurd cond.1 (by decide)

theorem truncated_frame_rejected_sample :
    ∃ m r, receiveReply rawCodec (fun _ => lowByte 4) (fun _ => lowByte 5)
      (readAll (fun _ => lowByte 4) false) (readAll (fun _ => lowByte 5) true)
      ⟨⟨(frame [lowByte 7, lowByte 8, lowByte 9]).take 4, true⟩,
        schedule (fun _ => 0) (fun _ => 1) m⟩ = .ok r ∧ Rejected r :=
  (truncated_frame_rejected_iff rawCodec _ _ _ _ _ _ (by decide) (by decide)).2.mpr
    ⟨rfl, by decide, fun _ _ => by decide⟩

end Truncation
