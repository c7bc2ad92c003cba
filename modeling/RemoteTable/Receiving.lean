import RemoteTable.Framing
import RemoteTable.ReadLoop

/-!
# The two calls of a receiving function

What a call of `read_all` takes is known from the calls that fill its request,
so the length and the body can be followed on every stream. The two bytes of
the length are what arrived first, then what memory held.
-/

namespace Receiving

open CStrings Memory ByteBlocks MessageIO ReadLoop Network Framing

variable {M : Type} {codec : Codec M} {size body : Nat → Byte} {sizeFlag bodyFlag : Bool}
  {field : List Cell}

/-- The two bytes of the length after the bytes `got` have been received. -/
def sizeCells (junk : Nat → Byte) : List Byte → List Cell
  | [] => [⟨junk 0, false⟩, ⟨junk 1, false⟩]
  | [low] => [⟨low, true⟩, ⟨junk 1, false⟩]
  | low :: high :: _ => [⟨low, true⟩, ⟨high, true⟩]

theorem load_size (junk : Nat → Byte) {got : List Byte} {room : Nat} (hroom : 2 ≤ room)
    (hgot : got.length ≤ room) :
    load (some (held junk (arrived got) room)) 2 = .ok (sizeCells junk got) := by
  have hlen : (held junk (arrived got) room).length = room :=
    held_length (by rwa [arrived_length])
  obtain ⟨r, rfl⟩ : ∃ r, room = r + 2 := ⟨room - 2, by omega⟩
  have hstale : stale junk (r + 2) = ⟨junk 0, false⟩ :: ⟨junk 1, false⟩ ::
      (stale (fun i => junk (i + 2)) r) := by
    simp [stale, List.range_succ_eq_map, Function.comp_def]
  have hfits : (0 : Int) ≤ 2 ∧ (2 : Int) ≤ (held junk (arrived got) (r + 2)).length := by omega
  rw [load, if_pos hfits]
  rcases got with _ | ⟨low, _ | ⟨high, rest⟩⟩
  · simp [held, arrived, hstale, sizeCells]
  · simp [held, arrived, hstale, sizeCells]
  · simp [held, arrived, sizeCells]

/-- The bytes of the length are among those used, whatever follows. -/
theorem receiveBody_used {socket : Socket} {r : Received M Socket}
    (h : receiveBody codec body (readAll body bodyFlag) field socket = .ok r) :
    ∃ bytes, r.used = field ++ bytes := by
  obtain ⟨second, _, h⟩ := (bind_eq_ok_iff _ _ _).mp h
  split_ifs at h with hfail
  · cases h
    exact ⟨[], (List.append_nil _).symm⟩
  · obtain ⟨bytes, _, h⟩ := (bind_eq_ok_iff _ _ _).mp h
    cases h
    exact ⟨bytes, rfl⟩

theorem receiveBody_append {incoming : Incoming} {plan : List ReadOutcome}
    (more : List ReadOutcome) {r : Received M Socket}
    (h : receiveBody codec body (readAll body bodyFlag) field ⟨incoming, plan⟩ = .ok r) :
    receiveBody codec body (readAll body bodyFlag) field ⟨incoming, plan ++ more⟩ =
      .ok { r with rest := { r.rest with plan := r.rest.plan ++ more } } := by
  obtain ⟨second, hsecond, h⟩ := (bind_eq_ok_iff _ _ _).mp h
  simp only [receiveBody, readAll] at hsecond ⊢
  rw [readLoop_append more hsecond, ok_bind]
  split_ifs at h ⊢ with hfail
  · cases h
    rfl
  · obtain ⟨bytes, hbytes, h⟩ := (bind_eq_ok_iff _ _ _).mp h
    cases h
    rw [hbytes]
    rfl

/-- More outcomes change nothing once the message has been received. -/
theorem receiveMessage_append {incoming : Incoming} {plan : List ReadOutcome}
    (more : List ReadOutcome) {r : Received M Socket}
    (h : receiveMessage codec size body (readAll size sizeFlag) (readAll body bodyFlag)
      ⟨incoming, plan⟩ = .ok r) :
    receiveMessage codec size body (readAll size sizeFlag) (readAll body bodyFlag)
      ⟨incoming, plan ++ more⟩ =
        .ok { r with rest := { r.rest with plan := r.rest.plan ++ more } } := by
  obtain ⟨first, hfirst, h⟩ := (bind_eq_ok_iff _ _ _).mp h
  simp only [receiveMessage, readAll] at hfirst ⊢
  rw [readLoop_append more hfirst, ok_bind]
  split_ifs at h ⊢ with hfail
  · cases h
    rfl
  · obtain ⟨cells, hcells, h⟩ := (bind_eq_ok_iff _ _ _).mp h
    rw [hcells, ok_bind]
    exact receiveBody_append more h

section FirstCall

variable {incoming : Incoming} {gaps chunks : Nat → Nat} {h : Nat}

/-- After the calls for the length, the body is read from where they stopped. -/
theorem receiveMessage_call (m : Nat) (skip : ¬ GivesUp sizeFlag gaps)
    (fits : (h + 1) * 2 < 2 ^ 31) (stops : StopsAt 2 chunks incoming.bytes.length h) :
    receiveMessage codec size body (readAll size sizeFlag) (readAll body bodyFlag)
        ⟨incoming, schedule gaps chunks (m + (h + 1))⟩ =
      let left : Socket :=
        ⟨{ incoming with bytes := incoming.bytes.drop (taken 2 chunks incoming.bytes.length h) },
          schedule (fun i => gaps (i + (h + 1))) (fun i => chunks (i + (h + 1))) m⟩
      if incoming.broken ∧ incoming.bytes.length = h * 2 then .ok ⟨none, [], left⟩
      else receiveBody codec body (readAll body bodyFlag)
        (sizeCells size (incoming.bytes.take (taken 2 chunks incoming.bytes.length h))) left := by
  have hcall : readAll size sizeFlag ⟨incoming, schedule gaps chunks (m + (h + 1))⟩
      (malloc size (2 : Nat)) (2 : Nat) = _ := readAll_call (by omega) m skip fits stops
  have hgot : (incoming.bytes.take (taken 2 chunks incoming.bytes.length h)).length ≤
      (h + 1) * 2 := by
    have htaken := stops.taken_le
    rw [List.length_take]
    omega
  have hload := load_size size (by omega) hgot
  rw [Nat.cast_two] at hcall
  rw [receiveMessage, hcall, ok_bind]
  by_cases ended : incoming.broken ∧ incoming.bytes.length = h * 2
  · simp [ended]
  · have hnn : ¬ ((taken 2 chunks incoming.bytes.length h : Nat) : Int) < 0 := by omega
    simp only [if_neg ended, if_neg hnn, hload, ok_bind]

end FirstCall

end Receiving
