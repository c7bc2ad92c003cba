import RemoteTable.ReadLoop

/-!
# What `read_all` delivers

The loop goes on exactly when a call filled the whole request, so where it
stops depends on how the kernel splits the stream. It delivers what was asked
for only when the first call takes all there is.
-/

namespace ReadAll

open CStrings Memory ByteBlocks MessageIO ReadLoop

theorem uninterrupted (chunks : Nat → Nat) (m : Nat) :
    schedule (fun _ => 0) chunks (m + 1) =
      .upTo (chunks 0) :: schedule (fun _ => 0) (fun i => chunks (i + 1)) m := rfl

/-- What a request for `n` bytes should come to, from what the peer sent alone:
these bytes in the buffer and no others taken, or, when there are fewer, all
of them taken and fewer reported. -/
def Delivered (n : Nat) (incoming : Incoming) (done : ReadDone Socket) : Prop :=
  if n ≤ incoming.bytes.length then
    done.count = n ∧ done.rest.incoming.bytes = incoming.bytes.drop n ∧
      ∃ cells, done.buffer = some cells ∧ cells.take n = arrived (incoming.bytes.take n)
  else done.count < n ∧ done.rest.incoming.bytes = []

/-- The first call takes all the peer sent. If that fills the request, the next
call finds an orderly end and the counters have room for it. -/
def TakenAtOnce (n : Nat) (incoming : Incoming) (first : Nat) : Prop :=
  0 < n ∧ incoming.bytes.length ≤ min (first + 1) n ∧
    (incoming.bytes.length = n → incoming.broken = false ∧ n + n < 2 ^ 31)

section Delivery

variable {junk : Nat → Byte} {flag : Bool} {n : Nat} {cells : List Cell} {incoming : Incoming}
  {chunks : Nat → Nat}

theorem delivers_taken_at_once (hcells : cells.length = n)
    (h : TakenAtOnce n incoming (chunks 0)) :
    ∃ done, readAll junk flag ⟨incoming, schedule (fun _ => 0) chunks 2⟩ (some cells) n =
      .ok done ∧ Delivered n incoming done := by
  obtain ⟨pos, hshort, hfit⟩ := h
  have inside : ∀ c, some cells = some c → 0 ≤ c.length := fun _ _ => Nat.zero_le _
  rw [readAll, uninterrupted]
  by_cases ended : incoming.bytes = []
  · have hlen : ¬ n ≤ incoming.bytes.length := by
      rw [ended, List.length_nil]
      omega
    have hcount : (if incoming.broken then (-1 : Int) else (0 : Nat)) < n := by
      split_ifs <;> omega
    rw [readLoop_end pos ended inside]
    exact ⟨_, rfl, by rw [Delivered, if_neg hlen]; exact ⟨hcount, ended⟩⟩
  have room : 0 + n ≤ cells.length := by omega
  have hall : incoming.bytes.take (min (chunks 0 + 1) n) = incoming.bytes :=
    List.take_of_length_le hshort
  have hnone : incoming.bytes.drop (min (chunks 0 + 1) n) = [] := List.drop_of_length_le hshort
  rw [readLoop_data pos ended room]
  simp only [hall, hnone, List.take_zero, List.nil_append, Nat.zero_add]
  by_cases hfull : incoming.bytes.length = n
  · obtain ⟨closed, hsmall⟩ := hfit hfull
    have hwritten : arrived incoming.bytes ++ cells.drop n = arrived incoming.bytes := by
      rw [List.drop_of_length_le (by omega), List.append_nil]
    have hsize : int32 ((n : Int) + n) = ((n + n : Nat) : Int) := by
      push_cast
      exact int32_of_range (by omega) (by omega)
    have hgrow : realloc junk (some (arrived incoming.bytes)) ((n + n : Nat) : Int) =
        some (held junk (arrived incoming.bytes) (n + n)) :=
      realloc_grow junk (by rw [arrived_length]; omega)
    have hroom : (held junk (arrived incoming.bytes) (n + n)).length = n + n :=
      held_length (by rw [arrived_length]; omega)
    have inside' : ∀ c, some (held junk (arrived incoming.bytes) (n + n)) = some c →
        n ≤ c.length := by
      intro c hc
      cases hc
      omega
    rw [if_pos hfull, hfull, hwritten, hsize, hgrow, uninterrupted, readLoop_end pos rfl inside']
    refine ⟨_, rfl, ?_⟩
    rw [Delivered, if_pos (by omega)]
    refine ⟨by simp [closed], ?_, ?_⟩
    · exact (List.drop_of_length_le (by omega)).symm
    · refine ⟨_, rfl, ?_⟩
      rw [held, List.take_left' (by rw [arrived_length, hfull]), List.take_of_length_le (by omega)]
  · rw [if_neg hfull]
    refine ⟨_, rfl, ?_⟩
    rw [Delivered, if_neg (by omega)]
    exact ⟨by simp only [Nat.cast_lt]; omega, rfl⟩

theorem taken_at_once_of_delivered (hn : n < 2 ^ 31) (hcells : cells.length = n) {m : Nat}
    {done : ReadDone Socket}
    (h : readAll junk flag ⟨incoming, schedule (fun _ => 0) chunks m⟩ (some cells) n = .ok done)
    (delivered : Delivered n incoming done) : TakenAtOnce n incoming (chunks 0) := by
  have pos : 0 < n := by
    rcases Nat.eq_zero_or_pos n with rfl | pos
    · exact absurd h (readLoop_zero _ _ _ _)
    · exact pos
  cases m with
  | zero => cases h
  | succ m =>
  by_cases ended : incoming.bytes = []
  · refine ⟨pos, by simp [ended], fun hlen => ?_⟩
    rw [ended, List.length_nil] at hlen
    omega
  have room : 0 + n ≤ cells.length := by omega
  have hgot : (incoming.bytes.take (min (chunks 0 + 1) n)).length =
      min (min (chunks 0 + 1) n) incoming.bytes.length := List.length_take
  rw [readAll, uninterrupted, readLoop_data pos ended room] at h
  simp only [List.take_zero, List.nil_append, Nat.zero_add] at h
  by_cases hfull : (incoming.bytes.take (min (chunks 0 + 1) n)).length = n
  · rw [if_pos hfull] at h
    rw [Delivered, if_pos (by omega)] at delivered
    obtain ⟨hcount, _, taken, hbuffer, _⟩ := delivered
    cases m with
    | zero => cases h
    | succ m =>
    rw [uninterrupted] at h
    -- the request is filled and the loop reads on: more bytes, a failure or the end
    by_cases more : incoming.bytes.drop (min (chunks 0 + 1) n) = []
    · have hlen : incoming.bytes.length = n := by
        have := List.drop_eq_nil_iff.mp more
        omega
      refine ⟨pos, by omega, fun _ => ?_⟩
      by_cases hsmall : n + n < 2 ^ 31
      · rw [int32_of_range (by omega) (by omega)] at h
        rw [readLoop_end pos more (fun c hc => by have := realloc_length hc; omega)] at h
        cases h
        refine ⟨?_, hsmall⟩
        by_contra hbroken
        rw [Bool.not_eq_false] at hbroken
        simp [hbroken] at hcount
      · have hneg : int32 ((n : Int) + n) < 0 := int32_wrapped (by omega) (by omega)
        rw [realloc_negative _ _ hneg, readLoop_end pos more (by simp)] at h
        cases h
        cases hbuffer
    · rcases readLoop_progress pos more h with hneg | hlt
      · omega
      · simp only at hlt
        omega
  · rw [if_neg hfull] at h
    cases h
    by_cases hlen : n ≤ incoming.bytes.length
    · rw [Delivered, if_pos hlen] at delivered
      exact absurd (Nat.cast_inj.mp delivered.1) hfull
    · rw [Delivered, if_neg hlen] at delivered
      have := List.drop_eq_nil_iff.mp delivered.2
      exact ⟨pos, by omega, fun hn => by omega⟩

/-- Whatever follows the first call, `read_all` comes to what the stream alone
determines exactly when that call leaves nothing behind. -/
theorem delivers_iff_taken_at_once (junk : Nat → Byte) (flag : Bool) (incoming : Incoming)
    (chunks : Nat → Nat) (hn : n < 2 ^ 31) (hcells : cells.length = n) :
    (∃ m done, readAll junk flag ⟨incoming, schedule (fun _ => 0) chunks m⟩ (some cells) n =
      .ok done ∧ Delivered n incoming done) ↔ TakenAtOnce n incoming (chunks 0) := by
  constructor
  · rintro ⟨m, done, h, delivered⟩
    exact taken_at_once_of_delivered hn hcells h delivered
  · intro h
    exact ⟨2, delivers_taken_at_once hcells h⟩

end Delivery

/-- Four bytes and a request for two, the size of a length field. -/
def fourBytes : Incoming := ⟨[lowByte 1, lowByte 2, lowByte 3, lowByte 4], false⟩

def twoCells : List Cell := stale (fun _ => lowByte 9) 2

/-- Two bytes at a time, the request for two takes all four; one at a time, it
takes one. -/
theorem request_overrun :
    (∃ done, readAll (fun _ => lowByte 9) false
      ⟨fourBytes, schedule (fun _ => 0) (fun _ => 1) 3⟩ (some twoCells) (2 : Nat) = .ok done ∧
        done.count = 4 ∧ done.rest.incoming.bytes = []) ∧
    (∃ done, readAll (fun _ => lowByte 9) false
      ⟨fourBytes, schedule (fun _ => 0) (fun _ => 0) 1⟩ (some twoCells) (2 : Nat) = .ok done ∧
        done.count = 1) ∧
    ¬ ∃ m done, readAll (fun _ => lowByte 9) false
      ⟨fourBytes, schedule (fun _ => 0) (fun _ => 1) m⟩ (some twoCells) (2 : Nat) = .ok done ∧
        Delivered 2 fourBytes done := by
  refine ⟨⟨_, rfl, rfl, rfl⟩, ⟨_, rfl, rfl⟩, ?_⟩
  rintro ⟨m, done, h, delivered⟩
  have at_once := taken_at_once_of_delivered (by decide) rfl h delivered
  exact absurd at_once.2.1 (by decide)

theorem delivers_iff_taken_at_once_sample :
    ∃ m done, readAll (fun _ => lowByte 9) true
      ⟨⟨[lowByte 1, lowByte 2], false⟩, schedule (fun _ => 0) (fun _ => 1) m⟩
      (some twoCells) (2 : Nat) = .ok done ∧
        Delivered 2 ⟨[lowByte 1, lowByte 2], false⟩ done :=
  (delivers_iff_taken_at_once _ _ _ _ (by decide) rfl).mpr ⟨by decide, by decide, fun _ => by decide⟩

end ReadAll
