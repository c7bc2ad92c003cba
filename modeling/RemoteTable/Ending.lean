import RemoteTable.Receiving

/-!
# Whether receiving ends

The peer sends some bytes and closes the connection. The calls for the length
and for the body end one way or another unless the body's length is zero; a
call may still lose the block when the counter of its size wraps.
-/

namespace Ending

open CStrings Memory ByteBlocks MessageIO ReadLoop Network Framing Receiving

variable {M : Type} {codec : Codec M} {size body : Nat → Byte} {sizeFlag bodyFlag : Bool}
  {field : List Cell}

variable {gaps chunks : Nat → Nat} {bytes : List Byte}

/-- The calls fill the request until the stream is used up, and there the
counter of the block's size wraps: `read_all` returns a count and no block. -/
def BlockLost (n : Nat) (chunks : Nat → Nat) (len : Nat) : Prop :=
  len < 2 ^ 31 ∧ 2 ^ 31 ≤ len + n ∧ ∃ h, len = h * n ∧ ∀ i < h, n ≤ chunks i + 1

theorem blockLost_iff {n len h : Nat} (stops : StopsAt n chunks len h) :
    BlockLost n chunks len ↔ 2 ^ 31 ≤ (h + 1) * n ∧ len = h * n ∧ len < 2 ^ 31 := by
  obtain ⟨hfill, hlast⟩ := stops
  constructor
  · rintro ⟨hsmall, hwrap, h', hlen, hall⟩
    have hsame : h = h' := by
      rcases lt_trichotomy h h' with hlt | heq | hgt
      · have hnext : (h + 1) * n ≤ h' * n := Nat.mul_le_mul_right n hlt
        have hchunk := hall h hlt
        omega
      · exact heq
      · have hnext := (hfill h' hgt).2
        rw [add_mul, one_mul] at hnext
        omega
    subst hsame
    rw [add_mul, one_mul, ← hlen]
    exact ⟨hwrap, rfl, hsmall⟩
  · rintro ⟨hwrap, hlen, hsmall⟩
    rw [add_mul, one_mul, ← hlen] at hwrap
    exact ⟨hsmall, hwrap, h, hlen, fun i hi => (hfill i hi).1⟩

/-- The second call of `read_all` returns, and what it read can be unpacked. -/
def BodyEnds (msgSize : Int) (flag : Bool) (gaps chunks : Nat → Nat) (left : Nat) : Prop :=
  msgSize < 0 ∨ 0 < msgSize ∧ (GivesUp flag gaps ∨ ¬ BlockLost msgSize.toNat chunks left)

theorem load_room {cells : List Cell} {len : Nat} (room : len ≤ cells.length) :
    load (some cells) len = .ok (cells.take len) := by
  rw [load, if_pos ⟨Int.natCast_nonneg _, Int.ofNat_le.mpr room⟩, Int.toNat_natCast]

theorem schedule_cons (gaps chunks : Nat → Nat) (m : Nat) :
    ∃ outcome plan, schedule gaps chunks (m + 1) = outcome :: plan := by
  rw [schedule]
  cases gaps 0 with
  | zero => exact ⟨_, _, rfl⟩
  | succ g => exact ⟨_, _, rfl⟩

theorem receiveMessage_later (j : Nat) :
    (∃ m r, receiveMessage codec size body (readAll size sizeFlag) (readAll body bodyFlag)
      ⟨⟨bytes, false⟩, schedule gaps chunks m⟩ = .ok r) ↔
    ∃ m r, receiveMessage codec size body (readAll size sizeFlag) (readAll body bodyFlag)
      ⟨⟨bytes, false⟩, schedule gaps chunks (m + j)⟩ = .ok r :=
  ends_later (fun plan => receiveMessage codec size body (readAll size sizeFlag)
    (readAll body bodyFlag) ⟨⟨bytes, false⟩, plan⟩)
    (fun _ more _ hr => ⟨_, receiveMessage_append more hr⟩) j

theorem receiveBody_later (j : Nat) :
    (∃ m r, receiveBody codec body (readAll body bodyFlag) field
      ⟨⟨bytes, false⟩, schedule gaps chunks m⟩ = .ok r) ↔
    ∃ m r, receiveBody codec body (readAll body bodyFlag) field
      ⟨⟨bytes, false⟩, schedule gaps chunks (m + j)⟩ = .ok r :=
  ends_later (fun plan => receiveBody codec body (readAll body bodyFlag) field
    ⟨⟨bytes, false⟩, plan⟩)
    (fun _ more _ hr => ⟨_, receiveBody_append more hr⟩) j

theorem receiveBody_gives_up {len : Nat} (pos : 0 < len) (hlen : cellsLength field = len)
    (gives : GivesUp bodyFlag gaps) :
    ∃ m r, receiveBody codec body (readAll body bodyFlag) field
      ⟨⟨bytes, false⟩, schedule gaps chunks m⟩ = .ok r := by
  have hcall : readAll body bodyFlag ⟨⟨bytes, false⟩, schedule gaps chunks (0 + 1)⟩
      (malloc body len) len = _ := readAll_gives_up pos 0 gives (malloc body len)
  have hload : load (some (stale body len)) len = .ok ((stale body len).take len) :=
    load_room (stale_length body len).ge
  rw [malloc_eq] at hcall
  refine ⟨0 + 1, ?_⟩
  simp only [receiveBody, hlen, malloc_eq, hcall, ok_bind, hload, lt_irrefl, if_false]
  exact ⟨_, rfl⟩

/-- Where the counter of the size wraps, the call fails unless the block is lost. -/
theorem receiveBody_wrapped {len h : Nat} (pos : 0 < len) (fits : len < 2 ^ 31)
    (hlen : cellsLength field = len) (keeps : ¬ GivesUp bodyFlag gaps)
    (stops : StopsAt len chunks bytes.length h) (wraps : 2 ^ 31 ≤ (h + 1) * len) :
    (∃ m r, receiveBody codec body (readAll body bodyFlag) field
      ⟨⟨bytes, false⟩, schedule gaps chunks m⟩ = .ok r) ↔ ¬ BlockLost len chunks bytes.length := by
  have hcall : ∀ m, ∃ done, readAll body bodyFlag
      ⟨⟨bytes, false⟩, schedule gaps chunks (m + (h + 1))⟩ (malloc body len) len = .ok done ∧ _ :=
    fun m => readAll_wrapped pos fits m keeps wraps stops
  rw [receiveBody_later (h + 1), blockLost_iff stops]
  by_cases lost : bytes.length = h * len ∧ bytes.length < 2 ^ 31
  · simp only [wraps, lost.1, lost.1 ▸ lost.2, true_and, not_true_eq_false, iff_false]
    rintro ⟨m, r, hr⟩
    obtain ⟨done, hdone, hout⟩ := hcall m
    rw [if_pos ⟨rfl, lost⟩] at hout
    have hnn : ¬ done.count < 0 := by omega
    have hne : len ≠ 0 := by omega
    rw [receiveBody, hlen, hdone, ok_bind] at hr
    simp [hnn, hout.1, load, hne] at hr
  · obtain ⟨done, hdone, hout⟩ := hcall 0
    rw [if_neg (fun h => lost h.2)] at hout
    have hneg : done.count < 0 := by omega
    simp only [lost, and_false, not_false_eq_true, iff_true]
    refine ⟨0, ⟨none, field, done.rest⟩, ?_⟩
    rw [receiveBody, hlen, hdone, ok_bind, if_pos hneg]
    rfl

theorem receiveBody_fits {len h : Nat} (pos : 0 < len) (hlen : cellsLength field = len)
    (keeps : ¬ GivesUp bodyFlag gaps) (stops : StopsAt len chunks bytes.length h)
    (fits : (h + 1) * len < 2 ^ 31) :
    ∃ m r, receiveBody codec body (readAll body bodyFlag) field
      ⟨⟨bytes, false⟩, schedule gaps chunks m⟩ = .ok r := by
  have hcall : readAll body bodyFlag ⟨⟨bytes, false⟩, schedule gaps chunks (0 + (h + 1))⟩
      (malloc body len) len = _ := readAll_call pos 0 keeps fits stops
  have hheld : len ≤ (held body (arrived (bytes.take (taken len chunks bytes.length h)))
      ((h + 1) * len)).length := by
    have htaken := stops.taken_le
    rw [held_length (by rw [arrived_length, List.length_take]; omega)]
    exact Nat.le_mul_of_pos_left len (Nat.succ_pos h)
  have hload := load_room hheld
  have hnn : ¬ ((taken len chunks bytes.length h : Nat) : Int) < 0 := by omega
  refine ⟨0 + (h + 1), ?_⟩
  simp only [receiveBody, hlen, hcall, ok_bind, Bool.false_eq_true, false_and, if_false, hnn, hload]
  exact ⟨_, rfl⟩

/-- A positive length: the calls end, and the block is there unless it was lost. -/
theorem receiveBody_positive {len : Nat} (pos : 0 < len) (fits : len < 2 ^ 31)
    (hlen : cellsLength field = len) :
    (∃ m r, receiveBody codec body (readAll body bodyFlag) field
      ⟨⟨bytes, false⟩, schedule gaps chunks m⟩ = .ok r) ↔
        GivesUp bodyFlag gaps ∨ ¬ BlockLost len chunks bytes.length := by
  by_cases gives : GivesUp bodyFlag gaps
  · exact iff_of_true (receiveBody_gives_up pos hlen gives) (Or.inl gives)
  · obtain ⟨h, stops⟩ := exists_stop pos chunks bytes.length
    simp only [gives, false_or]
    by_cases wraps : 2 ^ 31 ≤ (h + 1) * len
    · exact receiveBody_wrapped pos fits hlen gives stops wraps
    · have kept : ¬ BlockLost len chunks bytes.length := by
        rw [blockLost_iff stops]
        exact fun lost => wraps lost.1
      exact iff_of_true (receiveBody_fits pos hlen gives stops (by omega)) kept

theorem receiveBody_ends_iff :
    (∃ m r, receiveBody codec body (readAll body bodyFlag) field
      ⟨⟨bytes, false⟩, schedule gaps chunks m⟩ = .ok r) ↔
        BodyEnds (cellsLength field) bodyFlag gaps chunks bytes.length := by
  have hlt := cellsLength_lt field
  rcases lt_trichotomy (cellsLength field) 0 with neg | zero | pos
  · obtain ⟨outcome, plan, hplan⟩ := schedule_cons gaps chunks 0
    have hcall : readAll body bodyFlag ⟨⟨bytes, false⟩, outcome :: plan⟩
        (malloc body (cellsLength field)) (cellsLength field) = _ := readAll_negative neg _ _ _
    simp only [BodyEnds, neg, true_or, iff_true]
    refine ⟨0 + 1, ?_⟩
    rw [hplan]
    simp only [receiveBody, hcall, ok_bind, Int.reduceNeg, Int.reduceLT, if_true]
    exact ⟨_, rfl⟩
  · simp only [BodyEnds, zero, lt_irrefl, false_and, or_self, iff_false]
    rintro ⟨m, r, hr⟩
    obtain ⟨second, hsecond, _⟩ := (bind_eq_ok_iff _ _ _).mp hr
    rw [zero] at hsecond
    exact readLoop_zero _ _ _ _ hsecond
  · obtain ⟨len, hlen⟩ := Int.eq_ofNat_of_zero_le pos.le
    rw [hlen] at hlt pos
    have hnn : ¬ (len : Int) < 0 := by omega
    rw [receiveBody_positive (by omega) (by omega) hlen, BodyEnds, hlen, Int.toNat_natCast]
    simp only [hnn, false_or, pos, true_and]

/-- The length can be read, and the body that is announced can be read to an end. -/
def ReceiveEnds (size : Nat → Byte) (sizeFlag bodyFlag : Bool) (gaps chunks : Nat → Nat)
    (bytes : List Byte) : Prop :=
  if GivesUp sizeFlag gaps then
    BodyEnds (cellsLength (sizeCells size [])) bodyFlag (Function.update gaps 0 (gaps 0 - 1)) chunks
      bytes.length
  else ¬ BlockLost 2 chunks bytes.length ∧
    ∀ h, StopsAt 2 chunks bytes.length h → (h + 1) * 2 < 2 ^ 31 →
      BodyEnds (cellsLength (sizeCells size (bytes.take (taken 2 chunks bytes.length h)))) bodyFlag
        (fun i => gaps (i + (h + 1))) (fun i => chunks (i + (h + 1)))
        (bytes.length - taken 2 chunks bytes.length h)

theorem receiveMessage_gives_up (m : Nat) (gives : GivesUp sizeFlag gaps) :
    receiveMessage codec size body (readAll size sizeFlag) (readAll body bodyFlag)
        ⟨⟨bytes, false⟩, schedule gaps chunks (m + 1)⟩ =
      receiveBody codec body (readAll body bodyFlag) (sizeCells size [])
        ⟨⟨bytes, false⟩, schedule (Function.update gaps 0 (gaps 0 - 1)) chunks (m + 1)⟩ := by
  have hcall : readAll size sizeFlag ⟨⟨bytes, false⟩, schedule gaps chunks (m + 1)⟩
      (malloc size (2 : Nat)) (2 : Nat) = _ := readAll_gives_up (by omega) m gives _
  have hnone : ([] : List Byte).length ≤ 2 := Nat.zero_le 2
  have hload := load_size size le_rfl hnone
  rw [malloc_eq, Nat.cast_two] at hcall
  simp only [receiveMessage, show malloc size 2 = some (stale size 2) from malloc_eq size 2, hcall,
    ok_bind, lt_irrefl, if_false]
  rw [show arrived [] = [] from rfl, held_nil] at hload
  rw [hload, ok_bind]

theorem receiveMessage_wrapped {h : Nat} (gives : ¬ GivesUp sizeFlag gaps)
    (stops : StopsAt 2 chunks bytes.length h) (wraps : 2 ^ 31 ≤ (h + 1) * 2) :
    (∃ m r, receiveMessage codec size body (readAll size sizeFlag) (readAll body bodyFlag)
      ⟨⟨bytes, false⟩, schedule gaps chunks m⟩ = .ok r) ↔ ¬ BlockLost 2 chunks bytes.length := by
  have hcall : ∀ m, ∃ done, readAll size sizeFlag
      ⟨⟨bytes, false⟩, schedule gaps chunks (m + (h + 1))⟩ (malloc size (2 : Nat)) (2 : Nat) =
        .ok done ∧ _ := fun m => readAll_wrapped (by omega) (by omega) m gives wraps stops
  rw [Nat.cast_two] at hcall
  rw [receiveMessage_later (h + 1), blockLost_iff stops]
  by_cases lost : bytes.length = h * 2 ∧ bytes.length < 2 ^ 31
  · simp only [wraps, lost.1, lost.1 ▸ lost.2, true_and, not_true_eq_false, iff_false]
    rintro ⟨m, r, hr⟩
    obtain ⟨done, hdone, hout⟩ := hcall m
    rw [if_pos ⟨rfl, lost⟩] at hout
    have hnn : ¬ done.count < 0 := by omega
    rw [receiveMessage, hdone, ok_bind] at hr
    simp [hnn, hout.1, load] at hr
  · obtain ⟨done, hdone, hout⟩ := hcall 0
    rw [if_neg (fun h => lost h.2)] at hout
    have hneg : done.count < 0 := by omega
    simp only [lost, and_false, not_false_eq_true, iff_true]
    refine ⟨0, ⟨none, [], done.rest⟩, ?_⟩
    rw [receiveMessage, hdone, ok_bind, if_pos hneg]
    rfl

theorem receiveMessage_fits {h : Nat} (gives : ¬ GivesUp sizeFlag gaps)
    (stops : StopsAt 2 chunks bytes.length h) (fits : (h + 1) * 2 < 2 ^ 31) :
    (∃ m r, receiveMessage codec size body (readAll size sizeFlag) (readAll body bodyFlag)
      ⟨⟨bytes, false⟩, schedule gaps chunks (m + (h + 1))⟩ = .ok r) ↔
    BodyEnds (cellsLength (sizeCells size (bytes.take (taken 2 chunks bytes.length h)))) bodyFlag
      (fun i => gaps (i + (h + 1))) (fun i => chunks (i + (h + 1)))
      (bytes.length - taken 2 chunks bytes.length h) := by
  have hcall : ∀ m, receiveMessage codec size body (readAll size sizeFlag) (readAll body bodyFlag)
      ⟨⟨bytes, false⟩, schedule gaps chunks (m + (h + 1))⟩ = _ :=
    fun m => receiveMessage_call m gives fits stops
  rw [← List.length_drop]
  simp only [hcall, Bool.false_eq_true, false_and, if_false]
  exact receiveBody_ends_iff

theorem receiveMessage_ends_iff :
    (∃ m r, receiveMessage codec size body (readAll size sizeFlag) (readAll body bodyFlag)
      ⟨⟨bytes, false⟩, schedule gaps chunks m⟩ = .ok r) ↔
        ReceiveEnds size sizeFlag bodyFlag gaps chunks bytes := by
  by_cases gives : GivesUp sizeFlag gaps
  · have hbody : (∃ m r, receiveBody codec body (readAll body bodyFlag) (sizeCells size [])
        ⟨⟨bytes, false⟩, schedule (Function.update gaps 0 (gaps 0 - 1)) chunks m⟩ = .ok r) ↔ _ :=
      receiveBody_ends_iff
    rw [ReceiveEnds, if_pos gives, ← hbody, receiveMessage_later 1, receiveBody_later 1]
    simp only [receiveMessage_gives_up _ gives]
  · have hcalls : ∀ h, StopsAt 2 chunks bytes.length h → (h + 1) * 2 < 2 ^ 31 →
        ((∃ m r, receiveMessage codec size body (readAll size sizeFlag) (readAll body bodyFlag)
          ⟨⟨bytes, false⟩, schedule gaps chunks m⟩ = .ok r) ↔ _) := fun h stops fits =>
      (receiveMessage_later (h + 1)).trans (receiveMessage_fits gives stops fits)
    rw [ReceiveEnds, if_neg gives]
    obtain ⟨h, stops⟩ := exists_stop (by omega : 0 < 2) chunks bytes.length
    by_cases fits : (h + 1) * 2 < 2 ^ 31
    · have hkept : ¬ BlockLost 2 chunks bytes.length := by
        rw [blockLost_iff stops]
        omega
      constructor
      · intro hr
        exact ⟨hkept, fun h' stops' fits' => (hcalls h' stops' fits').mp hr⟩
      · rintro ⟨_, hall⟩
        exact (hcalls h stops fits).mpr (hall h stops fits)
    · rw [receiveMessage_wrapped gives stops (by omega)]
      constructor
      · intro hkept
        exact ⟨hkept, fun h' stops' fits' => absurd fits' (stops.unique stops' ▸ fits)⟩
      · exact fun hr => hr.1

/-- Whether receiving ends, on every stream that is closed after it and for
every way the kernel delivers it. -/
theorem receive_ends_iff (codec : Codec M) (size body : Nat → Byte) (sizeFlag bodyFlag : Bool)
    (gaps chunks : Nat → Nat) (bytes : List Byte) :
    (∃ m r, networkReceive codec size body (readAll size sizeFlag) (readAll body bodyFlag)
      ⟨⟨bytes, false⟩, schedule gaps chunks m⟩ = .ok r) ↔
        ReceiveEnds size sizeFlag bodyFlag gaps chunks bytes :=
  receiveMessage_ends_iff

/-- A length of zero, and nothing after it. -/
theorem zero_length_endless :
    ¬ ∃ m r, networkReceive rawCodec (fun _ => lowByte 4) (fun _ => lowByte 5)
      (readAll (fun _ => lowByte 4) false) (readAll (fun _ => lowByte 5) false)
      ⟨⟨[lowByte 0, lowByte 0], false⟩, schedule (fun _ => 0) (fun _ => 1) m⟩ = .ok r := by
  have stops : StopsAt 2 (fun _ => 1) 2 1 :=
    ⟨fun i hi => ⟨le_rfl, by omega⟩, Or.inr (by decide)⟩
  have keeps : ¬ GivesUp false fun _ => 0 := fun gives => absurd gives.2 (lt_irrefl 0)
  intro ends
  have body := (receiveMessage_fits keeps stops (by decide)).mp
    ((receiveMessage_later 2).mp ends)
  rcases body with neg | ⟨pos, _⟩
  · exact absurd neg (by decide)
  · exact absurd pos (by decide)

end Ending
