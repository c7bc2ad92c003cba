import RemoteTable.MessageIO

/-!
# The calls of `read_all` one by one

A call that fills the request makes the block grow and the loop go on; any
other call is the last one. The calls before the last fill the request, so
what `read_all` returns is determined by the number of calls that do, as long
as the counter of the block's size does not wrap.
-/

namespace ReadLoop

open CStrings Memory ByteBlocks MessageIO

section Steps

variable {junk : Nat → Byte} {n : Nat} {k : Nat} {plan : List ReadOutcome}

theorem read_data (pos : 0 < n) {incoming : Incoming} (ready : incoming.bytes ≠ [])
    (cells : List Cell) : sysRead (.upTo k) incoming (some cells) n =
      (.data (incoming.bytes.take (min (k + 1) n)),
        { incoming with bytes := incoming.bytes.drop (min (k + 1) n) }) := by
  have hne : n ≠ 0 := by omega
  simp [sysRead, hne, ready]

theorem read_end (pos : 0 < n) {incoming : Incoming} (ended : incoming.bytes = [])
    (buffer : Block) : sysRead (.upTo k) incoming buffer n =
      (if incoming.broken then .failed else .data [], incoming) := by
  have hne : n ≠ 0 := by omega
  simp [sysRead, hne, ended]

theorem sysRead_interrupted (pos : 0 < n) (incoming : Incoming) (buffer : Block) :
    sysRead .interrupted incoming buffer n = (.interrupted, incoming) := by
  have hneg : ¬ (n : Int) < 0 := by omega
  have hne : ¬ (n : Int) = 0 := by omega
  rw [sysRead, if_neg hneg, if_neg hne]

/-- A call that finds bytes: the loop returns unless they fill the request. -/
theorem readLoop_data (pos : 0 < n) {incoming : Incoming} (ready : incoming.bytes ≠ [])
    {cells : List Cell} {full : Bool} {total : Nat} {size : Int}
    (room : total + n ≤ cells.length) :
    readLoop junk n (.upTo k :: plan) ⟨incoming, some cells, full, total, size⟩ =
      let got := incoming.bytes.take (min (k + 1) n)
      let rest := { incoming with bytes := incoming.bytes.drop (min (k + 1) n) }
      let written := cells.take total ++ arrived got ++ cells.drop (total + got.length)
      if got.length = n then
        readLoop junk n plan
          ⟨rest, realloc junk (some written) (int32 (size + n)), true, total + n, int32 (size + n)⟩
      else .ok ⟨(total + got.length : Nat), some written, ⟨rest, plan⟩⟩ := by
  have hroom : total + (incoming.bytes.take (min (k + 1) n)).length ≤ cells.length := by
    rw [List.length_take]
    omega
  simp only [readLoop, read_data pos ready, store_inside hroom, ok_bind, Nat.cast_inj]
  split_ifs with hfull
  · rw [hfull]
  · rfl

/-- At the end of the stream the loop returns, whatever came before. -/
theorem readLoop_end (pos : 0 < n) {incoming : Incoming} (ended : incoming.bytes = [])
    {buffer : Block} {full : Bool} {total : Nat} {size : Int}
    (room : ∀ cells, buffer = some cells → total ≤ cells.length) :
    readLoop junk n (.upTo k :: plan) ⟨incoming, buffer, full, total, size⟩ =
      .ok ⟨if incoming.broken then -1 else total, buffer, ⟨incoming, plan⟩⟩ := by
  have hne : (0 : Int) ≠ n := by omega
  simp only [readLoop, read_end pos ended]
  by_cases hbroken : incoming.broken
  · simp [hbroken]
  · simp [hbroken, store_nothing buffer room, hne]

/-- Nothing can be received through a null pointer. -/
theorem readLoop_null (pos : 0 < n) {incoming : Incoming} (ready : incoming.bytes ≠ [])
    {full : Bool} {total : Nat} {size : Int} :
    readLoop junk n (.upTo k :: plan) ⟨incoming, none, full, total, size⟩ =
      .ok ⟨-1, none, ⟨incoming, plan⟩⟩ := by
  have hne : n ≠ 0 := by omega
  simp [readLoop, sysRead, hne, ready]

end Steps

/-- A request for nothing is filled by every call. -/
theorem readLoop_zero (junk : Nat → Byte) (plan : List ReadOutcome) (st : Reading)
    (done : ReadDone Socket) : readLoop junk 0 plan st ≠ .ok done := by
  induction plan generalizing st with
  | nil => simp [readLoop]
  | cons outcome plan ih =>
    intro h
    simp only [readLoop, sysRead, lt_irrefl, ↓reduceIte, List.length_nil, Nat.cast_zero,
      bind_eq_ok_iff] at h
    obtain ⟨_, _, h⟩ := h
    exact ih _ h

/-- A count that is returned includes what had been received before. -/
theorem readLoop_count {junk : Nat → Byte} {n : Int} {plan : List ReadOutcome} {st : Reading}
    {done : ReadDone Socket} (h : readLoop junk n plan st = .ok done) :
    done.count = -1 ∨ (st.totalBytesRead : Int) ≤ done.count := by
  induction plan generalizing st with
  | nil => simp [readLoop] at h
  | cons outcome plan ih =>
    simp only [readLoop] at h
    split at h
    · split_ifs at h with hfull
      · exact ih h
      · cases h
        exact Or.inr le_rfl
    · cases h
      exact Or.inl rfl
    · obtain ⟨buffer, _, h⟩ := (bind_eq_ok_iff _ _ _).mp h
      split_ifs at h with hfull
      · rcases ih h with hneg | hle
        · exact Or.inl hneg
        · push_cast at hle
          exact Or.inr (by omega)
      · cases h
        push_cast
        exact Or.inr (by omega)

/-- What is received makes the count grow; the loop cannot step back. -/
theorem readLoop_progress {junk : Nat → Byte} {n k : Nat} (pos : 0 < n) {plan : List ReadOutcome}
    {st : Reading} (ready : st.incoming.bytes ≠ []) {done : ReadDone Socket}
    (h : readLoop junk n (.upTo k :: plan) st = .ok done) :
    done.count = -1 ∨ (st.totalBytesRead : Int) < done.count := by
  obtain ⟨incoming, buffer, full, total, size⟩ := st
  cases buffer with
  | none =>
    rw [readLoop_null pos ready] at h
    cases h
    exact Or.inl rfl
  | some cells =>
    have hlen : 0 < (incoming.bytes.take (min (k + 1) n)).length := by
      have hpos : 0 < incoming.bytes.length := List.length_pos_iff.mpr ready
      rw [List.length_take]
      omega
    simp only [readLoop, read_data pos ready] at h
    obtain ⟨buffer, _, h⟩ := (bind_eq_ok_iff _ _ _).mp h
    split_ifs at h with hfull
    · rcases readLoop_count h with hneg | hle
      · exact Or.inl hneg
      · push_cast at hle
        exact Or.inr (by simp only; omega)
    · cases h
      exact Or.inr (by simp only; push_cast; omega)

section Calls

/-- The first `h` calls fill the request for `n` of `len` bytes, the next does not. -/
def StopsAt (n : Nat) (chunks : Nat → Nat) (len h : Nat) : Prop :=
  (∀ i < h, n ≤ chunks i + 1 ∧ (i + 1) * n ≤ len) ∧ (chunks h + 1 < n ∨ len < (h + 1) * n)

/-- What these calls take. -/
def taken (n : Nat) (chunks : Nat → Nat) (len h : Nat) : Nat := min len (h * n + chunks h + 1)

theorem exists_stop {n : Nat} (pos : 0 < n) (chunks : Nat → Nat) (len : Nat) :
    ∃ h, StopsAt n chunks len h := by
  induction len using Nat.strong_induction_on generalizing chunks with
  | _ len ih =>
    by_cases hstop : chunks 0 + 1 < n ∨ len < n
    · exact ⟨0, by simp, by simpa using hstop⟩
    · push Not at hstop
      obtain ⟨h, hfill, hlast⟩ := ih (len - n) (by omega) fun i => chunks (i + 1)
      refine ⟨h + 1, ?_, ?_⟩
      · intro i hi
        cases i with
        | zero => exact ⟨hstop.1, by simpa using hstop.2⟩
        | succ i =>
          obtain ⟨hchunk, hlen⟩ := hfill i (by omega)
          refine ⟨hchunk, ?_⟩
          rw [add_mul, one_mul]
          omega
      · rcases hlast with hchunk | hlen
        · exact Or.inl hchunk
        · rw [add_mul _ 1, one_mul]
          exact Or.inr (by omega)

/-- The first call filled the request: the calls after it, on what is left. -/
theorem StopsAt.tail {n len h : Nat} {chunks : Nat → Nat} (stops : StopsAt n chunks len (h + 1)) :
    n ≤ chunks 0 + 1 ∧ n ≤ len ∧ StopsAt n (fun i => chunks (i + 1)) (len - n) h := by
  obtain ⟨hfill, hlast⟩ := stops
  obtain ⟨hchunk, hlen⟩ := hfill 0 (Nat.succ_pos h)
  rw [zero_add, one_mul] at hlen
  refine ⟨hchunk, hlen, ?_, ?_⟩
  · intro i hi
    obtain ⟨hchunk', hlen'⟩ := hfill (i + 1) (by omega)
    rw [add_mul _ 1, one_mul] at hlen'
    exact ⟨hchunk', by omega⟩
  · rcases hlast with hchunk' | hlen'
    · exact Or.inl hchunk'
    · rw [add_mul _ 1, one_mul] at hlen'
      exact Or.inr (by omega)

theorem StopsAt.le {n len h : Nat} {chunks : Nat → Nat} (stops : StopsAt n chunks len h) :
    h * n ≤ len := by
  cases h with
  | zero => simp
  | succ h => exact (stops.1 h (Nat.lt_succ_self h)).2

theorem StopsAt.unique {n len h h' : Nat} {chunks : Nat → Nat} (stops : StopsAt n chunks len h)
    (stops' : StopsAt n chunks len h') : h = h' := by
  rcases lt_trichotomy h h' with hlt | heq | hgt
  · have hfill := stops'.1 h hlt
    have hlast := stops.2
    omega
  · exact heq
  · have hfill := stops.1 h' hgt
    have hlast := stops'.2
    omega

theorem StopsAt.taken_le {n len h : Nat} {chunks : Nat → Nat} (stops : StopsAt n chunks len h) :
    taken n chunks len h ≤ (h + 1) * n := by
  have hlast := stops.2
  rw [add_mul, one_mul] at hlast ⊢
  rw [taken]
  omega

theorem taken_tail {n len : Nat} (chunks : Nat → Nat) (h : Nat) (hlen : n ≤ len) :
    taken n chunks len (h + 1) = n + taken n (fun i => chunks (i + 1)) (len - n) h := by
  simp only [taken, add_mul, one_mul]
  omega

/-- An interrupted call is repeated once a call has filled the request. -/
theorem readLoop_interrupted {junk : Nat → Byte} {n : Nat} (pos : 0 < n) (g : Nat)
    {plan : List ReadOutcome} {st : Reading} (full : st.fullBuffer = true) :
    readLoop junk n (List.replicate g .interrupted ++ plan) st = readLoop junk n plan st := by
  induction g with
  | zero => rfl
  | succ g ih =>
    rw [List.replicate_succ, List.cons_append, readLoop, sysRead_interrupted pos]
    simpa [full] using ih

/-- Interrupted calls before the first are skipped if the flag says so. -/
theorem readLoop_schedule {junk : Nat → Byte} {n : Nat} (pos : 0 < n) {gaps : Nat → Nat}
    (chunks : Nat → Nat) (m : Nat) {st : Reading} (skip : gaps 0 = 0 ∨ st.fullBuffer = true) :
    readLoop junk n (schedule gaps chunks (m + 1)) st = readLoop junk n
      (.upTo (chunks 0) :: schedule (fun i => gaps (i + 1)) (fun i => chunks (i + 1)) m) st := by
  rw [schedule]
  rcases skip with hzero | full
  · rw [hzero]
    rfl
  · exact readLoop_interrupted pos _ full

section Held

variable {junk : Nat → Byte} {n k : Nat} {plan : List ReadOutcome} {incoming : Incoming}
  {front : List Cell} {full : Bool}

/-- The loop before a call: the block holds what was received and has room for
one request more. -/
def ready (junk : Nat → Byte) (n : Nat) (incoming : Incoming) (front : List Cell) (full : Bool) :
    Reading :=
  ⟨incoming, some (held junk front (front.length + n)), full, front.length,
    (front.length + n : Nat)⟩

/-- A call that does not fill the request is the last one. -/
theorem readLoop_last (pos : 0 < n) (short : k + 1 < n ∨ incoming.bytes.length < n) :
    readLoop junk n (.upTo k :: plan) (ready junk n incoming front full) =
      .ok ⟨if incoming.broken ∧ incoming.bytes.length = 0 then -1
          else (front.length + min incoming.bytes.length (k + 1) : Nat),
        some (held junk
          (front ++ arrived (incoming.bytes.take (min incoming.bytes.length (k + 1))))
          (front.length + n)),
        ⟨{ incoming with bytes := incoming.bytes.drop (min incoming.bytes.length (k + 1)) },
          plan⟩⟩ := by
  have hlen : (held junk front (front.length + n)).length = front.length + n :=
    held_length (Nat.le_add_right _ _)
  by_cases ended : incoming.bytes = []
  · obtain ⟨bytes, broken⟩ := incoming
    cases ended
    rw [ready, readLoop_end pos rfl (fun c hc => by cases hc; omega)]
    simp [arrived]
  · have hpos : 0 < incoming.bytes.length := List.length_pos_iff.mpr ended
    generalize hm : min incoming.bytes.length (k + 1) = m
    have htake : incoming.bytes.take (min (k + 1) n) = incoming.bytes.take m :=
      List.take_eq_take_iff.mpr (by omega)
    have hdrop : incoming.bytes.drop (min (k + 1) n) = incoming.bytes.drop m :=
      List.drop_eq_drop_iff.mpr (by omega)
    have hgot : (incoming.bytes.take m).length = m := by
      rw [List.length_take]
      omega
    have hnot : ¬ (incoming.broken = true ∧ incoming.bytes.length = 0) := by omega
    have hshort : ¬ (m : Int) = n := by omega
    have room : front.length + (incoming.bytes.take m).length ≤ front.length + n := by omega
    have hstore := store_held junk room
    simp only [ready, readLoop, read_data pos ended, htake, hdrop, hstore, hgot, ok_bind,
      if_neg hshort, if_neg hnot]

/-- A filled request makes the block grow by as much again. -/
theorem readLoop_filled (pos : 0 < n) (hchunk : n ≤ k + 1) (hlen : n ≤ incoming.bytes.length) :
    readLoop junk n (.upTo k :: plan) (ready junk n incoming front full) =
      readLoop junk n plan
        ⟨{ incoming with bytes := incoming.bytes.drop n },
          realloc junk (some (front ++ arrived (incoming.bytes.take n)))
            (int32 (front.length + n + n)), true, front.length + n,
          int32 (front.length + n + n)⟩ := by
  have nonempty : incoming.bytes ≠ [] := by
    intro hnil
    rw [hnil, List.length_nil] at hlen
    omega
  have hmin : min (k + 1) n = n := by omega
  have hgot : (incoming.bytes.take n).length = n := List.length_take_of_le hlen
  have room : front.length + (incoming.bytes.take n).length ≤ front.length + n := by rw [hgot]
  have hstore := store_held junk room
  have hfront : (front ++ arrived (incoming.bytes.take n)).length = front.length + n := by
    rw [List.length_append, arrived_length, hgot]
  rw [← hfront, held_full, hfront] at hstore
  simp only [ready, readLoop, read_data pos nonempty, hmin, hstore, ok_bind, hgot, if_true,
    Nat.cast_add]

theorem readLoop_grown (pos : 0 < n) (hchunk : n ≤ k + 1) (hlen : n ≤ incoming.bytes.length)
    (fits : front.length + n + n < 2 ^ 31) :
    readLoop junk n (.upTo k :: plan) (ready junk n incoming front full) =
      readLoop junk n plan (ready junk n { incoming with bytes := incoming.bytes.drop n }
        (front ++ arrived (incoming.bytes.take n)) true) := by
  have hsize : int32 (front.length + n + n : Int) = ((front.length + n + n : Nat) : Int) := by
    push_cast
    exact int32_of_range (by omega) (by omega)
  have hfront : (front ++ arrived (incoming.bytes.take n)).length = front.length + n := by
    rw [List.length_append, arrived_length, List.length_take_of_le hlen]
  rw [readLoop_filled pos hchunk hlen, hsize,
    realloc_grow junk (hfront.trans_le (Nat.le_add_right _ n)), ready, hfront]

/-- The calls before the one that stops the loop fill the request, and the
block grows with them; after that call it holds what was taken. -/
theorem readLoop_call (pos : 0 < n) {h : Nat} (m : Nat) {gaps chunks : Nat → Nat}
    (skip : gaps 0 = 0 ∨ full = true) (fits : front.length + (h + 1) * n < 2 ^ 31)
    (stops : StopsAt n chunks incoming.bytes.length h) :
    readLoop junk n (schedule gaps chunks (m + (h + 1))) (ready junk n incoming front full) =
      .ok ⟨if incoming.broken ∧ incoming.bytes.length = h * n then -1
          else (front.length + taken n chunks incoming.bytes.length h : Nat),
        some (held junk
          (front ++ arrived (incoming.bytes.take (taken n chunks incoming.bytes.length h)))
          (front.length + (h + 1) * n)),
        ⟨{ incoming with bytes := incoming.bytes.drop (taken n chunks incoming.bytes.length h) },
          schedule (fun i => gaps (i + (h + 1))) (fun i => chunks (i + (h + 1))) m⟩⟩ := by
  induction h generalizing gaps chunks incoming front full with
  | zero =>
    have hlast : chunks 0 + 1 < n ∨ incoming.bytes.length < n := by simpa using stops.2
    have htaken : taken n chunks incoming.bytes.length 0 =
        min incoming.bytes.length (chunks 0 + 1) := by simp [taken]
    rw [readLoop_schedule pos chunks m skip, readLoop_last pos hlast, htaken, Nat.zero_mul,
      Nat.zero_add, Nat.one_mul]
  | succ h ih =>
    obtain ⟨hchunk, hlen, later⟩ := stops.tail
    have hmul : (h + 1 + 1) * n = n + (h + 1) * n := by rw [add_mul _ 1, one_mul, add_comm]
    have hle : n ≤ (h + 1) * n := Nat.le_mul_of_pos_left n (Nat.succ_pos h)
    have hfront : (front ++ arrived (incoming.bytes.take n)).length = front.length + n := by
      rw [List.length_append, arrived_length, List.length_take_of_le hlen]
    have htaken := taken_tail chunks h hlen
    have hended : incoming.bytes.length - n = h * n ↔ incoming.bytes.length = (h + 1) * n := by
      rw [add_mul, one_mul]
      omega
    rw [← List.length_drop] at later
    have hcall := @ih { incoming with bytes := incoming.bytes.drop n }
      (front ++ arrived (incoming.bytes.take n)) true (fun i => gaps (i + 1))
      (fun i => chunks (i + 1)) (Or.inr rfl) (by rw [hfront]; omega) later
    rw [show m + (h + 1 + 1) = m + (h + 1) + 1 from rfl, readLoop_schedule pos chunks _ skip,
      readLoop_grown pos hchunk hlen (by omega), hcall]
    simp only [List.length_drop, hfront, hended]
    rw [List.drop_drop, htaken, List.take_add, arrived_append, List.append_assoc, hmul,
      Nat.add_assoc, Nat.add_assoc]
    rfl

/-- Where the counter of the block's size wraps, the block is lost: the next
call fails, unless the stream ended in order just there. -/
theorem readLoop_wrapped (pos : 0 < n) {h : Nat} (m : Nat)
    {gaps chunks : Nat → Nat} (skip : gaps 0 = 0 ∨ full = true)
    (room : front.length + n < 2 ^ 31) (wraps : 2 ^ 31 ≤ front.length + (h + 1) * n)
    (stops : StopsAt n chunks incoming.bytes.length h) :
    ∃ done, readLoop junk n (schedule gaps chunks (m + (h + 1)))
        (ready junk n incoming front full) = .ok done ∧
      if incoming.broken = false ∧ incoming.bytes.length = h * n ∧
          front.length + incoming.bytes.length < 2 ^ 31 then
        done.buffer = none ∧ 0 ≤ done.count
      else done.count = -1 := by
  induction h generalizing gaps chunks incoming front full with
  | zero => omega
  | succ h ih =>
    obtain ⟨hchunk, hlen, later⟩ := stops.tail
    have hmul : (h + 1 + 1) * n = n + (h + 1) * n := by rw [add_mul _ 1, one_mul, add_comm]
    have hmul' : (h + 1) * n = h * n + n := by rw [add_mul, one_mul]
    have hle := later.le
    have hfront : (front ++ arrived (incoming.bytes.take n)).length = front.length + n := by
      rw [List.length_append, arrived_length, List.length_take_of_le hlen]
    rw [show m + (h + 1 + 1) = m + (h + 1) + 1 from rfl, readLoop_schedule pos chunks _ skip]
    by_cases fits : front.length + n + n < 2 ^ 31
    · rw [← List.length_drop] at later
      obtain ⟨done, hdone, hout⟩ := @ih { incoming with bytes := incoming.bytes.drop n }
        (front ++ arrived (incoming.bytes.take n)) true (fun i => gaps (i + 1))
        (fun i => chunks (i + 1)) (Or.inr rfl) (by rwa [hfront]) (by rw [hfront]; omega) later
      rw [readLoop_grown pos hchunk hlen fits, hdone]
      refine ⟨done, rfl, ?_⟩
      simp only [List.length_drop, hfront] at hout
      have hsame : (incoming.broken = false ∧ incoming.bytes.length - n = h * n ∧
          front.length + n + (incoming.bytes.length - n) < 2 ^ 31) ↔
          incoming.broken = false ∧ incoming.bytes.length = (h + 1) * n ∧
            front.length + incoming.bytes.length < 2 ^ 31 := by
        rw [hmul']
        constructor <;> rintro ⟨hclosed, hend, hsmall⟩ <;> exact ⟨hclosed, by omega, by omega⟩
      rwa [if_congr hsame rfl rfl] at hout
    · have hneg : int32 (front.length + n + n : Int) < 0 := int32_wrapped (by omega) (by omega)
      rw [readLoop_filled pos hchunk hlen, realloc_negative _ _ hneg,
        show m + (h + 1) = m + h + 1 from rfl, readLoop_schedule pos _ _ (Or.inr rfl)]
      by_cases ended : incoming.bytes.drop n = []
      · have hends : incoming.bytes.length = n := by
          have := List.drop_eq_nil_iff.mp ended
          omega
        have hzero : h * n = 0 := by omega
        rw [readLoop_end pos ended (by simp)]
        refine ⟨_, rfl, ?_⟩
        cases hbroken : incoming.broken with
        | false =>
          rw [if_pos ⟨rfl, by omega, by omega⟩]
          exact ⟨rfl, Int.natCast_nonneg _⟩
        | true => simp
      · have hmore : n < incoming.bytes.length := by
          by_contra hle'
          exact ended (List.drop_eq_nil_iff.mpr (by omega))
        have hnot : ¬ (incoming.broken = false ∧ incoming.bytes.length = (h + 1) * n ∧
            front.length + incoming.bytes.length < 2 ^ 31) := by
          rintro ⟨_, hend, hsmall⟩
          have hn' : n ≤ h * n := by
            apply Nat.le_mul_of_pos_left
            rcases Nat.eq_zero_or_pos h with rfl | hpos
            · omega
            · exact hpos
          omega
        refine ⟨_, readLoop_null pos ended, ?_⟩
        rw [if_neg hnot]

end Held

end Calls

section ReadAll

variable {junk : Nat → Byte} {n h : Nat} {flag : Bool} {gaps chunks : Nat → Nat}
  {incoming : Incoming}

/-- The first call is interrupted and the flag happens to be zero: `read_all`
returns with nothing read. -/
def GivesUp (flag : Bool) (gaps : Nat → Nat) : Prop := flag = false ∧ 0 < gaps 0

instance (flag : Bool) (gaps : Nat → Nat) : Decidable (GivesUp flag gaps) :=
  inferInstanceAs (Decidable (_ ∧ _))

theorem not_givesUp_iff : ¬ GivesUp flag gaps ↔ gaps 0 = 0 ∨ flag = true := by
  rw [GivesUp, not_and_or, Bool.not_eq_false, Nat.not_lt, Nat.le_zero, or_comm]

theorem start_ready (junk : Nat → Byte) (n : Nat) (incoming : Incoming) (flag : Bool) :
    (⟨incoming, malloc junk n, flag, 0, n⟩ : Reading) = ready junk n incoming [] flag := by
  simp [ready, malloc_eq]

theorem readAll_call (pos : 0 < n) (m : Nat) (skip : ¬ GivesUp flag gaps)
    (fits : (h + 1) * n < 2 ^ 31) (stops : StopsAt n chunks incoming.bytes.length h) :
    readAll junk flag ⟨incoming, schedule gaps chunks (m + (h + 1))⟩ (malloc junk n) n =
      .ok ⟨if incoming.broken ∧ incoming.bytes.length = h * n then -1
          else (taken n chunks incoming.bytes.length h : Nat),
        some (held junk (arrived (incoming.bytes.take (taken n chunks incoming.bytes.length h)))
          ((h + 1) * n)),
        ⟨{ incoming with bytes := incoming.bytes.drop (taken n chunks incoming.bytes.length h) },
          schedule (fun i => gaps (i + (h + 1))) (fun i => chunks (i + (h + 1))) m⟩⟩ := by
  have hcall : readLoop junk n (schedule gaps chunks (m + (h + 1)))
      (ready junk n incoming [] flag) = _ :=
    readLoop_call pos m (not_givesUp_iff.mp skip) (by simpa using fits) stops
  simpa [readAll, start_ready] using hcall

theorem readAll_wrapped (pos : 0 < n) (hn : n < 2 ^ 31) (m : Nat) (skip : ¬ GivesUp flag gaps)
    (wraps : 2 ^ 31 ≤ (h + 1) * n) (stops : StopsAt n chunks incoming.bytes.length h) :
    ∃ done, readAll junk flag ⟨incoming, schedule gaps chunks (m + (h + 1))⟩ (malloc junk n) n =
      .ok done ∧
      if incoming.broken = false ∧ incoming.bytes.length = h * n ∧
          incoming.bytes.length < 2 ^ 31 then
        done.buffer = none ∧ 0 ≤ done.count
      else done.count = -1 := by
  have hcall : ∃ done, readLoop junk n (schedule gaps chunks (m + (h + 1)))
      (ready junk n incoming [] flag) = .ok done ∧ _ :=
    readLoop_wrapped pos m (not_givesUp_iff.mp skip) (by simpa using hn) (by simpa using wraps)
      stops
  simpa [readAll, start_ready] using hcall

theorem readAll_gives_up (pos : 0 < n) (m : Nat) (gives : GivesUp flag gaps) (buffer : Block) :
    readAll junk flag ⟨incoming, schedule gaps chunks (m + 1)⟩ buffer n =
      .ok ⟨0, buffer, ⟨incoming, schedule (Function.update gaps 0 (gaps 0 - 1)) chunks (m + 1)⟩⟩ := by
  obtain ⟨hflag, hgap⟩ := gives
  have hsplit : schedule gaps chunks (m + 1) =
      .interrupted :: schedule (Function.update gaps 0 (gaps 0 - 1)) chunks (m + 1) := by
    have hcount : gaps 0 = gaps 0 - 1 + 1 := by omega
    rw [schedule, schedule, Function.update_self, hcount, List.replicate_succ]
    simp
  rw [readAll, hsplit, readLoop, sysRead_interrupted pos]
  simp [hflag]

/-- No number of bytes is negative. -/
theorem readAll_negative {len : Int} (neg : len < 0) (outcome : ReadOutcome)
    (plan : List ReadOutcome) (buffer : Block) :
    readAll junk flag ⟨incoming, outcome :: plan⟩ buffer len =
      .ok ⟨-1, buffer, ⟨incoming, plan⟩⟩ := by
  simp [readAll, readLoop, sysRead, neg]

/-- More outcomes change nothing once the loop has returned. -/
theorem readLoop_append {n : Int} {plan : List ReadOutcome} (more : List ReadOutcome)
    {st : Reading} {done : ReadDone Socket} (h : readLoop junk n plan st = .ok done) :
    readLoop junk n (plan ++ more) st =
      .ok { done with rest := { done.rest with plan := done.rest.plan ++ more } } := by
  induction plan generalizing st with
  | nil => cases h
  | cons outcome plan ih =>
    simp only [List.cons_append, readLoop] at h ⊢
    split at h
    · split_ifs at h ⊢ with hfull
      · exact ih h
      · cases h
        rfl
    · cases h
      rfl
    · obtain ⟨buffer, hstore, h⟩ := (bind_eq_ok_iff _ _ _).mp h
      rw [hstore, ok_bind]
      split_ifs at h ⊢ with hfull
      · exact ih h
      · cases h
        rfl

theorem schedule_append (gaps chunks : Nat → Nat) (m j : Nat) :
    ∃ more, schedule gaps chunks (m + j) = schedule gaps chunks m ++ more := by
  induction m generalizing gaps chunks with
  | zero => exact ⟨_, (List.nil_append _).symm⟩
  | succ m ih =>
    obtain ⟨more, hmore⟩ := ih (fun i => gaps (i + 1)) fun i => chunks (i + 1)
    refine ⟨more, ?_⟩
    rw [Nat.add_right_comm, schedule, hmore, schedule, List.append_assoc, List.cons_append]

/-- Where more outcomes do not undo a result, a plan that is long enough may be taken
as long as one likes. -/
theorem ends_later {β : Type} (call : List ReadOutcome → Except Fault β)
    (extends_result : ∀ plan more r, call plan = .ok r → ∃ r', call (plan ++ more) = .ok r')
    (j : Nat) : (∃ m r, call (schedule gaps chunks m) = .ok r) ↔
      ∃ m r, call (schedule gaps chunks (m + j)) = .ok r := by
  constructor
  · rintro ⟨m, r, hr⟩
    obtain ⟨more, hmore⟩ := schedule_append gaps chunks m j
    obtain ⟨r', hr'⟩ := extends_result _ more r hr
    exact ⟨m, r', by rw [hmore, hr']⟩
  · rintro ⟨m, r, hr⟩
    exact ⟨m + j, r, hr⟩

end ReadAll

end ReadLoop
