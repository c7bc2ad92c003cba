import RemoteTable.MessageIO

/-!
# What `write_all` hands to the kernel

Each call offers what is left of the buffer and the kernel takes some of it.
The pointer and the remaining length move together, so what was taken is
always the front of the buffer and what is offered the rest of its first `len`
bytes. The length kept for the result is the one the loop started with.
-/

namespace WriteAll

open CStrings Memory ByteBlocks MessageIO

/-- One `write`: the bytes it was given and those that were accepted. -/
structure WriteCall where
  offered : List Byte
  taken : List Byte
  deriving DecidableEq

/-- The calls the loop makes, also of a loop that has not returned yet. -/
def writeCalls : List WriteOutcome → List Byte → Int → List WriteCall
  | [], _, _ => []
  | outcome :: plan, buf, len =>
    if len > 0 then match outcome with
      | .interrupted => ⟨buf.take len.toNat, []⟩ :: writeCalls plan buf len
      | .failed => [⟨buf.take len.toNat, []⟩]
      | .accepted k =>
        let res := min (k + 1) len.toNat
        ⟨buf.take len.toNat, buf.take res⟩ :: writeCalls plan (buf.drop res) (len - res)
    else []

def transferred (calls : List WriteCall) : List Byte := calls.flatMap WriteCall.taken

@[simp] theorem transferred_nil : transferred [] = [] := rfl

@[simp] theorem transferred_cons (c : WriteCall) (calls : List WriteCall) :
    transferred (c :: calls) = c.taken ++ transferred calls := rfl

section Steps

variable {plan : List WriteOutcome} {buf : List Byte} {n : Nat} {bufsize : Int}

theorem writeCalls_interrupted (pos : 0 < n) :
    writeCalls (.interrupted :: plan) buf n = ⟨buf.take n, []⟩ :: writeCalls plan buf n := by
  simp [writeCalls, pos]

theorem writeCalls_failed (pos : 0 < n) :
    writeCalls (.failed :: plan) buf n = [⟨buf.take n, []⟩] := by
  simp [writeCalls, pos]

theorem writeCalls_accepted (pos : 0 < n) (k : Nat) :
    writeCalls (.accepted k :: plan) buf n = ⟨buf.take n, buf.take (min (k + 1) n)⟩ ::
      writeCalls plan (buf.drop (min (k + 1) n)) ((n - min (k + 1) n : Nat) : Int) := by
  have hlen : (n : Int) - (min (k + 1) n : Nat) = ((n - min (k + 1) n : Nat) : Int) := by omega
  simp only [writeCalls, Int.toNat_natCast, hlen, gt_iff_lt, Nat.cast_pos, if_pos pos]

theorem writeCalls_done (plan : List WriteOutcome) (buf : List Byte) :
    writeCalls plan buf (0 : Nat) = [] := by
  cases plan <;> simp [writeCalls]

theorem writeLoop_done (plan : List WriteOutcome) (buf : List Byte) (bufsize : Int) :
    writeLoop bufsize plan buf (0 : Nat) = .ok ⟨bufsize, [], plan⟩ := by
  cases plan <;> simp [writeLoop]

theorem writeLoop_interrupted (pos : 0 < n) :
    writeLoop bufsize (.interrupted :: plan) buf n = writeLoop bufsize plan buf n := by
  simp [writeLoop, pos]

theorem writeLoop_failed (pos : 0 < n) :
    writeLoop bufsize (.failed :: plan) buf n = .ok ⟨-1, [], plan⟩ := by
  simp [writeLoop, pos]

theorem writeLoop_accepted (pos : 0 < n) (room : n ≤ buf.length) (k : Nat) :
    writeLoop bufsize (.accepted k :: plan) buf n = (do
      let rest ← writeLoop bufsize plan (buf.drop (min (k + 1) n))
        ((n - min (k + 1) n : Nat) : Int)
      pure { rest with sent := buf.take (min (k + 1) n) ++ rest.sent }) := by
  have hlen : (n : Int) - (min (k + 1) n : Nat) = ((n - min (k + 1) n : Nat) : Int) := by omega
  have hroom : min (k + 1) n ≤ buf.length := by omega
  simp only [writeLoop, Int.toNat_natCast, hlen, gt_iff_lt, Nat.cast_pos, if_pos pos,
    if_pos hroom]

end Steps

theorem take_split (buf : List Byte) {m n : Nat} (h : m ≤ n) :
    buf.take n = buf.take m ++ (buf.drop m).take (n - m) := by
  rw [← List.take_add, Nat.add_sub_cancel' h]

theorem room_left {buf : List Byte} {n : Nat} (room : n ≤ buf.length) (m : Nat) :
    n - m ≤ (buf.drop m).length := by
  rw [List.length_drop]
  omega

/-- Pointer and remaining length: every call offers what the calls before it left. -/
theorem offered_rest {plan : List WriteOutcome} {buf : List Byte} {n : Nat}
    (room : n ≤ buf.length) {pre post : List WriteCall} {c : WriteCall}
    (calls : writeCalls plan buf n = pre ++ c :: post) :
    c.offered = (buf.take n).drop (transferred pre).length ∧ c.taken <+: c.offered := by
  induction plan generalizing buf n pre with
  | nil => simp [writeCalls] at calls
  | cons outcome plan ih =>
    rcases Nat.eq_zero_or_pos n with rfl | pos
    · rw [writeCalls_done] at calls
      simp at calls
    cases outcome with
    | interrupted =>
      rw [writeCalls_interrupted pos] at calls
      cases pre with
      | nil =>
        obtain ⟨rfl, _⟩ := List.cons.inj calls
        simp [transferred]
      | cons first pre =>
        obtain ⟨rfl, later⟩ := List.cons.inj calls
        simpa using ih room later
    | failed =>
      rw [writeCalls_failed pos] at calls
      cases pre with
      | nil =>
        obtain ⟨rfl, _⟩ := List.cons.inj calls
        simp [transferred]
      | cons first pre => simp at calls
    | accepted k =>
      rw [writeCalls_accepted pos] at calls
      generalize hm : min (k + 1) n = m at calls
      have hle : m ≤ n := by omega
      cases pre with
      | nil =>
        obtain ⟨rfl, _⟩ := List.cons.inj calls
        refine ⟨by simp [transferred], ?_⟩
        rw [take_split buf hle]
        exact List.prefix_append _ _
      | cons first pre =>
        obtain ⟨rfl, later⟩ := List.cons.inj calls
        have hlen : (buf.take m).length = m := List.length_take_of_le (by omega)
        obtain ⟨hoffered, htaken⟩ := ih (room_left room m) later
        refine ⟨?_, htaken⟩
        rw [hoffered, take_split buf hle, transferred_cons, List.length_append, hlen,
          ← List.drop_drop, List.drop_left' hlen]

theorem transferred_starts (plan : List WriteOutcome) {buf : List Byte} {n : Nat}
    (room : n ≤ buf.length) : transferred (writeCalls plan buf n) <+: buf.take n := by
  induction plan generalizing buf n with
  | nil => simp [writeCalls, transferred]
  | cons outcome plan ih =>
    rcases Nat.eq_zero_or_pos n with rfl | pos
    · rw [writeCalls_done]
      exact List.nil_prefix
    cases outcome with
    | interrupted =>
      rw [writeCalls_interrupted pos]
      simpa using ih room
    | failed =>
      rw [writeCalls_failed pos]
      simp [transferred]
    | accepted k =>
      rw [writeCalls_accepted pos]
      generalize hm : min (k + 1) n = m
      have hle : m ≤ n := by omega
      rw [take_split buf hle, transferred_cons]
      exact (List.prefix_append_right_inj _).mpr (ih (room_left room m))

/-- How the loop stands after a plan. -/
inductive Stands (bufsize : Int) (plan : List WriteOutcome) (buf : List Byte) (n : Nat) :
    Except Fault WriteDone → List Byte → Prop
  | finished {sent rest} (all : sent.length = n) :
      Stands bufsize plan buf n (.ok ⟨bufsize, sent, rest⟩) sent
  | failed {sent pre post} (split : plan = pre ++ .failed :: post)
      (before : transferred (writeCalls pre buf n) = sent) (short : sent.length < n) :
      Stands bufsize plan buf n (.ok ⟨-1, sent, post⟩) sent
  | waiting {sent} (none_failed : .failed ∉ plan) (short : sent.length < n) :
      Stands bufsize plan buf n (.error .endless) sent

section Standing

variable {bufsize : Int} {plan : List WriteOutcome} {buf : List Byte} {n : Nat}
  {out : Except Fault WriteDone} {sent : List Byte}

/-- An interrupted call in front changes nothing. -/
theorem Stands.interrupted (pos : 0 < n) (later : Stands bufsize plan buf n out sent) :
    Stands bufsize (.interrupted :: plan) buf n out sent := by
  cases later with
  | finished all => exact .finished all
  | @failed _ pre post split before short =>
    have split' : WriteOutcome.interrupted :: plan = (.interrupted :: pre) ++ .failed :: post := by
      rw [split]
      rfl
    refine .failed split' ?_ short
    rw [writeCalls_interrupted pos, transferred_cons, List.nil_append, before]
  | waiting none_failed short => exact .waiting (by simpa using none_failed) short

/-- A call in front that is accepted is sent in front. -/
theorem Stands.accepted (pos : 0 < n) (room : n ≤ buf.length) (k : Nat)
    (later : Stands bufsize plan (buf.drop (min (k + 1) n)) (n - min (k + 1) n) out sent) :
    Stands bufsize (.accepted k :: plan) buf n
      (out >>= fun rest => pure { rest with sent := buf.take (min (k + 1) n) ++ rest.sent })
      (buf.take (min (k + 1) n) ++ sent) := by
  generalize hm : min (k + 1) n = m at later ⊢
  have hle : m ≤ n := by omega
  have hsent : (buf.take m ++ sent).length = m + sent.length := by
    rw [List.length_append, List.length_take_of_le (by omega)]
  cases later with
  | finished all =>
    have all' : (buf.take m ++ sent).length = n := by omega
    exact .finished all'
  | @failed _ pre post split before short =>
    have split' : WriteOutcome.accepted k :: plan = (.accepted k :: pre) ++ .failed :: post := by
      rw [split]
      rfl
    have short' : (buf.take m ++ sent).length < n := by omega
    refine .failed split' ?_ short'
    rw [writeCalls_accepted pos, transferred_cons, hm, before]
  | waiting none_failed short =>
    have short' : (buf.take m ++ sent).length < n := by omega
    exact .waiting (by simpa using none_failed) short'

end Standing

theorem writeLoop_stands (bufsize : Int) (plan : List WriteOutcome) {buf : List Byte} {n : Nat}
    (room : n ≤ buf.length) :
    Stands bufsize plan buf n (writeLoop bufsize plan buf n)
      (transferred (writeCalls plan buf n)) := by
  induction plan generalizing buf n with
  | nil =>
    rcases Nat.eq_zero_or_pos n with rfl | pos
    · rw [writeLoop_done, writeCalls_done]
      exact .finished rfl
    · have hwaits : writeLoop bufsize [] buf n = .error .endless := by simp [writeLoop, pos]
      rw [hwaits]
      exact .waiting (by simp) (by simpa [writeCalls] using pos)
  | cons outcome plan ih =>
    rcases Nat.eq_zero_or_pos n with rfl | pos
    · rw [writeLoop_done, writeCalls_done]
      exact .finished rfl
    cases outcome with
    | interrupted =>
      rw [writeLoop_interrupted pos, writeCalls_interrupted pos, transferred_cons, List.nil_append]
      exact (ih room).interrupted pos
    | failed =>
      rw [writeLoop_failed pos, writeCalls_failed pos]
      have split : WriteOutcome.failed :: plan = [] ++ .failed :: plan := rfl
      exact .failed split rfl (by simpa using pos)
    | accepted k =>
      rw [writeLoop_accepted pos room, writeCalls_accepted pos, transferred_cons]
      exact (ih (room_left room _)).accepted pos room k

/-- A failure that is met stops the loop. -/
theorem transferred_failure {pre post : List WriteOutcome} {buf : List Byte} {n : Nat}
    (room : n ≤ buf.length) (met : (transferred (writeCalls pre buf n)).length < n) :
    transferred (writeCalls (pre ++ .failed :: post) buf n) = transferred (writeCalls pre buf n) := by
  have pos : 0 < n := by omega
  induction pre generalizing buf n with
  | nil =>
    rw [List.nil_append, writeCalls_failed pos]
    rfl
  | cons outcome pre ih =>
    cases outcome with
    | interrupted =>
      rw [writeCalls_interrupted pos, transferred_cons, List.nil_append] at met ⊢
      rw [List.cons_append, writeCalls_interrupted pos, transferred_cons, List.nil_append,
        ih room met pos]
    | failed => rw [List.cons_append, writeCalls_failed pos, writeCalls_failed pos]
    | accepted k =>
      rw [writeCalls_accepted pos, transferred_cons] at met ⊢
      rw [List.cons_append, writeCalls_accepted pos, transferred_cons]
      generalize hm : min (k + 1) n = m at met ⊢
      have hlen : (buf.take m).length = m := List.length_take_of_le (by omega)
      rw [List.length_append, hlen] at met
      rw [ih (room_left room m) (by omega) (by omega)]

/-- A call other than an interrupted one fails while there is something to write. -/
def Fails (plan : List WriteOutcome) (buf : List Byte) (len : Int) : Prop :=
  ∃ pre post, plan = pre ++ .failed :: post ∧
    ((transferred (writeCalls pre buf len)).length : Int) < len

/-- What the kernel accepts is a prefix of the buffer: every call offers the
rest of the first `len` bytes and nothing else. `write_all` returns `len`
exactly when all of them were accepted, and a negative value exactly when a
call failed for good before that; else it waits for another call. -/
theorem delivers_in_order (plan : List WriteOutcome) (buf : List Byte) {len : Int}
    (nonneg : 0 ≤ len) (room : len ≤ buf.length) :
    transferred (writeCalls plan buf len) <+: buf.take len.toNat ∧
      (∀ pre c post, writeCalls plan buf len = pre ++ c :: post →
        c.offered = (buf.take len.toNat).drop (transferred pre).length ∧ c.taken <+: c.offered) ∧
      (∀ w, writeAll plan buf len = .ok w → w.sent = transferred (writeCalls plan buf len)) ∧
      (∀ fault, writeAll plan buf len = .error fault → fault = .endless) ∧
      ((∃ w, writeAll plan buf len = .ok w ∧ w.result = len) ↔
        transferred (writeCalls plan buf len) = buf.take len.toNat) ∧
      ((∃ w, writeAll plan buf len = .ok w ∧ w.result < 0) ↔ Fails plan buf len) := by
  obtain ⟨n, rfl⟩ := Int.eq_ofNat_of_zero_le nonneg
  have room' : n ≤ buf.length := by omega
  have front := transferred_starts plan room'
  have stands := writeLoop_stands n plan room'
  rw [Int.toNat_natCast]
  refine ⟨front, fun pre c post calls => offered_rest room' calls, ?_⟩
  have full_iff : transferred (writeCalls plan buf n) = buf.take n ↔
      (transferred (writeCalls plan buf n)).length = n := by
    have hlen : (buf.take n).length = n := List.length_take_of_le room'
    constructor
    · intro h
      rw [h, hlen]
    · intro h
      exact front.eq_of_length (h.trans hlen.symm)
  have failed_short : Fails plan buf n →
      (transferred (writeCalls plan buf n)).length < n ∧ .failed ∈ plan := by
    rintro ⟨pre, post, rfl, short⟩
    have short' : (transferred (writeCalls pre buf n)).length < n := by omega
    exact ⟨by rwa [transferred_failure room' short'], by simp⟩
  rw [full_iff]
  unfold writeAll
  generalize writeLoop n plan buf n = out at stands ⊢
  generalize transferred (writeCalls plan buf n) = sent at stands failed_short ⊢
  cases stands with
  | finished all =>
    have never : ¬ Fails plan buf n := by
      intro h
      have := (failed_short h).1
      omega
    have hnot : ¬ (n : Int) < 0 := by omega
    simp [all, never, hnot]
  | @failed _ pre post split before short =>
    have failed : Fails plan buf n := ⟨pre, post, split, by rw [before]; omega⟩
    have hne : ¬ -1 = (n : Int) := by omega
    have hshort : ¬ sent.length = n := by omega
    simp [failed, hne, hshort]
  | waiting none_failed short =>
    have never : ¬ Fails plan buf n := fun h => none_failed (failed_short h).2
    have hshort : ¬ sent.length = n := by omega
    simp [never, hshort]

/-- Two bytes, an interrupt, and the third. -/
theorem delivers_in_order_sample :
    writeAll [.accepted 1, .interrupted, .accepted 4, .failed] [lowByte 1, lowByte 2, lowByte 3] 3 =
        .ok ⟨3, [lowByte 1, lowByte 2, lowByte 3], [.failed]⟩ ∧
      transferred (writeCalls [.accepted 1, .interrupted, .accepted 4, .failed]
        [lowByte 1, lowByte 2, lowByte 3] 3) <+: [lowByte 1, lowByte 2, lowByte 3] :=
  ⟨rfl, (delivers_in_order _ [lowByte 1, lowByte 2, lowByte 3]
    (show (0 : Int) ≤ 3 by decide) (by decide)).1⟩

end WriteAll
