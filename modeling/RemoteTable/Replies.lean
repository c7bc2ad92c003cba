import RemoteTable.ListOrder
import RemoteTable.Server

/-!
# What a reply tells about the operation

The same request is carried out on two tables. The reply tells the result if
what the server writes differs whenever the results do. `invoke` returns the
codes of `table_put` and `table_remove` and leaves the message as it was, and
the loop only asks whether the code is negative.
-/

namespace Replies

open CStrings Memory Entries ListOps ListRuns ListOrder Tables ByteBlocks MessageIO Network
open Framing Erasure Skeleton Server

def eraseContent : Content → Content
  | .entry e => .entry (e.map eraseEntry)
  | .data d => .data (d.map eraseData)
  | .table es => .table (es.map (List.map eraseEntry))
  | content => content

/-- What a message says: packing does not see addresses. -/
def eraseMessage (msg : MessageT) : MessageT := { msg with content := eraseContent msg.content }

def eraseReturned : Returned → Returned
  | .data d => .data (d.map eraseData)
  | .entries es => .entries (es.map (List.map eraseEntry))
  | r => r

/-- A put is accepted or fails; a removal finds the key, does not or fails. -/
def outcome (msg : MessageT) (r : Returned) : Returned :=
  match msg.opcode, r with
  | .OC_PUT, .code c => .code (if c < 0 then -1 else 0)
  | _, r => eraseReturned r

/-- What goes back to the client after a result. -/
def said (msg : MessageT) (r : Returned) : Option MessageT :=
  if (place msg r).1 < 0 then none else some (eraseMessage (place msg r).2)

section Codes

variable {alloc : Alloc} {t t' : Table} {c : Int}

/-- A put of this key replaces an entry. -/
def Replaces (alloc : Alloc) (t : Table) (k : CString) : Prop :=
  alloc.mem ≠ none ∧ Reached k (t.chain k)

/-- A put of this key takes a new node. -/
def Inserts (alloc : Alloc) (t : Table) (k : CString) : Prop :=
  alloc.mem ≠ none ∧ alloc.node ≠ none ∧ ¬ Reached k (t.chain k)

theorem put_code {k : Ptr CString} {v : Ptr Data}
    (h : tablePut alloc.mem alloc.node t (some k) (some v) = .ok (c, t')) :
    c = 1 ∧ Replaces alloc t k.obj ∨ c = 0 ∧ Inserts alloc t k.obj ∨
      c = -1 ∧ ¬ Replaces alloc t k.obj ∧ ¬ Inserts alloc t k.obj := by
  by_cases range : InRange t k.obj
  · rw [tablePut_eq range, Except.ok.injEq, Prod.mk.injEq] at h
    obtain ⟨rfl, _⟩ := h
    cases hmem : alloc.mem with
    | none =>
      refine Or.inr (Or.inr ⟨rfl, ?_, ?_⟩)
      · exact fun replaces => replaces.1 hmem
      · exact fun inserts => inserts.1 hmem
    | some a =>
      have some_mem : alloc.mem ≠ none := by simp [hmem]
      have created : entryCreate (some a) (some k) (some v) = some ⟨a, ⟨some k, some v⟩⟩ := rfl
      rw [created]
      rcases listAdd_code (created_key created) alloc.node (t.chain k.obj) with
        ⟨hcode, reached⟩ | ⟨hcode, node, reached⟩ | ⟨hcode, node, reached⟩
      · exact Or.inl ⟨hcode, some_mem, reached⟩
      · exact Or.inr (Or.inl ⟨hcode, some_mem, node, reached⟩)
      · refine Or.inr (Or.inr ⟨hcode, ?_, ?_⟩)
        · exact fun replaces => reached replaces.2
        · exact fun inserts => inserts.2.1 node
  · rw [tablePut_out_of_range range] at h
    cases h

theorem remove_code {k : CString} (h : tableRemove t (some k) = .ok (c, t')) :
    c = 0 ∧ k ∈ (t.chain k).keys ∨ c = 1 ∧ k ∉ (t.chain k).keys := by
  by_cases range : InRange t k
  · rw [tableRemove_eq range] at h
    obtain ⟨⟨code, list⟩, hremove, h⟩ := (bind_eq_ok_iff _ _ _).mp h
    cases h
    rcases listRemove_entries hremove with ⟨rfl, _, erased⟩ | ⟨rfl, _, absent⟩
    · refine Or.inl ⟨rfl, ?_⟩
      obtain ⟨old, hold, perm⟩ := erased.perm
      rw [keys_eq]
      exact List.mem_filterMap.mpr ⟨old, perm.mem_iff.mpr List.mem_cons_self, hold⟩
    · exact Or.inr ⟨rfl, absent⟩
  · rw [tableRemove_out_of_range range] at h
    cases h

end Codes

section Results

variable {tableGetTable : Table → Option (List (Ptr Entry))} {a1 a2 : Alloc} {msg : MessageT}
  {t1 t2 t1' t2' : Table} {r1 r2 : Returned}

/-- A removal of a key that only one of the tables has on its chain. -/
def DelLost (msg : MessageT) (t1 t2 : Table) : Prop :=
  ∃ k, msg = ⟨.OC_DEL, .key (some k)⟩ ∧ ¬ (k ∈ (t1.chain k).keys ↔ k ∈ (t2.chain k).keys)

/-- A put that replaces an entry in one table and adds one to the other. -/
def PutLost (msg : MessageT) (a1 a2 : Alloc) (t1 t2 : Table) : Prop :=
  ∃ addr k v, msg = ⟨.OC_PUT, .entry (some ⟨addr, ⟨some k, some v⟩⟩)⟩ ∧
    (Replaces a1 t1 k.obj ∧ Inserts a2 t2 k.obj ∨ Inserts a1 t1 k.obj ∧ Replaces a2 t2 k.obj)

theorem not_delLost (h : msg.opcode ≠ .OC_DEL) : ¬ DelLost msg t1 t2 := by
  rintro ⟨k, rfl, _⟩
  exact h rfl

theorem not_putLost (h : msg.opcode ≠ .OC_PUT) : ¬ PutLost msg a1 a2 t1 t2 := by
  rintro ⟨addr, k, v, rfl, _⟩
  exact h rfl

/-- The reply to a put says no more than whether it was accepted. -/
theorem said_put {content : Content} {c1 c2 : Int} :
    said ⟨.OC_PUT, content⟩ (.code c1) = said ⟨.OC_PUT, content⟩ (.code c2) ↔
      (c1 < 0 ↔ c2 < 0) := by
  by_cases h1 : c1 < 0 <;> by_cases h2 : c2 < 0 <;> simp [said, place, h1, h2]

/-- What `said` keeps of a put, and of its code. -/
theorem put_tells
    (call1 : called tableGetTable a1 msg t1 = some (.ok (r1, t1')))
    (call2 : called tableGetTable a2 msg t2 = some (.ok (r2, t2'))) (hop : msg.opcode = .OC_PUT) :
    (said msg r1 = said msg r2 → outcome msg r1 = outcome msg r2) ∧
    ((said msg r1 = said msg r2 → eraseReturned r1 = eraseReturned r2) ↔
      ¬ PutLost msg a1 a2 t1 t2) := by
  obtain ⟨opcode, content⟩ := msg
  cases hop
  obtain ⟨e, c1, rfl, rfl, put1⟩ := put_returned call1
  obtain ⟨e', c2, he, rfl, put2⟩ := put_returned call2
  cases he
  rw [said_put]
  constructor
  · intro same
    simp only [outcome, same]
  · obtain ⟨addr, key, value⟩ := e
    match key, value with
    | none, _ =>
      cases put1
      cases put2
      simp [PutLost]
    | some k, none =>
      cases put1
      cases put2
      simp [PutLost]
    | some k, some v =>
      have lost : PutLost ⟨.OC_PUT, .entry (some ⟨addr, ⟨some k, some v⟩⟩)⟩ a1 a2 t1 t2 ↔
          Replaces a1 t1 k.obj ∧ Inserts a2 t2 k.obj ∨
            Inserts a1 t1 k.obj ∧ Replaces a2 t2 k.obj := by
        constructor
        · rintro ⟨addr', k', v', hmsg, h⟩
          cases hmsg
          exact h
        · exact fun h => ⟨addr, k, v, rfl, h⟩
      have only1 : ¬ (Replaces a1 t1 k.obj ∧ Inserts a1 t1 k.obj) := fun h => h.2.2.2 h.1.2
      have only2 : ¬ (Replaces a2 t2 k.obj ∧ Inserts a2 t2 k.obj) := fun h => h.2.2.2 h.1.2
      rw [lost]
      simp only [eraseReturned, Returned.code.injEq]
      rcases put_code put1 with ⟨rfl, h1⟩ | ⟨rfl, h1⟩ | ⟨rfl, h1, h1'⟩ <;>
        rcases put_code put2 with ⟨rfl, h2⟩ | ⟨rfl, h2⟩ | ⟨rfl, h2, h2'⟩ <;> simp_all

/-- The reply to a removal is the request, whatever the code. -/
theorem remove_tells
    (call1 : called tableGetTable a1 msg t1 = some (.ok (r1, t1')))
    (call2 : called tableGetTable a2 msg t2 = some (.ok (r2, t2'))) (hop : msg.opcode = .OC_DEL) :
    (said msg r1 = said msg r2 → eraseReturned r1 = eraseReturned r2) ↔ ¬ DelLost msg t1 t2 := by
  obtain ⟨opcode, content⟩ := msg
  cases hop
  obtain ⟨key, c1, rfl, rfl, remove1⟩ := remove_returned call1
  obtain ⟨key', c2, hkey, rfl, remove2⟩ := remove_returned call2
  cases hkey
  cases key with
  | none =>
    cases remove1
    cases remove2
    simp [DelLost]
  | some k =>
    have lost : DelLost ⟨.OC_DEL, .key (some k)⟩ t1 t2 ↔
        ¬ (k ∈ (t1.chain k).keys ↔ k ∈ (t2.chain k).keys) := by
      constructor
      · rintro ⟨k', hmsg, h⟩
        cases hmsg
        exact h
      · exact fun h => ⟨k, rfl, h⟩
    rw [lost]
    rcases remove_code remove1 with ⟨rfl, h1⟩ | ⟨rfl, h1⟩ <;>
      rcases remove_code remove2 with ⟨rfl, h2⟩ | ⟨rfl, h2⟩ <;>
      simp [said, place, eraseReturned, h1, h2]

/-- The other results are put into the message. -/
theorem filled_tells
    (call1 : called tableGetTable a1 msg t1 = some (.ok (r1, t1')))
    (call2 : called tableGetTable a2 msg t2 = some (.ok (r2, t2')))
    (put : msg.opcode ≠ .OC_PUT) (del : msg.opcode ≠ .OC_DEL) (same : said msg r1 = said msg r2) :
    eraseReturned r1 = eraseReturned r2 := by
  obtain ⟨opcode, content⟩ := msg
  cases opcode with
  | OC_PUT => exact absurd rfl put
  | OC_DEL => exact absurd rfl del
  | OC_GET =>
    obtain ⟨key1, d1, _, rfl, rfl, _⟩ := get_returned call1
    obtain ⟨key2, d2, _, rfl, rfl, _⟩ := get_returned call2
    simpa [said, place, eraseMessage, eraseContent, eraseReturned] using same
  | OC_SIZE =>
    cases call1
    cases call2
    simpa [said, place, eraseMessage, eraseContent, eraseReturned] using same
  | OC_GETKEYS =>
    cases call1
    cases call2
    simpa [said, place, eraseMessage, eraseContent, eraseReturned] using same
  | OC_GETTABLE =>
    cases call1
    cases call2
    simpa [said, place, eraseMessage, eraseContent, eraseReturned] using same
  | other code => cases call1

theorem outcome_eq (put : msg.opcode ≠ .OC_PUT) (r : Returned) :
    outcome msg r = eraseReturned r := by
  unfold outcome
  split
  · rename_i hop
    exact absurd hop put
  · rfl

end Results

section Turns

variable {σ : Type} {codec : Codec MessageT} {tableGetTable : Table → Option (List (Ptr Entry))}
  {c c1 c2 : Connection σ} {msg : MessageT} {t t1 t2 : Table} {r r1 r2 : Returned}
  {turn turn1 turn2 : Turn}

/-- The server with table `t` receives a request with a known opcode on a connection;
the table function returns `r`, and if there is a reply it is sent. -/
structure Answers (codec : Codec MessageT) (tableGetTable : Table → Option (List (Ptr Entry)))
    (c : Connection σ) (msg : MessageT) (t : Table) (r : Returned) (turn : Turn) : Prop where
  accepted : c.accepted = true
  received : ∃ q, c.receive codec = .ok q ∧ q.message = some msg
  returned : ∃ t', called tableGetTable c.alloc msg t = some (.ok (r, t'))
  turned : networkMainLoop codec tableGetTable c (some t) = .ok turn
  sent : turn.reply ≠ none → turn.result = 0

/-- Either nothing is written, or the message with the result in its place. -/
theorem Answers.written (answers : Answers codec tableGetTable c msg t r turn) :
    (place msg r).1 < 0 ∧ turn.reply = none ∧ turn.sent = [] ∨
    ¬ (place msg r).1 < 0 ∧ turn.reply = some (place msg r).2 ∧
      turn.sent = lengthBytes (codec.pack (place msg r).2).length ++
        codec.pack (place msg r).2 := by
  obtain ⟨accepted, ⟨q, received, request⟩, ⟨t', returned⟩, turned, sent⟩ := answers
  have hinvoke := invoke_called tableGetTable c.alloc msg t returned
  rw [ok_bind, pure_eq_ok] at hinvoke
  cases networkMainLoop_cases turned with
  | refused closed => simp [closed] at accepted
  | unread received' nothing =>
    cases received.symm.trans received'
    cases request.symm.trans nothing
  | failed received' request' invoked code =>
    cases received.symm.trans received'
    cases request.symm.trans request'
    cases hinvoke.symm.trans invoked
    exact Or.inl ⟨code, rfl, rfl⟩
  | unsent _ _ _ _ _ _ _ => simp at sent
  | answered received' request' invoked code answer write whole =>
    cases received.symm.trans received'
    cases request.symm.trans request'
    cases hinvoke.symm.trans invoked
    cases answer
    obtain ⟨_, _, hsent⟩ := sendMessage_sent write whole
    exact Or.inr ⟨code, rfl, hsent⟩

/-- Packing gives two replies the same bytes exactly when they say the same. -/
def PacksApart (codec : Codec MessageT) (turn1 turn2 : Turn) : Prop :=
  ∀ reply1 reply2, turn1.reply = some reply1 → turn2.reply = some reply2 →
    (codec.pack reply1 = codec.pack reply2 ↔ eraseMessage reply1 = eraseMessage reply2)

theorem sent_eq_iff (answers1 : Answers codec tableGetTable c1 msg t1 r1 turn1)
    (answers2 : Answers codec tableGetTable c2 msg t2 r2 turn2)
    (packs : PacksApart codec turn1 turn2) :
    turn1.sent = turn2.sent ↔ said msg r1 = said msg r2 := by
  rcases answers1.written with ⟨h1, reply1, sent1⟩ | ⟨h1, reply1, sent1⟩ <;>
    rcases answers2.written with ⟨h2, reply2, sent2⟩ | ⟨h2, reply2, sent2⟩
  · simp [said, h1, h2, sent1, sent2]
  · simp [said, h1, h2, sent1, sent2, lengthBytes]
  · simp [said, h1, h2, sent1, sent2, lengthBytes]
  · rw [sent1, sent2, said, if_neg h1, said, if_neg h2, Option.some.injEq,
      ← packs _ _ reply1 reply2]
    constructor
    · intro same
      exact (List.append_inj same rfl).2
    · intro same
      rw [same]

/-- What the server writes tells the result of every operation but a removal: that
a key was found there in one table and not in the other cannot be seen. Nor can it be
seen whether a put replaced an entry. -/
theorem replies_tell_iff (answers1 : Answers codec tableGetTable c1 msg t1 r1 turn1)
    (answers2 : Answers codec tableGetTable c2 msg t2 r2 turn2)
    (packs : PacksApart codec turn1 turn2) :
    ((outcome msg r1 ≠ outcome msg r2 → turn1.sent ≠ turn2.sent) ↔ ¬ DelLost msg t1 t2) ∧
    ((eraseReturned r1 ≠ eraseReturned r2 → turn1.sent ≠ turn2.sent) ↔
      ¬ DelLost msg t1 t2 ∧ ¬ PutLost msg c1.alloc c2.alloc t1 t2) := by
  obtain ⟨t1', call1⟩ := answers1.returned
  obtain ⟨t2', call2⟩ := answers2.returned
  simp only [ne_eq, not_imp_not, sent_eq_iff answers1 answers2 packs]
  by_cases put : msg.opcode = .OC_PUT
  · have del : msg.opcode ≠ .OC_DEL := by simp [put]
    obtain ⟨hput, hcode⟩ := put_tells call1 call2 put
    exact ⟨iff_of_true hput (not_delLost del), by simp [hcode, not_delLost del]⟩
  by_cases del : msg.opcode = .OC_DEL
  · rw [outcome_eq put, outcome_eq put, remove_tells call1 call2 del]
    simp [not_putLost put]
  · rw [outcome_eq put, outcome_eq put]
    have told := filled_tells call1 call2 put del
    exact ⟨iff_of_true told (not_delLost del),
      iff_of_true told ⟨not_delLost del, not_putLost put⟩⟩

end Turns

section Samples

def putSample (k : CString) (t : Table) : Except Fault (Int × Table) :=
  tablePut (some 2) (some 3) t (some ⟨4, k⟩) (some sampleData)

def asksDel : Connection (List Byte) :=
  asks ⟨.OC_DEL, .key (some keyA)⟩ [.accepted 1, .accepted 4]

/-- The reply to a removal is the same with and without the key. -/
theorem removal_not_told : ∃ t t1 t2 turn1 turn2,
    tableCreate (some 0) (some 1) (fun _ => some 2) 1 = some t ∧
    putSample keyB t = .ok (0, t1) ∧ putSample keyA t1 = .ok (0, t2) ∧
    Answers sampleCodec (fun _ => none) asksDel ⟨.OC_DEL, .key (some keyA)⟩ t1 (.code 1) turn1 ∧
    Answers sampleCodec (fun _ => none) asksDel ⟨.OC_DEL, .key (some keyA)⟩ t2 (.code 0) turn2 ∧
    PacksApart sampleCodec turn1 turn2 ∧
    ¬ (outcome ⟨.OC_DEL, .key (some keyA)⟩ (.code 1) ≠
        outcome ⟨.OC_DEL, .key (some keyA)⟩ (.code 0) → turn1.sent ≠ turn2.sent) := by
  have write : networkSend sampleCodec asksDel.plan ⟨.OC_DEL, .key (some keyA)⟩ =
      .ok ⟨0, [5, 0, 8, 30, 34, 1, 97].map lowByte, []⟩ := by decide +kernel
  refine ⟨_, _, _, _, _, rfl, rfl, rfl,
    ⟨rfl, ⟨_, rfl, rfl⟩, ⟨_, rfl⟩, networkMainLoop_answers rfl rfl rfl rfl ?_ rfl write ?_,
      fun _ => rfl⟩,
    ⟨rfl, ⟨_, rfl, rfl⟩, ⟨_, rfl⟩, networkMainLoop_answers rfl rfl rfl rfl ?_ rfl write ?_,
      fun _ => rfl⟩, ?_, ?_⟩
  · decide
  · decide
  · decide
  · decide
  · intro reply1 reply2 h1 h2
    cases h1
    cases h2
    exact iff_of_true rfl rfl
  · intro tells
    exact tells (by decide) rfl

theorem replies_tell_sample : ∃ t t1 turn1 turn2,
    tableCreate (some 0) (some 1) (fun _ => some 2) 1 = some t ∧ putSample keyB t = .ok (0, t1) ∧
    networkMainLoop sampleCodec (fun _ => none) asksSize (some t) = .ok turn1 ∧
    networkMainLoop sampleCodec (fun _ => none) asksSize (some t1) = .ok turn2 ∧
    turn1.sent ≠ turn2.sent := by
  have answers : ∃ t t1 turn1 turn2,
      tableCreate (some 0) (some 1) (fun _ => some 2) 1 = some t ∧ putSample keyB t = .ok (0, t1) ∧
      Answers sampleCodec (fun _ => none) asksSize ⟨.OC_SIZE, .unset⟩ t (.count 0) turn1 ∧
      Answers sampleCodec (fun _ => none) asksSize ⟨.OC_SIZE, .unset⟩ t1 (.count 1) turn2 ∧
      PacksApart sampleCodec turn1 turn2 := by
    have write1 : networkSend sampleCodec asksSize.plan ⟨.OC_SIZE, .result 0⟩ =
        .ok ⟨0, [4, 0, 8, 40, 48, 0].map lowByte, []⟩ := by decide +kernel
    have write2 : networkSend sampleCodec asksSize.plan ⟨.OC_SIZE, .result 1⟩ =
        .ok ⟨0, [4, 0, 8, 40, 48, 2].map lowByte, []⟩ := by decide +kernel
    refine ⟨_, _, _, _, rfl, rfl,
      ⟨rfl, ⟨_, rfl, rfl⟩, ⟨_, rfl⟩, networkMainLoop_answers rfl rfl rfl rfl ?_ rfl write1 ?_,
        fun _ => rfl⟩,
      ⟨rfl, ⟨_, rfl, rfl⟩, ⟨_, rfl⟩, networkMainLoop_answers rfl rfl rfl rfl ?_ rfl write2 ?_,
        fun _ => rfl⟩, ?_⟩
    · decide
    · decide
    · decide
    · decide
    · intro reply1 reply2 h1 h2
      cases h1
      cases h2
      decide +kernel
  obtain ⟨t, t1, turn1, turn2, created, put, answers1, answers2, packs⟩ := answers
  have tells := (replies_tell_iff answers1 answers2 packs).1.mpr (not_delLost (by decide))
  exact ⟨t, t1, turn1, turn2, created, put, answers1.turned, answers2.turned, tells (by decide)⟩

end Samples

end Replies
