import RemoteTable.Framing
import RemoteTable.Skeleton

/-!
# The server's loop: `network_main_loop` and `main` of `table_server.c`

One turn of the loop accepts a connection, receives a request, has it carried
out and sends the reply; it returns -1 at the first of these that fails.
`main` repeats turns and exits on -1. How a connection behaves is a parameter:
what comes in and how it is read, and how the writes end.
-/

namespace Server

open CStrings Memory Entries Tables ByteBlocks MessageIO Network Framing Skeleton

/-- A connection as the server meets it. The two buffers hold what memory held. -/
structure Connection (σ : Type) where
  accepted : Bool
  socket : σ
  size : Nat → Byte
  body : Nat → Byte
  readSize : Reader σ
  readBody : Reader σ
  alloc : Alloc
  plan : List WriteOutcome

variable {σ : Type} (codec : Codec MessageT) (tableGetTable : Table → Option (List (Ptr Entry)))

def Connection.receive (c : Connection σ) : Except Fault (Received MessageT σ) :=
  networkReceive codec c.size c.body c.readSize c.readBody c.socket

/-- What a turn returns, hands to `network_send`, writes, and leaves as the table. -/
structure Turn where
  result : Int
  reply : Option MessageT
  sent : List Byte
  table : Option Table
  deriving DecidableEq

def networkMainLoop (c : Connection σ) (table : Option Table) : Except Fault Turn :=
  if c.accepted then do
    let request ← c.receive codec
    match request.message with
    | none => pure ⟨-1, none, [], table⟩
    | some msg => do
      let done ← invoke tableGetTable c.alloc (some msg) table
      if done.code < 0 then pure ⟨-1, none, [], done.table⟩
      else match done.msg with
        | none => .error .nullPointer
        | some reply => do
          let send ← networkSend codec c.plan reply
          if send.result < 0 then pure ⟨-1, some reply, send.sent, done.table⟩
          else pure ⟨0, some reply, send.sent, done.table⟩
  else .ok ⟨-1, none, [], table⟩

/-- What was written to each connection so far, the table, and whether the server
still runs. -/
structure Service where
  replies : List (List Byte)
  table : Option Table
  running : Bool
  deriving DecidableEq

/-- The loop of `main` over the connections that come in. -/
def serve : List (Connection σ) → Option Table → Except Fault Service
  | [], table => .ok ⟨[], table, true⟩
  | c :: rest, table => do
    let turn ← networkMainLoop codec tableGetTable c table
    if turn.result = -1 then pure ⟨[turn.sent], turn.table, false⟩
    else do
      let later ← serve rest turn.table
      pure ⟨turn.sent :: later.replies, later.table, later.running⟩

/-- Everything a turn can do. -/
inductive Turned (c : Connection σ) (table : Option Table) : Turn → Prop
  | refused (closed : c.accepted = false) : Turned c table ⟨-1, none, [], table⟩
  | unread {r} (received : c.receive codec = .ok r) (nothing : r.message = none) :
      Turned c table ⟨-1, none, [], table⟩
  | failed {r msg d} (received : c.receive codec = .ok r) (request : r.message = some msg)
      (invoked : invoke tableGetTable c.alloc (some msg) table = .ok d) (code : d.code < 0) :
      Turned c table ⟨-1, none, [], table⟩
  | unsent {r msg d reply w} (received : c.receive codec = .ok r)
      (request : r.message = some msg)
      (invoked : invoke tableGetTable c.alloc (some msg) table = .ok d) (code : ¬ d.code < 0)
      (answer : d.msg = some reply) (write : networkSend codec c.plan reply = .ok w)
      (lost : w.result < 0) : Turned c table ⟨-1, some reply, w.sent, d.table⟩
  | answered {r msg d reply w} (received : c.receive codec = .ok r)
      (request : r.message = some msg)
      (invoked : invoke tableGetTable c.alloc (some msg) table = .ok d) (code : ¬ d.code < 0)
      (answer : d.msg = some reply) (write : networkSend codec c.plan reply = .ok w)
      (whole : ¬ w.result < 0) : Turned c table ⟨0, some reply, w.sent, d.table⟩

variable {codec tableGetTable} {c : Connection σ} {table : Option Table}

theorem networkMainLoop_cases {turn : Turn}
    (h : networkMainLoop codec tableGetTable c table = .ok turn) :
    Turned codec tableGetTable c table turn := by
  unfold networkMainLoop at h
  by_cases accepted : c.accepted
  · rw [if_pos accepted] at h
    obtain ⟨r, received, h⟩ := (bind_eq_ok_iff _ _ _).mp h
    cases request : r.message with
    | none =>
      simp only [request] at h
      cases h
      exact .unread received request
    | some msg =>
      simp only [request] at h
      obtain ⟨d, invoked, h⟩ := (bind_eq_ok_iff _ _ _).mp h
      by_cases code : d.code < 0
      · rw [if_pos code] at h
        cases h
        rw [invoke_failed invoked code]
        exact .failed received request invoked code
      · rw [if_neg code] at h
        cases answer : d.msg with
        | none => simp [answer] at h
        | some reply =>
          simp only [answer] at h
          obtain ⟨w, write, h⟩ := (bind_eq_ok_iff _ _ _).mp h
          by_cases lost : w.result < 0
          · rw [if_pos lost] at h
            cases h
            exact .unsent received request invoked code answer write lost
          · rw [if_neg lost] at h
            cases h
            exact .answered received request invoked code answer write lost
  · rw [if_neg accepted] at h
    cases h
    exact .refused (by simpa using accepted)

/-- A turn without a failure. -/
theorem networkMainLoop_answers {r : Received MessageT σ} {msg reply : MessageT} {d : Invoked}
    {w : WriteDone} (accepted : c.accepted = true) (received : c.receive codec = .ok r)
    (request : r.message = some msg)
    (invoked : invoke tableGetTable c.alloc (some msg) table = .ok d) (code : ¬ d.code < 0)
    (answer : d.msg = some reply) (write : networkSend codec c.plan reply = .ok w)
    (whole : ¬ w.result < 0) :
    networkMainLoop codec tableGetTable c table = .ok ⟨0, some reply, w.sent, d.table⟩ := by
  simp only [networkMainLoop, accepted, if_true, received, ok_bind, request, invoked, if_neg code,
    answer, write, if_neg whole, pure_eq_ok]

/-- The connections served first decide whether, and with which table, the rest are. -/
theorem serve_append (first rest : List (Connection σ)) (table : Option Table) :
    serve codec tableGetTable (first ++ rest) table = (do
      let before ← serve codec tableGetTable first table
      if before.running then do
        let later ← serve codec tableGetTable rest before.table
        pure ⟨before.replies ++ later.replies, later.table, later.running⟩
      else pure before) := by
  induction first generalizing table with
  | nil =>
    simp only [List.nil_append, serve, ok_bind, if_true]
    cases serve codec tableGetTable rest table <;> rfl
  | cons c first ih =>
    simp only [List.cons_append, serve]
    cases networkMainLoop codec tableGetTable c table with
    | error fault => rfl
    | ok turn =>
      simp only [ok_bind]
      by_cases stopped : turn.result = -1
      · simp only [if_pos stopped]
        rfl
      · simp only [if_neg stopped, ih]
        cases serve codec tableGetTable first turn.table with
        | error fault => rfl
        | ok before =>
          simp only [ok_bind, pure_eq_ok]
          by_cases running : before.running
          · simp only [if_pos running]
            cases serve codec tableGetTable rest before.table <;> rfl
          · simp only [if_neg running]
            rfl

variable (codec tableGetTable)

/-- A connection for which `network_receive` returns NULL, as for bytes that do not
unpack, or `invoke` returns -1, as for an unknown opcode or an operation that fails. -/
inductive Bad (c : Connection σ) (table : Option Table) : Prop
  | opcode {r msg code} (received : c.receive codec = .ok r) (request : r.message = some msg)
      (unknown : msg.opcode = .other code)
  | unread {r} (received : c.receive codec = .ok r) (nothing : r.message = none)
  | failed {r msg d} (received : c.receive codec = .ok r) (request : r.message = some msg)
      (invoked : invoke tableGetTable c.alloc (some msg) table = .ok d) (code : d.code = -1)

variable {codec tableGetTable}

/-- Where `invoke` is called for a bad connection it fails. -/
theorem Bad.code {r : Received MessageT σ} {msg : MessageT} {d : Invoked}
    (bad : Bad codec tableGetTable c table) (received : c.receive codec = .ok r)
    (request : r.message = some msg)
    (invoked : invoke tableGetTable c.alloc (some msg) table = .ok d) : d.code < 0 := by
  cases bad with
  | opcode received' request' unknown =>
    cases received.symm.trans received'
    cases request.symm.trans request'
    rcases invoke_cases invoked with ⟨_, rfl⟩ | ⟨t, out, _, hcall, _⟩
    · simp
    · simp [called, unknown] at hcall
  | unread received' nothing =>
    cases received.symm.trans received'
    cases request.symm.trans nothing
  | failed received' request' invoked' failed =>
    cases received.symm.trans received'
    cases request.symm.trans request'
    cases invoked.symm.trans invoked'
    omega

/-- A bad connection makes the turn return -1, with nothing written and the table as
it was. -/
theorem Bad.turn (bad : Bad codec tableGetTable c table) {turn : Turn}
    (h : networkMainLoop codec tableGetTable c table = .ok turn) :
    turn.result = -1 ∧ turn.sent = [] ∧ turn.table = table := by
  cases networkMainLoop_cases h with
  | refused => exact ⟨rfl, rfl, rfl⟩
  | unread => exact ⟨rfl, rfl, rfl⟩
  | failed => exact ⟨rfl, rfl, rfl⟩
  | unsent received request invoked code => exact absurd (bad.code received request invoked) code
  | answered received request invoked code =>
    exact absurd (bad.code received request invoked) code

/-- A bad connection ends the service where it stands: what was written before it stays
written, the table is as the connections before it left it, and no later connection is
served. -/
theorem bad_connection_ends_service {first rest : List (Connection σ)} {served : Service}
    (run : serve codec tableGetTable (first ++ c :: rest) table = .ok served) :
    ∃ before, serve codec tableGetTable first table = .ok before ∧
      (before.running = false → served = before ∧
        serve codec tableGetTable (first ++ rest) table = .ok before) ∧
      (before.running = true → Bad codec tableGetTable c before.table →
        served = ⟨before.replies ++ [[]], before.table, false⟩ ∧
        ∀ without, serve codec tableGetTable (first ++ rest) table = .ok without ↔
          ∃ later, serve codec tableGetTable rest before.table = .ok later ∧
            without = ⟨before.replies ++ later.replies, later.table, later.running⟩) := by
  rw [serve_append] at run
  obtain ⟨before, hbefore, run⟩ := (bind_eq_ok_iff _ _ _).mp run
  refine ⟨before, hbefore, ?_, ?_⟩
  · intro stopped
    rw [serve_append, hbefore, ok_bind]
    simp only [stopped, Bool.false_eq_true, if_false, pure_eq_ok, Except.ok.injEq] at run ⊢
    exact ⟨run.symm, trivial⟩
  · intro running bad
    rw [if_pos running] at run
    obtain ⟨rest', hrest, run⟩ := (bind_eq_ok_iff _ _ _).mp run
    obtain ⟨turn, hturn, hrest⟩ := (bind_eq_ok_iff _ _ _).mp hrest
    obtain ⟨hresult, nothing, same⟩ := bad.turn hturn
    rw [if_pos hresult] at hrest
    cases hrest
    cases run
    refine ⟨by rw [nothing, same], ?_⟩
    intro without
    rw [serve_append, hbefore, ok_bind, if_pos running, bind_eq_ok_iff]
    simp only [pure_eq_ok, Except.ok.injEq, eq_comm]

def sampleEntry : Ptr Entry := ⟨10, ⟨some ⟨11, keyA⟩, some ListRuns.sampleData⟩⟩

/-- The packed forms of a few messages, by fields: 1 is the opcode, 3 an entry, 4 a key
and 6 a result. -/
def sampleForms : List (List Byte × MessageT) :=
  [([8, 10, 26, 6, 10, 1, 97, 18, 1, 7].map lowByte, ⟨.OC_PUT, .entry (some sampleEntry)⟩),
   ([8, 30, 34, 1, 97].map lowByte, ⟨.OC_DEL, .key (some keyA)⟩),
   ([8, 40].map lowByte, ⟨.OC_SIZE, .unset⟩),
   ([8, 40, 48, 0].map lowByte, ⟨.OC_SIZE, .result 0⟩),
   ([8, 40, 48, 2].map lowByte, ⟨.OC_SIZE, .result 1⟩),
   ([8, 99].map lowByte, ⟨.other 99, .unset⟩)]

def sampleCodec : Codec MessageT where
  pack msg := ((sampleForms.find? fun form => form.2 = msg).map Prod.fst).getD []
  unpack bytes := (sampleForms.find? fun form => form.1 = bytes).map Prod.snd

/-- A client that sends one message. -/
def asks (msg : MessageT) (plan : List WriteOutcome) : Connection (List Byte) where
  accepted := true
  socket := lengthBytes (sampleCodec.pack msg).length ++ sampleCodec.pack msg
  size _ := lowByte 0
  body _ := lowByte 0
  readSize := exactRead
  readBody := exactRead
  alloc := ⟨some 2, some 3, some 4⟩
  plan := plan

def asksSize : Connection (List Byte) := asks ⟨.OC_SIZE, .unset⟩ [.accepted 1, .accepted 3]

def asksUnknown : Connection (List Byte) := asks ⟨.other 99, .unset⟩ []

/-- What a connection at position `i` would not change. -/
def Unaffected (served without : Service) (i : Nat) : Prop :=
  served.table = without.table ∧ served.replies.eraseIdx i = without.replies

/-- After an unknown opcode the next client is not served. -/
theorem bad_connection_felt : ∃ t,
    tableCreate (some 0) (some 1) (fun _ => some 2) 5 = some t ∧
    Bad sampleCodec (fun _ => none) asksUnknown (some t) ∧ ∃ served without,
      serve sampleCodec (fun _ => none) [asksUnknown, asksSize] (some t) = .ok served ∧
      serve sampleCodec (fun _ => none) [asksSize] (some t) = .ok without ∧
      ¬ Unaffected served without 0 := by
  refine ⟨_, rfl, .opcode rfl rfl rfl, _, _, rfl, rfl, ?_⟩
  exact fun unaffected => absurd unaffected.2 (by decide +kernel)

theorem bad_connection_ends_service_sample : ∃ t served before,
    tableCreate (some 0) (some 1) (fun _ => some 2) 5 = some t ∧
    serve sampleCodec (fun _ => none) ([asksSize] ++ asksUnknown :: [asksSize]) (some t) =
      .ok served ∧
    serve sampleCodec (fun _ => none) [asksSize] (some t) = .ok before ∧
    served = ⟨before.replies ++ [[]], before.table, false⟩ := by
  have run : ∃ t served before, tableCreate (some 0) (some 1) (fun _ => some 2) 5 = some t ∧
      serve sampleCodec (fun _ => none) ([asksSize] ++ asksUnknown :: [asksSize]) (some t) =
        .ok served ∧
      serve sampleCodec (fun _ => none) [asksSize] (some t) = .ok before ∧
      before.running = true := ⟨_, _, _, rfl, rfl, rfl, rfl⟩
  obtain ⟨t, served, before, created, run, hbefore, running⟩ := run
  obtain ⟨before', hbefore', _, stops⟩ := bad_connection_ends_service run
  cases hbefore.symm.trans hbefore'
  exact ⟨t, served, before, created, run, hbefore, (stops running (.opcode rfl rfl rfl)).1⟩

end Server
