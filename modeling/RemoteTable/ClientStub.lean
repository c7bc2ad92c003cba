import RemoteTable.Entry

/-!
# The client stubs of `client_stub.c`

A stub allocates the request, hands it to `network_send_receive`, frees it and
makes its result of the pointer that call returned, taken as an `int`. The
outcome of `network_send_receive` is any pointer, NULL included; the store
holds the requests, so that reading a freed one is a fault. Memory for the
request is taken to be there.
-/

namespace ClientStub

open CStrings Memory Entries

structure RTable where
  serverAddress : CString
  serverPort : Int
  sockfd : Int

inductive Opcode where
  | OC_PUT
  | OC_GET
  | OC_DEL
  | OC_SIZE
  | OC_GET_TABLE
  deriving DecidableEq

/-- The union `content`, by the member last written. -/
inductive Content where
  | entry (e : Ptr Entry)
  | key (k : Ptr CString)
  | data (d : Option (Ptr Data))
  | result (c : Int)
  | entries (es : Option (Ptr (List (Ptr Entry))))
  | unset

structure MessageT where
  opcode : Opcode
  content : Content

/-- A member of the union that was not the one written last has no value. -/
def Content.dataMember : Content → Except Fault (Option (Ptr Data))
  | .data d => .ok d
  | _ => .error .badBlock

def Content.resultMember : Content → Except Fault Int
  | .result c => .ok c
  | _ => .error .badBlock

def Content.entriesMember : Content → Except Fault (Option (Ptr (List (Ptr Entry))))
  | .entries es => .ok es
  | _ => .error .badBlock

/-- A pointer stored in an `int` keeps its low 32 bits. -/
def pointerInt {α : Type} : Option (Ptr α) → Int
  | none => 0
  | some p => int32 p.addr

section Stubs

variable (sendReceive : RTable → MessageT → Option (Ptr MessageT))

/-- Allocate the request, send it, free it: the result and where it was. -/
def exchange (σ : Heap MessageT) (rtable : RTable) (request : MessageT) :
    Except Fault (Int × Nat × Heap MessageT) := do
  let msg := σ.next
  let σ := σ.alloc request
  let sent ← σ.load (some msg)
  let result := pointerInt (sendReceive rtable sent)
  let σ ← σ.free msg
  pure (result, msg, σ)

/-- What `rtable_put` and `rtable_del` do with the result. -/
def codeCall (σ : Heap MessageT) (rtable : RTable) (request : MessageT) : Except Fault Int := do
  let (result, _, _) ← exchange sendReceive σ rtable request
  pure result

/-- What the other stubs do: -1 is the error, else the answer is read from `msg`. -/
def readCall {α : Type} (failed : α) (member : Content → Except Fault α) (σ : Heap MessageT)
    (rtable : RTable) (request : MessageT) : Except Fault α := do
  let (result, msg, σ) ← exchange sendReceive σ rtable request
  if result = -1 then pure failed
  else do
    let freed ← σ.load (some msg)
    member freed.content

def rtablePut (σ : Heap MessageT) (rtable : Option RTable) (entry : Option (Ptr Entry)) :
    Except Fault Int :=
  match rtable, entry with
  | some rtable, some entry => codeCall sendReceive σ rtable ⟨.OC_PUT, .entry entry⟩
  | _, _ => .ok (-1)

def rtableGet (σ : Heap MessageT) (rtable : Option RTable) (key : Option (Ptr CString)) :
    Except Fault (Option (Ptr Data)) :=
  match rtable, key with
  | some rtable, some key =>
    readCall sendReceive none Content.dataMember σ rtable ⟨.OC_GET, .key key⟩
  | _, _ => .ok none

def rtableDel (σ : Heap MessageT) (rtable : Option RTable) (key : Option (Ptr CString)) :
    Except Fault Int :=
  match rtable, key with
  | some rtable, some key => codeCall sendReceive σ rtable ⟨.OC_DEL, .key key⟩
  | _, _ => .ok (-1)

def rtableSize (σ : Heap MessageT) (rtable : Option RTable) : Except Fault Int :=
  match rtable with
  | some rtable => readCall sendReceive (-1) Content.resultMember σ rtable ⟨.OC_SIZE, .unset⟩
  | none => .ok (-1)

def rtableGetTable (σ : Heap MessageT) (rtable : Option RTable) :
    Except Fault (Option (Ptr (List (Ptr Entry)))) :=
  match rtable with
  | some rtable =>
    readCall sendReceive none Content.entriesMember σ rtable ⟨.OC_GET_TABLE, .unset⟩
  | none => .ok none

end Stubs

/-- How a reply carries the result of each operation. -/
structure Reading where
  accepted : MessageT → Bool
  count : MessageT → Int
  value : MessageT → Option (Ptr Data)
  entries : MessageT → Option (Ptr (List (Ptr Entry)))

/-- The failure value without a reply, else what the reply carries. -/
def answer {α : Type} (failed : α) (carried : MessageT → α) : Option (Ptr MessageT) → α
  | none => failed
  | some reply => carried reply.obj

def Reading.code (reading : Reading) (reply : MessageT) : Int :=
  if reading.accepted reply then 0 else -1

section Calls

variable (sendReceive : RTable → MessageT → Option (Ptr MessageT)) (σ : Heap MessageT)
  (rtable : RTable) (request : MessageT)

theorem exchange_eq : ∃ σ', exchange sendReceive σ rtable request =
    .ok (pointerInt (sendReceive rtable request), σ.next, σ') ∧ σ'.cell σ.next = none := by
  have live := Heap.alloc_cell_new σ request
  refine ⟨(σ.alloc request).set σ.next (Heap.lt_next live) none, ?_, ?_⟩
  · simp only [exchange, Heap.load_live live, Heap.free_live live, ok_bind, pure_eq_ok]
  · exact Heap.set_cell_self _ _ _ _

theorem codeCall_right_iff (carried : MessageT → Int) :
    codeCall sendReceive σ rtable request =
        .ok (answer (-1) carried (sendReceive rtable request)) ↔
      ∃ reply, sendReceive rtable request = some reply ∧
        int32 reply.addr = carried reply.obj := by
  obtain ⟨σ', hexchange, _⟩ := exchange_eq sendReceive σ rtable request
  rw [codeCall, hexchange]
  cases hreply : sendReceive rtable request with
  | none => simp [pointerInt, answer]
  | some reply => simp [pointerInt, answer]

/-- Only the failure value can come back: any other path reads the freed request. -/
theorem readCall_right_iff {α : Type} (failed : α) (member : Content → Except Fault α)
    (carried : MessageT → α) :
    readCall sendReceive failed member σ rtable request =
        .ok (answer failed carried (sendReceive rtable request)) ↔
      ∃ reply, sendReceive rtable request = some reply ∧ int32 reply.addr = -1 ∧
        carried reply.obj = failed := by
  obtain ⟨σ', hexchange, hfreed⟩ := exchange_eq sendReceive σ rtable request
  rw [readCall, hexchange]
  simp only [ok_bind]
  cases hreply : sendReceive rtable request with
  | none =>
    have hzero : ¬ pointerInt (none : Option (Ptr MessageT)) = -1 := by decide
    rw [if_neg hzero, Heap.load_dead hfreed]
    simp
  | some reply =>
    by_cases hminus : int32 reply.addr = -1
    · rw [if_pos (show pointerInt (some reply) = -1 from hminus)]
      simp [answer, hminus, eq_comm]
    · rw [if_neg (show ¬ pointerInt (some reply) = -1 from hminus), Heap.load_dead hfreed]
      simp [hminus]

end Calls

/-- A stub reports what the server answered exactly when a reply came and its
address happens to be, as an `int`, the code it carries (put and del), or -1
with the failure value carried (get, size and get_table). -/
theorem stubs_report_iff (reading : Reading) (sendReceive : RTable → MessageT → Option (Ptr MessageT))
    (σ : Heap MessageT) (rtable : RTable) (entry : Ptr Entry) (key : Ptr CString) :
    (rtablePut sendReceive σ (some rtable) (some entry) = .ok (answer (-1) reading.code
        (sendReceive rtable ⟨.OC_PUT, .entry entry⟩)) ↔
      ∃ reply, sendReceive rtable ⟨.OC_PUT, .entry entry⟩ = some reply ∧
        int32 reply.addr = reading.code reply.obj) ∧
    (rtableDel sendReceive σ (some rtable) (some key) = .ok (answer (-1) reading.code
        (sendReceive rtable ⟨.OC_DEL, .key key⟩)) ↔
      ∃ reply, sendReceive rtable ⟨.OC_DEL, .key key⟩ = some reply ∧
        int32 reply.addr = reading.code reply.obj) ∧
    (rtableSize sendReceive σ (some rtable) = .ok (answer (-1) reading.count
        (sendReceive rtable ⟨.OC_SIZE, .unset⟩)) ↔
      ∃ reply, sendReceive rtable ⟨.OC_SIZE, .unset⟩ = some reply ∧
        int32 reply.addr = -1 ∧ reading.count reply.obj = -1) ∧
    (rtableGet sendReceive σ (some rtable) (some key) = .ok (answer none reading.value
        (sendReceive rtable ⟨.OC_GET, .key key⟩)) ↔
      ∃ reply, sendReceive rtable ⟨.OC_GET, .key key⟩ = some reply ∧
        int32 reply.addr = -1 ∧ reading.value reply.obj = none) ∧
    (rtableGetTable sendReceive σ (some rtable) = .ok (answer none reading.entries
        (sendReceive rtable ⟨.OC_GET_TABLE, .unset⟩)) ↔
      ∃ reply, sendReceive rtable ⟨.OC_GET_TABLE, .unset⟩ = some reply ∧
        int32 reply.addr = -1 ∧ reading.entries reply.obj = none) :=
  ⟨codeCall_right_iff sendReceive σ rtable _ reading.code,
    codeCall_right_iff sendReceive σ rtable _ reading.code,
    readCall_right_iff sendReceive σ rtable _ (-1) _ reading.count,
    readCall_right_iff sendReceive σ rtable _ none _ reading.value,
    readCall_right_iff sendReceive σ rtable _ none _ reading.entries⟩

def sampleServer : RTable := ⟨keyA, 1024, 3⟩

/-- Replies read as the stubs name the union's members. -/
def sampleReading : Reading where
  accepted := fun reply => match reply.content with
    | .result c => c = 0
    | _ => false
  count := fun reply => match reply.content with
    | .result c => c
    | _ => -1
  value := fun reply => match reply.content with
    | .data d => d
    | _ => none
  entries := fun reply => match reply.content with
    | .entries es => es
    | _ => none

/-- Without a reply a put reports success, an accepted put reports the low bits
of an address, and a count that arrived is never returned. -/
theorem answers_misreported :
    (rtablePut (fun _ _ => none) Heap.empty (some sampleServer) (some ⟨1, ⟨none, none⟩⟩) = .ok 0 ∧
      answer (-1) sampleReading.code none = -1) ∧
    (rtablePut (fun _ _ => some ⟨4096, ⟨.OC_PUT, .result 0⟩⟩) Heap.empty (some sampleServer)
        (some ⟨1, ⟨none, none⟩⟩) = .ok 4096 ∧
      answer (-1) sampleReading.code (some ⟨4096, ⟨.OC_PUT, .result 0⟩⟩) = 0) ∧
    rtableSize (fun _ _ => some ⟨4096, ⟨.OC_SIZE, .result 3⟩⟩) Heap.empty (some sampleServer) =
      .error .deadBlock ∧
    answer (-1) sampleReading.count (some ⟨4096, ⟨.OC_SIZE, .result 3⟩⟩) = 3 :=
  ⟨⟨rfl, rfl⟩, ⟨rfl, rfl⟩, rfl, rfl⟩

end ClientStub
