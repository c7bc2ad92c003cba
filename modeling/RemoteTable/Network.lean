import RemoteTable.MessageIO

/-!
# Messages on a connection: `network_server.c` and `network_client.c`

A message goes out as two bytes with the length of its packed form, then that
form. Packing and unpacking are the codec, parameters here. The receiving code
is stated for any way of reading a number of bytes into a buffer; what memory
held before is a parameter as well. A result lists the bytes it was built
from: the two of the length and those handed to the unpacker.
-/

namespace Network

open CStrings Memory ByteBlocks MessageIO

/-- `message__pack`, whose length is `message__get_packed_size`, and `message__unpack`. -/
structure Codec (M : Type) where
  pack : M → List Byte
  unpack : List Byte → Option M

variable {M σ : Type}

/-- The first `sizeof(short)` bytes of an `int`. -/
def lengthBytes (msgSize : Int) : List Byte := [lowByte msgSize, lowByte (msgSize / 256)]

/-- The `short` two bytes stand for. -/
def shortOf (low high : Byte) : Int := Int.bmod (low.val + 256 * high.val) (2 ^ 16)

/-- The length, then the packed message, which has to fit the block of that size. -/
def sendMessage (codec : Codec M) (plan : List WriteOutcome) (msg : M) : Except Fault WriteDone :=
  let msgSize := int32 (codec.pack msg).length
  if msgSize < 0 then .error .nullPointer
  else if msgSize < (codec.pack msg).length then .error .outOfBounds
  else do
    let size ← writeAll plan (lengthBytes msgSize) 2
    if size.result < 0 then pure ⟨-1, size.sent, size.plan⟩
    else do
      let body ← writeAll size.plan (codec.pack msg) msgSize
      if body.result < 0 then pure ⟨-1, size.sent ++ body.sent, body.plan⟩
      else pure ⟨0, size.sent ++ body.sent, body.plan⟩

def networkSend (codec : Codec M) (plan : List WriteOutcome) (msg : M) : Except Fault WriteDone :=
  sendMessage codec plan msg

/-- A function that reads a number of bytes into a buffer, as `read_all` does. -/
abbrev Reader (σ : Type) := σ → Block → Int → Except Fault (ReadDone σ)

structure Received (M σ : Type) where
  message : Option M
  used : List Cell
  rest : σ
  deriving DecidableEq

/-- The first cells of a block, as many as a length says. -/
def load (block : Block) (len : Int) : Except Fault (List Cell) :=
  match block with
  | none => if len = 0 then .ok [] else .error .nullPointer
  | some cells =>
    if 0 ≤ len ∧ len ≤ cells.length then .ok (cells.take len.toNat) else .error .outOfBounds

def cellsLength : List Cell → Int
  | low :: high :: _ => shortOf low.byte high.byte
  | _ => 0

/-- As many bytes as the length says, then the message they unpack to. -/
def receiveBody (codec : Codec M) (body : Nat → Byte) (readBody : Reader σ) (field : List Cell)
    (socket : σ) : Except Fault (Received M σ) := do
  let msgSize := cellsLength field
  let second ← readBody socket (malloc body msgSize) msgSize
  if second.count < 0 then pure ⟨none, field, second.rest⟩
  else do
    let bytes ← load second.buffer msgSize
    pure ⟨codec.unpack (bytes.map Cell.byte), field ++ bytes, second.rest⟩

/-- The length of the message, then the message. -/
def receiveMessage (codec : Codec M) (size body : Nat → Byte) (readSize readBody : Reader σ)
    (socket : σ) : Except Fault (Received M σ) := do
  let first ← readSize socket (malloc size 2) 2
  if first.count < 0 then pure ⟨none, [], first.rest⟩
  else do
    let field ← load first.buffer 2
    receiveBody codec body readBody field first.rest

def networkReceive (codec : Codec M) (size body : Nat → Byte) (readSize readBody : Reader σ)
    (socket : σ) : Except Fault (Received M σ) :=
  receiveMessage codec size body readSize readBody socket

/-- The sending half of `network_send_receive`. -/
def sendRequest (codec : Codec M) (plan : List WriteOutcome) (msg : M) : Except Fault WriteDone :=
  sendMessage codec plan msg

/-- The receiving half of `network_send_receive`. -/
def receiveReply (codec : Codec M) (size body : Nat → Byte) (readSize readBody : Reader σ)
    (socket : σ) : Except Fault (Received M σ) :=
  receiveMessage codec size body readSize readBody socket

/-- What was written, and what was received if that completed. -/
def networkSendReceive (codec : Codec M) (size body : Nat → Byte) (readSize readBody : Reader σ)
    (plan : List WriteOutcome) (socket : σ) (msg : M) :
    Except Fault (WriteDone × Received M σ) := do
  let sent ← sendRequest codec plan msg
  if sent.result < 0 then pure (sent, ⟨none, [], socket⟩)
  else do
    let reply ← receiveReply codec size body readSize readBody socket
    pure (sent, reply)

theorem lowByte_val (x : Int) : ((lowByte x).val : Int) = x % 256 :=
  Int.toNat_of_nonneg (Int.emod_nonneg x (by norm_num))

theorem shortOf_of_val {low high : Byte} {x y : Int} (hlow : (low.val : Int) = x)
    (hhigh : (high.val : Int) = y) : shortOf low high = Int.bmod (x + 256 * y) (2 ^ 16) := by
  subst hlow hhigh
  rfl

/-- Sixteen bits of an `int` are read back, as a signed number. -/
theorem cellsLength_lengthBytes (x : Int) :
    cellsLength (arrived (lengthBytes x)) = Int.bmod x (2 ^ 16) := by
  have hbits : ((2 ^ 16 : Nat) : Int) = 65536 := by norm_num
  have hsum : x % 256 + 256 * (x / 256 % 256) = x % ((2 ^ 16 : Nat) : Int) := by
    rw [hbits]
    omega
  calc
    cellsLength (arrived (lengthBytes x)) = shortOf (lowByte x) (lowByte (x / 256)) := rfl
    _ = Int.bmod (x % 256 + 256 * (x / 256 % 256)) (2 ^ 16) :=
      shortOf_of_val (lowByte_val x) (lowByte_val (x / 256))
    _ = Int.bmod (x % ((2 ^ 16 : Nat) : Int)) (2 ^ 16) := congrArg (Int.bmod · (2 ^ 16)) hsum
    _ = Int.bmod x (2 ^ 16) := Int.emod_bmod x _

/-- Lengths that are a `short`. -/
theorem cellsLength_of_le {x : Int} (lo : 0 ≤ x) (hi : x ≤ 32767) :
    cellsLength (arrived (lengthBytes x)) = x := by
  rw [cellsLength_lengthBytes]
  apply Int.bmod_eq_of_le <;> omega

theorem shortOf_lt (low high : Byte) : shortOf low high < 2 ^ 31 := by
  have hlt := Int.bmod_lt (x := low.val + 256 * high.val) (m := 2 ^ 16) (by norm_num)
  exact hlt.trans (by norm_num)

theorem cellsLength_lt (cells : List Cell) : cellsLength cells < 2 ^ 31 := by
  match cells with
  | [] => simp [cellsLength]
  | [low] => simp [cellsLength]
  | low :: high :: rest => exact shortOf_lt _ _

end Network
