import RemoteTable.ByteBlocks

/-!
# The transfer loops of `message.c`

The kernel's side of a transfer is a plan: how each system call ends, and how
many bytes it moves at most. A plan that is used up means the loop has not
returned yet, so a loop that returns does so on some finite plan. The flag of
`read_all` is read before it is written when the first call is interrupted;
its initial value is a parameter.
-/

namespace MessageIO

open CStrings Memory ByteBlocks

/-- What the peer has sent; after it the connection is closed, or fails. -/
structure Incoming where
  bytes : List Byte
  broken : Bool
  deriving DecidableEq

inductive ReadOutcome where
  | interrupted
  | failed
  /-- There are bytes, or the end; at most `k + 1` of the bytes are at hand. -/
  | upTo (k : Nat)
  deriving DecidableEq

/-- The reading end of a connection. -/
structure Socket where
  incoming : Incoming
  plan : List ReadOutcome
  deriving DecidableEq

inductive ReadResult where
  | interrupted
  | failed
  | data (bytes : List Byte)
  deriving DecidableEq

/-- The system call. A count that is negative as an `int` is an impossible size,
and no bytes can be copied to a null pointer. -/
def sysRead (outcome : ReadOutcome) (incoming : Incoming) (buffer : Block) (count : Int) :
    ReadResult × Incoming :=
  if count < 0 then (.failed, incoming)
  else if count = 0 then (.data [], incoming)
  else match outcome with
    | .interrupted => (.interrupted, incoming)
    | .failed => (.failed, incoming)
    | .upTo k =>
      if incoming.bytes = [] then (if incoming.broken then .failed else .data [], incoming)
      else if buffer = none then (.failed, incoming)
      else
        let m := min (k + 1) count.toNat
        (.data (incoming.bytes.take m), { incoming with bytes := incoming.bytes.drop m })

universe u

/-- What a call of `read_all` returns and leaves behind. -/
structure ReadDone (σ : Type u) where
  count : Int
  buffer : Block
  rest : σ
  deriving DecidableEq

/-- The locals of `read_all`. -/
structure Reading where
  incoming : Incoming
  buffer : Block
  fullBuffer : Bool
  totalBytesRead : Nat
  bufferSize : Int

/-- The loop of `read_all`; `continue` goes to the loop's condition. -/
def readLoop (junk : Nat → Byte) (readNBytes : Int) :
    List ReadOutcome → Reading → Except Fault (ReadDone Socket)
  | [], _ => .error .endless
  | outcome :: plan, st =>
    match sysRead outcome st.incoming st.buffer readNBytes with
    | (.interrupted, _) =>
      if st.fullBuffer then readLoop junk readNBytes plan st
      else .ok ⟨st.totalBytesRead, st.buffer, ⟨st.incoming, plan⟩⟩
    | (.failed, _) => .ok ⟨-1, st.buffer, ⟨st.incoming, plan⟩⟩
    | (.data bytes, incoming) => do
      let buffer ← store st.buffer st.totalBytesRead bytes
      let total := st.totalBytesRead + bytes.length
      if (bytes.length : Int) = readNBytes then
        let bufferSize := int32 (st.bufferSize + readNBytes)
        readLoop junk readNBytes plan
          ⟨incoming, realloc junk buffer bufferSize, true, total, bufferSize⟩
      else .ok ⟨total, buffer, ⟨incoming, plan⟩⟩

def readAll (junk : Nat → Byte) (flag : Bool) (socket : Socket) (buffer : Block)
    (readNBytes : Int) : Except Fault (ReadDone Socket) :=
  readLoop junk readNBytes socket.plan ⟨socket.incoming, buffer, flag, 0, readNBytes⟩

/-- A kernel that has bytes or the end at hand again and again, interrupted
`gaps i` times before it next does. -/
def schedule (gaps chunks : Nat → Nat) : Nat → List ReadOutcome
  | 0 => []
  | m + 1 => List.replicate (gaps 0) .interrupted ++
      .upTo (chunks 0) :: schedule (fun i => gaps (i + 1)) (fun i => chunks (i + 1)) m

inductive WriteOutcome where
  | interrupted
  | failed
  /-- The kernel accepts at most `k + 1` bytes. -/
  | accepted (k : Nat)
  deriving DecidableEq

structure WriteDone where
  result : Int
  sent : List Byte
  plan : List WriteOutcome
  deriving DecidableEq

/-- The loop of `write_all`; the buffer is what lies from `buf` on. -/
def writeLoop (bufsize : Int) : List WriteOutcome → List Byte → Int → Except Fault WriteDone
  | [], _, len => if len > 0 then .error .endless else .ok ⟨bufsize, [], []⟩
  | outcome :: plan, buf, len =>
    if len > 0 then match outcome with
      | .interrupted => writeLoop bufsize plan buf len
      | .failed => .ok ⟨-1, [], plan⟩
      | .accepted k =>
        let res := min (k + 1) len.toNat
        if res ≤ buf.length then do
          let rest ← writeLoop bufsize plan (buf.drop res) (len - res)
          pure { rest with sent := buf.take res ++ rest.sent }
        else .error .outOfBounds
    else .ok ⟨bufsize, [], outcome :: plan⟩

def writeAll (plan : List WriteOutcome) (buf : List Byte) (len : Int) : Except Fault WriteDone :=
  writeLoop len plan buf len

end MessageIO
