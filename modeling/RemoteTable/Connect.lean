import RemoteTable.ClientStub
import RemoteTable.CLibrary

/-!
# The server address in `rtable_connect` and `network_connect`

The string `<hostname>:<port>` is taken apart by `strtok`. The port stays a
string there: the pointer to it is stored in the `int` that `network_connect`
takes for the number. Where the allocations put their blocks, and what the
socket calls return, is given from outside; a call on a missing token or block
is a fault.
-/

namespace Connect

open CStrings Memory CLibrary
open ClientStub (pointerInt)

def colon : CChar := ⟨⟨58, by decide⟩, by decide⟩

/-- `struct rtable_t` as `rtable_connect` fills it. -/
structure RTable where
  serverAddress : Option (Ptr CString)
  serverPort : Int
  sockfd : Int

/-- The two fields of `struct sockaddr_in` that are computed. -/
structure SockAddr where
  sinAddr : Nat
  sinPort : Nat

/-- Where the blocks of one call of `rtable_connect` are, if anywhere. -/
structure Blocks where
  adrsport : Option Nat
  hostname : Option Nat
  port : Option Nat
  rtable : Option Nat

/-- What `inet_pton` reads, and what `socket` and `connect` return. -/
structure Net where
  inetPton : CString → Option Nat
  socket : Int
  connect : Int

/-- A copy of no string follows a null pointer. -/
def strdup (block : Option Nat) : Option CString → Except Fault (Option (Ptr CString))
  | none => .error .nullPointer
  | some s => .ok (block.map fun a => ⟨a, s⟩)

/-- The part of `rtable_connect` up to the call of `network_connect`. -/
def fillRTable (blocks : Blocks) (addressPort : CString) : Except Fault RTable :=
  match blocks.adrsport with
  | none => .error .nullPointer
  | some _ => do
    let first := strtok colon addressPort
    let hostname ← strdup blocks.hostname first.1
    let second := strtok colon first.2
    let port ← strdup blocks.port second.1
    match blocks.rtable with
    | none => .error .nullPointer
    | some _ => pure ⟨hostname, pointerInt port, -1⟩

/-- An address that `inet_pton` does not read stays zero. The port is cut to 16 bits. -/
def serverInfo (net : Net) (rtable : RTable) : Except Fault SockAddr :=
  match rtable.serverAddress with
  | none => .error .nullPointer
  | some host => .ok ⟨(net.inetPton host.obj).getD 0, (rtable.serverPort % 2 ^ 16).toNat⟩

/-- The code, the address for `connect` and the structure afterwards. -/
def networkConnect (net : Net) (rtable : RTable) : Except Fault (Int × SockAddr × RTable) := do
  let info ← serverInfo net rtable
  if net.socket < 0 then pure (-1, info, rtable)
  else
    let rtable := { rtable with sockfd := net.socket }
    if net.connect = -1 then pure (-1, info, rtable) else pure (0, info, rtable)

def rtableConnect (blocks : Blocks) (net : Net) (addressPort : CString) :
    Except Fault (Option RTable) := do
  let rtable ← fillRTable blocks addressPort
  let (code, _, rtable) ← networkConnect net rtable
  pure (if code = -1 then none else some rtable)

def isDigit (c : CChar) : Bool := 48 ≤ c.val.val && c.val.val ≤ 57

def decimal (digits : CString) : Nat :=
  digits.foldl (fun value c => 10 * value + (c.val.val - 48)) 0

/-- The form `<hostname>:<port>`. -/
structure Address (s host : CString) (port : Nat) : Prop where
  named : host ≠ []
  colonless : colon ∉ host
  written : ∃ digits, s = host ++ colon :: digits ∧ digits ≠ [] ∧
    (∀ c ∈ digits, isDigit c = true) ∧ decimal digits = port
  range : 1 ≤ port ∧ port ≤ 65535

/-- An address is handed on as it is written, anything else refused. -/
structure Documented (blocks : Blocks) (net : Net) (s : CString) : Prop where
  parsed : ∀ host port, Address s host port → ∃ rtable info p,
    fillRTable blocks s = .ok rtable ∧ rtable.serverAddress = some p ∧ p.obj = host ∧
    rtable.serverPort = port ∧ serverInfo net rtable = .ok info ∧ info.sinPort = port
  refused : (¬ ∃ host port, Address s host port) → rtableConnect blocks net s = .ok none

/-- Something other than colons on both sides of a colon. -/
def TwoSided (s : CString) : Prop :=
  ∃ front back, s = front ++ colon :: back ∧ (∃ x ∈ front, x ≠ colon) ∧ ∃ y ∈ back, y ≠ colon

theorem fillRTable_ok_iff {blocks : Blocks} {s : CString} {rtable : RTable} :
    fillRTable blocks s = .ok rtable ↔
      blocks.adrsport ≠ none ∧ blocks.rtable ≠ none ∧ ∃ host port,
        (strtok colon s).1 = some host ∧ (strtok colon (strtok colon s).2).1 = some port ∧
        rtable = ⟨blocks.hostname.map fun a => ⟨a, host⟩,
          pointerInt (blocks.port.map fun a => ⟨a, port⟩), -1⟩ := by
  simp only [fillRTable]
  cases blocks.adrsport with
  | none => simp
  | some a =>
    cases (strtok colon s).1 with
    | none => simp [strdup]
    | some host =>
      cases (strtok colon (strtok colon s).2).1 with
      | none => simp [strdup]
      | some port =>
        cases blocks.rtable with
        | none => simp [strdup]
        | some b => simp [strdup, eq_comm]

theorem rtableConnect_refused_iff {blocks : Blocks} {net : Net} {s : CString} :
    rtableConnect blocks net s = .ok none ↔ ∃ rtable, fillRTable blocks s = .ok rtable ∧
      rtable.serverAddress ≠ none ∧ (net.socket < 0 ∨ net.connect = -1) := by
  simp only [rtableConnect, bind_eq_ok_iff]
  apply exists_congr
  intro rtable
  apply and_congr_right
  intro _
  cases host : rtable.serverAddress with
  | none => simp [networkConnect, serverInfo, host]
  | some p =>
    by_cases failed : net.socket < 0
    · simp [networkConnect, serverInfo, host, failed]
    · by_cases unreached : net.connect = -1
      · simp [networkConnect, serverInfo, host, failed, unreached]
      · simp [networkConnect, serverInfo, host, failed, unreached]

theorem serverInfo_named (net : Net) {rtable : RTable} {host : Ptr CString}
    (named : rtable.serverAddress = some host) : serverInfo net rtable =
      .ok ⟨(net.inetPton host.obj).getD 0, (rtable.serverPort % 2 ^ 16).toNat⟩ := by
  simp [serverInfo, named]

theorem digits_colonless {digits : CString} (h : ∀ c ∈ digits, isDigit c = true) :
    colon ∉ digits := by
  intro member
  exact absurd (h colon member) (by decide)

theorem Address.tokens {s host : CString} {port : Nat} (address : Address s host port) :
    ∃ digits, (strtok colon s).1 = some host ∧
      (strtok colon (strtok colon s).2).1 = some digits := by
  obtain ⟨digits, rfl, written, decimals, _⟩ := address.written
  refine ⟨digits, ?_, ?_⟩
  · rw [strtok_token address.named address.colonless]
  · rw [strtok_token address.named address.colonless,
      strtok_last written (digits_colonless decimals)]

theorem parsed_iff {blocks : Blocks} (net : Net) {s host : CString} {port : Nat}
    (address : Address s host port) :
    (∃ rtable info p, fillRTable blocks s = .ok rtable ∧ rtable.serverAddress = some p ∧
      p.obj = host ∧ rtable.serverPort = port ∧ serverInfo net rtable = .ok info ∧
      info.sinPort = port) ↔
    (blocks.adrsport ≠ none ∧ blocks.hostname ≠ none ∧ blocks.rtable ≠ none) ∧
      ∃ a, blocks.port = some a ∧ int32 a = port := by
  obtain ⟨digits, first, second⟩ := address.tokens
  obtain ⟨low, high⟩ := address.range
  constructor
  · rintro ⟨rtable, _, p, filled, named, _, number, _, _⟩
    obtain ⟨buffer, block, _, _, _, _, rfl⟩ := fillRTable_ok_iff.mp filled
    refine ⟨⟨buffer, ?_, block⟩, ?_⟩
    · intro missing
      simp [missing] at named
    · cases held : blocks.port with
      | none =>
        have zero : (0 : Int) = port := by simpa [held, pointerInt] using number
        omega
      | some a => exact ⟨a, rfl, by simpa [held, pointerInt] using number⟩
  · rintro ⟨⟨buffer, name, block⟩, a, held, number⟩
    obtain ⟨b, hb⟩ := Option.ne_none_iff_exists'.mp name
    have filled := fillRTable_ok_iff.mpr ⟨buffer, block, host, digits, first, second, rfl⟩
    have kept : pointerInt (some (⟨a, digits⟩ : Ptr CString)) = port := by rw [pointerInt, number]
    simp only [hb, held, Option.map_some, kept] at filled
    refine ⟨_, _, ⟨b, host⟩, filled, rfl, rfl, rfl, serverInfo_named net rfl, ?_⟩
    simp only
    omega

theorem refused_iff (blocks : Blocks) (net : Net) (s : CString) :
    rtableConnect blocks net s = .ok none ↔
      (blocks.adrsport ≠ none ∧ blocks.hostname ≠ none ∧ blocks.rtable ≠ none) ∧
        TwoSided s ∧ (net.socket < 0 ∨ net.connect = -1) := by
  rw [rtableConnect_refused_iff, TwoSided, ← strtok_twice_iff]
  simp only [Option.isSome_iff_exists]
  constructor
  · rintro ⟨rtable, filled, named, failed⟩
    obtain ⟨buffer, block, host, port, first, second, rfl⟩ := fillRTable_ok_iff.mp filled
    refine ⟨⟨buffer, ?_, block⟩, ⟨⟨host, first⟩, port, second⟩, failed⟩
    simpa using named
  · rintro ⟨⟨buffer, name, block⟩, ⟨⟨host, first⟩, port, second⟩, failed⟩
    have filled := fillRTable_ok_iff.mpr ⟨buffer, block, host, port, first, second, rfl⟩
    exact ⟨_, filled, by simpa using name, failed⟩

/-- With memory for its blocks the call does what its comment says exactly when
the low 32 bits of the pointer to the port are the port, or, on other strings,
when there are two parts and the connection fails for a reason of its own. -/
theorem documented_iff (blocks : Blocks) (net : Net) (s : CString) :
    Documented blocks net s ↔
      (blocks.adrsport ≠ none ∧ blocks.hostname ≠ none ∧ blocks.rtable ≠ none) ∧
      (∀ host port, Address s host port → ∃ a, blocks.port = some a ∧ int32 a = port) ∧
      ((¬ ∃ host port, Address s host port) →
        TwoSided s ∧ (net.socket < 0 ∨ net.connect = -1)) := by
  constructor
  · intro documented
    by_cases formed : ∃ host port, Address s host port
    · have parsed := fun host port address =>
        (parsed_iff net address).mp (documented.parsed host port address)
      obtain ⟨host, port, address⟩ := formed
      refine ⟨(parsed host port address).1, fun host port address => (parsed host port address).2,
        fun other => absurd ⟨host, port, address⟩ other⟩
    · have refused := (refused_iff blocks net s).mp (documented.refused formed)
      exact ⟨refused.1, fun host port address => absurd ⟨host, port, address⟩ formed,
        fun _ => refused.2⟩
  · rintro ⟨allocated, number, failed⟩
    constructor
    · intro host port address
      exact (parsed_iff net address).mpr ⟨allocated, number host port address⟩
    · intro formless
      exact (refused_iff blocks net s).mpr ⟨allocated, failed formless⟩

/-- Blocks as `malloc` places them. -/
def sampleBlocks : Blocks := ⟨some 4202496, some 4202528, some 4202560, some 4202592⟩

def reachable : Net := ⟨fun _ => some 0, 3, 0⟩

/-- `h:1` is handed on with a pointer for the port, and `h` ends the client. -/
theorem address_misread :
    Address (text ['h', ':', '1']) (text ['h']) 1 ∧
    (∃ rtable, fillRTable sampleBlocks (text ['h', ':', '1']) = .ok rtable ∧
      rtable.serverPort = 4202560) ∧
    ¬ Documented sampleBlocks reachable (text ['h', ':', '1']) ∧
    rtableConnect sampleBlocks reachable (text ['h']) = .error .nullPointer := by
  have address : Address (text ['h', ':', '1']) (text ['h']) 1 :=
    ⟨by decide, by decide, ⟨text ['1'], rfl, by decide, List.all_eq_true.mp rfl, rfl⟩, by decide⟩
  have filled : fillRTable sampleBlocks (text ['h', ':', '1']) =
      .ok ⟨some ⟨4202528, text ['h']⟩, 4202560, -1⟩ := rfl
  refine ⟨address, ⟨_, filled, rfl⟩, ?_, rfl⟩
  intro documented
  obtain ⟨rtable, _, _, same, _, _, number, _⟩ := documented.parsed _ _ address
  rw [filled] at same
  cases same
  cases number

end Connect
