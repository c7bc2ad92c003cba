import RemoteTable.Descriptors
import RemoteTable.Connect
import RemoteTable.Dispatch
import RemoteTable.Server

/-!
# The server from its command line to its end

`main` of `table_server.c` with `network_server_init` and `table_skel_init`: the
port comes out of `atoi` and a cast to `short`, the table has ten lists, and every
connection takes a descriptor that nothing closes. When the descriptors are used
up `accept` fails, and a process that neither hangs nor faults before ends.
-/

namespace Lifetime

open CStrings Memory Entries Tables Network Skeleton Server
open Connect (isDigit decimal)

def plus : CChar := ⟨⟨43, by decide⟩, by decide⟩

def minus : CChar := ⟨⟨45, by decide⟩, by decide⟩

/-- A value outside `int` is undefined. -/
def atoi (s : CString) : Except Fault Int :=
  let start := s.dropWhile Dispatch.blank
  let digits := if start.head? = some minus ∨ start.head? = some plus then start.tail else start
  let magnitude : Int := decimal (digits.takeWhile isDigit)
  let value := if start.head? = some minus then -magnitude else magnitude
  if -(2 ^ 31) ≤ value ∧ value < 2 ^ 31 then .ok value else .error .outOfBounds

def int16 (x : Int) : Int := Int.bmod x (2 ^ 16)

def htons (port : Int) : Nat := (port % 2 ^ 16).toNat

/-- What the process finds: its descriptors, what the socket calls return, and the
memory for the table. `socket` says that nothing but a missing descriptor can fail. -/
structure Machine where
  descriptors : Descriptors
  socket : Bool
  bind : Int
  listen : Int
  mem : Option Nat
  array : Option Nat
  each : Nat → Option Nat

/-- The descriptor or -1, the port in the address, and what is open afterwards. -/
def networkServerInit (m : Machine) (port : Int) : Int × Nat × Descriptors :=
  if m.socket then
    match m.descriptors.lowest with
    | none => (-1, htons port, m.descriptors)
    | some sfd =>
      if m.bind < 0 then (-1, htons port, m.descriptors.take)
      else if m.listen < 0 then (-1, htons port, m.descriptors.take)
      else (sfd, htons port, m.descriptors.take)
  else (-1, htons port, m.descriptors)

def tableSkelInit (m : Machine) (lists : Int) : Option Table :=
  tableCreate m.mem m.array m.each lists

variable {σ : Type} (codec : Codec MessageT) (tableGetTable : Table → Option (List (Ptr Entry)))

/-- The loop of `main` with the descriptors that `accept` takes. -/
def serveOpen : Descriptors → List (Connection σ) → Option Table → Except Fault Service
  | _, [], table => .ok ⟨[], table, true⟩
  | d, c :: rest, table => do
    let accepted := c.accepted && d.lowest.isSome
    let turn ← networkMainLoop codec tableGetTable { c with accepted := accepted } table
    if turn.result = -1 then pure ⟨[turn.sent], turn.table, false⟩
    else do
      let later ← serveOpen (if accepted then d.take else d) rest turn.table
      pure ⟨turn.sent :: later.replies, later.table, later.running⟩

/-- Every `exit` of `main`, and the wait in `accept`. -/
inductive Ending where
  | usage
  | invalidPort
  | noSocket
  | noTable
  | failed
  | waiting
  deriving DecidableEq

structure Life where
  ending : Ending
  port : Option Nat
  service : Service
  deriving DecidableEq

/-- A process that has not come to its loop. -/
def ended (ending : Ending) : Life := ⟨ending, none, ⟨[], none, false⟩⟩

def tableServer (m : Machine) (args : List CString) (connections : List (Connection σ)) :
    Except Fault Life :=
  match args with
  | [_, arg] => do
    let value ← atoi arg
    let port := int16 value
    if port = 0 then pure (ended .invalidPort)
    else
      let listening := networkServerInit m port
      if listening.1 = -1 then pure (ended .noSocket)
      else match tableSkelInit m 10 with
        | none => pure (ended .noTable)
        | some table => do
          let service ← serveOpen codec tableGetTable listening.2.2 connections (some table)
          pure ⟨if service.running then .waiting else .failed, some listening.2.1, service⟩
  | _ => pure (ended .usage)

/-- The connections as the first `n` descriptors let them be accepted. -/
def clip : Nat → List (Connection σ) → List (Connection σ)
  | _, [] => []
  | 0, c :: rest => { c with accepted := false } :: rest
  | n + 1, c :: rest => c :: clip n rest

/-- The loop of `main` on a new table and a port, where the first connection beyond the
descriptors is refused. -/
def loopOn (m : Machine) (table : Table) (port : Nat) (connections : List (Connection σ)) :
    Except Fault Life := do
  let service ← serve codec tableGetTable (clip (m.descriptors.room - 1) connections) (some table)
  pure ⟨if service.running then .waiting else .failed, some port, service⟩

variable (σ) in
/-- Everything `main` can do with a command line: it stops before its loop whatever
connections come, or it comes to its loop whatever connections come. -/
inductive Begins (m : Machine) (args : List CString) : Prop
  | undefined (always : ∀ connections : List (Connection σ),
        tableServer codec tableGetTable m args connections = .error .outOfBounds)
  | early (ending : Ending) (other : ending ≠ .waiting)
      (always : ∀ connections : List (Connection σ),
        tableServer codec tableGetTable m args connections = .ok (ended ending))
  | loops {name arg value table} (line : args = [name, arg]) (parsed : atoi arg = .ok value)
      (valid : (value % 2 ^ 16).toNat ≠ 0) (space : 0 < m.descriptors.room)
      (created : tableCreate m.mem m.array m.each 10 = some table)
      (always : ∀ connections : List (Connection σ),
        tableServer codec tableGetTable m args connections =
          loopOn codec tableGetTable m table (value % 2 ^ 16).toNat connections)

/-- Nothing fails before the loop. -/
structure Works (m : Machine) (table : Table) : Prop where
  socket : m.socket = true
  space : 0 < m.descriptors.room
  bound : 0 ≤ m.bind
  listening : 0 ≤ m.listen
  created : tableCreate m.mem m.array m.each 10 = some table

/-- A port from 1 to 65535, in decimal. -/
structure PortNumber (digits : CString) : Prop where
  written : digits ≠ []
  decimals : ∀ c ∈ digits, isDigit c = true
  low : 1 ≤ decimal digits
  high : decimal digits ≤ 65535

section Limits

variable {codec tableGetTable}

theorem networkMainLoop_refused {c : Connection σ} (refused : c.accepted = false)
    (table : Option Table) :
    networkMainLoop codec tableGetTable c table = .ok ⟨-1, none, [], table⟩ := by
  simp [networkMainLoop, refused]

theorem serve_refused {c : Connection σ} (refused : c.accepted = false)
    (rest : List (Connection σ)) (table : Option Table) :
    serve codec tableGetTable (c :: rest) table = .ok ⟨[[]], table, false⟩ := by
  simp [serve, networkMainLoop_refused refused]

/-- The descriptors matter only in that the connections beyond them are refused. -/
theorem serveOpen_eq (d : Descriptors) (connections : List (Connection σ))
    (table : Option Table) : serveOpen codec tableGetTable d connections table =
      serve codec tableGetTable (clip d.room connections) table := by
  induction connections generalizing d table with
  | nil => cases d.room <;> rfl
  | cons c rest ih =>
    cases hlowest : d.lowest with
    | none =>
      have full := (Descriptors.lowest_eq_none_iff d).mp hlowest
      rw [full, clip, serve_refused rfl]
      simp [serveOpen, hlowest, networkMainLoop_refused]
    | some fd =>
      obtain ⟨n, hroom⟩ : ∃ n, d.room = n + 1 := ⟨_, (Descriptors.take_room hlowest).symm⟩
      have less : d.take.room = n := by
        have taken := Descriptors.take_room hlowest
        omega
      rw [hroom, clip]
      cases accepted : c.accepted with
      | false =>
        rw [serve_refused accepted]
        simp [serveOpen, hlowest, accepted, networkMainLoop_refused]
      | true =>
        have same : ({ c with accepted := true } : Connection σ) = c := by
          cases c
          simp_all
        simp only [serveOpen, serve, hlowest, accepted, Option.isSome_some, Bool.and_true, same,
          if_true, ih, less]

theorem serve_clip_bound {n : Nat} {connections : List (Connection σ)} {table : Option Table}
    {service : Service}
    (h : serve codec tableGetTable (clip n connections) table = .ok service) :
    service.replies.length ≤ n + 1 ∧ (service.running = true → connections.length ≤ n) := by
  induction connections generalizing n table service with
  | nil =>
    have start : clip n ([] : List (Connection σ)) = [] := by cases n <;> rfl
    rw [start] at h
    cases h
    simp
  | cons c rest ih =>
    cases n with
    | zero =>
      rw [clip, serve_refused rfl] at h
      cases h
      simp
    | succ n =>
      obtain ⟨turn, hturn, h⟩ := (bind_eq_ok_iff _ _ _).mp h
      split_ifs at h with stopped
      · cases h
        simp
      · obtain ⟨later, hlater, h⟩ := (bind_eq_ok_iff _ _ _).mp h
        cases h
        obtain ⟨short, alive⟩ := ih hlater
        exact ⟨Nat.succ_le_succ short, fun running => Nat.succ_le_succ (alive running)⟩

/-- Connections behind the one that is refused play no part. -/
theorem serve_clip_take {n m : Nat} (beyond : n < m) (connections : List (Connection σ))
    (table : Option Table) : serve codec tableGetTable (clip n (connections.take m)) table =
      serve codec tableGetTable (clip n connections) table := by
  induction connections generalizing n m table with
  | nil => simp
  | cons c rest ih =>
    obtain ⟨m, rfl⟩ := Nat.exists_eq_add_of_lt beyond
    cases n with
    | zero => simp only [Nat.zero_add, List.take_succ_cons, clip, serve_refused]
    | succ n =>
      have later : n < n + m + 1 := by omega
      have count : n + 1 + m + 1 = (n + m + 1) + 1 := by omega
      simp only [count, List.take_succ_cons, clip, serve, ih later]

theorem networkServerInit_spec (m : Machine) (port : Int) :
    (networkServerInit m port).2.1 = htons port ∧ ((networkServerInit m port).1 ≠ -1 →
      (networkServerInit m port).2.2.room + 1 = m.descriptors.room) := by
  unfold networkServerInit
  by_cases socket : m.socket
  · cases hlowest : m.descriptors.lowest with
    | none => simp [socket]
    | some sfd =>
      have taken := Descriptors.take_room hlowest
      by_cases bound : m.bind < 0
      · simp [socket, bound]
      · by_cases listens : m.listen < 0
        · simp [socket, bound, listens]
        · simp [socket, bound, listens, taken]
  · simp [socket]

theorem htons_int16 (x : Int) : htons (int16 x) = (x % 2 ^ 16).toNat := by
  rw [htons, int16, Int.bmod_def]
  split_ifs <;> congr 1 <;> omega

/-- The test for an invalid port is made on the 16 bits that are kept. -/
theorem int16_eq_zero_iff (x : Int) : int16 x = 0 ↔ htons (int16 x) = 0 := by
  rw [htons_int16, int16, Int.bmod_def]
  split_ifs <;> omega

variable {m : Machine} {table : Table}

theorem loopOn_take {k port : Nat} (space : 0 < m.descriptors.room)
    (enough : m.descriptors.room ≤ k) (connections : List (Connection σ)) :
    loopOn codec tableGetTable m table port (connections.take k) =
      loopOn codec tableGetTable m table port connections := by
  rw [loopOn, serve_clip_take (by omega)]
  rfl

theorem loopOn_bound {port : Nat} {connections : List (Connection σ)} {life : Life}
    (space : 0 < m.descriptors.room)
    (run : loopOn codec tableGetTable m table port connections = .ok life) :
    life.service.replies.length ≤ m.descriptors.room ∧
      (life.ending = .waiting → connections.length < m.descriptors.room) := by
  obtain ⟨service, loop, run⟩ := (bind_eq_ok_iff _ _ _).mp run
  cases run
  obtain ⟨short, alive⟩ := serve_clip_bound loop
  constructor
  · exact short.trans (by omega)
  · intro waiting
    cases running : service.running with
    | true =>
      have few := alive running
      omega
    | false => simp [running] at waiting

theorem tableServer_loops {name arg : CString} {value : Int} (parsed : atoi arg = .ok value)
    (valid : int16 value ≠ 0) (opened : (networkServerInit m (int16 value)).1 ≠ -1)
    (created : tableCreate m.mem m.array m.each 10 = some table)
    (connections : List (Connection σ)) :
    tableServer codec tableGetTable m [name, arg] connections =
      loopOn codec tableGetTable m table (value % 2 ^ 16).toNat connections := by
  obtain ⟨sinPort, room⟩ := networkServerInit_spec m (int16 value)
  have left : (networkServerInit m (int16 value)).2.2.room = m.descriptors.room - 1 :=
    Nat.eq_sub_of_add_eq (room opened)
  simp only [tableServer, parsed, ok_bind, valid, if_false, opened, tableSkelInit, created,
    serveOpen_eq, left, sinPort, htons_int16, loopOn]

theorem begins (m : Machine) (args : List CString) :
    Begins σ codec tableGetTable m args := by
  by_cases line : ∃ name arg, args = [name, arg]
  · obtain ⟨name, arg, rfl⟩ := line
    cases parsed : atoi arg with
    | error fault =>
      have undefined : fault = .outOfBounds := by
        unfold atoi at parsed
        dsimp only at parsed
        split_ifs at parsed <;> cases parsed <;> rfl
      subst undefined
      exact .undefined fun _ => by simp [tableServer, parsed]
    | ok value =>
      by_cases invalid : int16 value = 0
      · exact .early .invalidPort (by decide) fun _ => by simp [tableServer, parsed, invalid]
      by_cases closed : (networkServerInit m (int16 value)).1 = -1
      · exact .early .noSocket (by decide) fun _ => by
          simp [tableServer, parsed, invalid, closed]
      cases created : tableSkelInit m 10 with
      | none =>
        exact .early .noTable (by decide) fun _ => by
          simp [tableServer, parsed, invalid, closed, created]
      | some table =>
        have room := (networkServerInit_spec m (int16 value)).2 closed
        have port := mt (int16_eq_zero_iff value).mpr invalid
        rw [htons_int16] at port
        exact .loops rfl parsed port (by omega) created
          (tableServer_loops parsed invalid closed created)
  · refine .early .usage (by decide) fun _ => ?_
    unfold tableServer
    split
    · exact absurd ⟨_, _, rfl⟩ line
    · rfl

/-- A number in decimal is read as that number. -/
theorem atoi_decimal {digits : CString} (written : digits ≠ [])
    (decimals : ∀ c ∈ digits, isDigit c = true) (fits : decimal digits < 2 ^ 31) :
    atoi digits = .ok (decimal digits) := by
  obtain ⟨c, rest, rfl⟩ := List.exists_cons_of_ne_nil written
  have digit := decimals c List.mem_cons_self
  simp only [isDigit, Bool.and_eq_true, decide_eq_true_eq] at digit
  have unsigned : c ≠ minus ∧ c ≠ plus := by
    constructor <;> rintro rfl <;> exact absurd digit (by decide)
  have flush : Dispatch.blank c = false := by
    simp only [Dispatch.blank, Bool.or_eq_false_iff, beq_eq_false_iff_ne, Bool.and_eq_false_iff,
      decide_eq_false_iff_not]
    omega
  have whole : (c :: rest).takeWhile isDigit = c :: rest := List.takeWhile_eq_self_iff.mpr decimals
  simp only [atoi, List.dropWhile_cons, flush, Bool.false_eq_true, if_false, List.head?_cons,
    Option.some.injEq, unsigned.1, unsigned.2, or_self, whole]
  rw [if_pos (by omega)]

/-- On a machine where nothing fails a port number is the port listened on. -/
theorem listens_on {name digits : CString} (works : Works m table) (number : PortNumber digits)
    (connections : List (Connection σ)) :
    tableServer codec tableGetTable m [name, digits] connections =
      loopOn codec tableGetTable m table (decimal digits) connections := by
  obtain ⟨socket, space, bound, listening, created⟩ := works
  obtain ⟨written, decimals, low, high⟩ := number
  have parsed := atoi_decimal written decimals (by omega)
  have port : ((decimal digits : Int) % 2 ^ 16).toNat = decimal digits := by omega
  have valid : int16 (decimal digits) ≠ 0 := by
    rw [Ne, int16_eq_zero_iff, htons_int16, port]
    omega
  obtain ⟨sfd, hlowest⟩ := Option.ne_none_iff_exists'.mp
    (mt (Descriptors.lowest_eq_none_iff m.descriptors).mp space.ne')
  have opened : (networkServerInit m (int16 (decimal digits))).1 ≠ -1 := by
    simp only [networkServerInit, socket, hlowest, not_lt.mpr bound, not_lt.mpr listening,
      if_true, if_false]
    omega
  rw [tableServer_loops parsed valid opened created, port]

end Limits

/-- Of five descriptors three are open. -/
def smallMachine : Machine :=
  ⟨⟨5, {0, 1, 2}⟩, true, 0, 0, some 0, some 1, fun _ => some 2⟩

end Lifetime
