import Mathlib.Algebra.Order.Group.Multiset
import Mathlib.Tactic.Abel
import RemoteTable.Connect
import RemoteTable.Ownership

/-!
# The memory of a connection, from `rtable_connect` to `rtable_disconnect`

The functions of `client_stub.c` and `network_client.c` on an explicit store. The
pointer to the port goes into an `int` and comes back as what the `int` says, and
that is what is freed in the end.
-/

namespace Disconnect

open CStrings Memory CLibrary Ownership
open Connect (colon Net)
open ClientStub (pointerInt)

inductive Block where
  | chars (s : CString)
  | rtable (serverAddress : Option Nat) (serverPort sockfd : Int)
  deriving DecidableEq

abbrev Store := Heap Block

abbrev Image := Multiset (Nat × Block)

/-- Which allocations of `rtable_connect` succeed. -/
structure Copies where
  adrsport : Bool
  hostname : Bool
  port : Bool
  rtable : Bool

def loadChars (σ : Store) (p : Option Nat) : Except Fault CString := do
  match ← σ.load p with
  | .chars s => pure s
  | _ => throw .badBlock

def loadRTable (σ : Store) (p : Option Nat) : Except Fault (Option Nat × Int × Int) := do
  match ← σ.load p with
  | .rtable serverAddress serverPort sockfd => pure (serverAddress, serverPort, sockfd)
  | _ => throw .badBlock

def malloc (ok : Bool) (σ : Store) (b : Block) : Option Nat × Store :=
  if ok then (some σ.next, σ.alloc b) else (none, σ)

def strdup (ok : Bool) (σ : Store) : Option CString → Except Fault (Option Nat × Store)
  | none => throw .nullPointer
  | some s => pure (malloc ok σ (.chars s))

/-- `free` of a null pointer does nothing. -/
def freePointer (σ : Store) : Option Nat → Except Fault Store
  | none => pure σ
  | some a => σ.free a

/-- An `int` taken for a pointer is extended by its sign to 64 bits. -/
def intPointer (v : Int) : Option Nat :=
  if v = 0 then none else some (v % 2 ^ 64).toNat

/-- The `int` that a pointer leaves in `server_port`. -/
def addressInt (p : Option Nat) : Int := pointerInt (p.map fun a => (⟨a, ()⟩ : Ptr Unit))

def networkConnect (net : Net) (σ : Store) (rtable : Option Nat) : Except Fault (Int × Store) := do
  let (serverAddress, serverPort, _) ← loadRTable σ rtable
  let _ ← loadChars σ serverAddress
  if net.socket < 0 then pure (-1, σ)
  else match rtable with
    | none => throw .nullPointer
    | some rtable => do
      let σ ← σ.store rtable (.rtable serverAddress serverPort net.socket)
      if net.connect = -1 then pure (-1, σ) else pure (0, σ)

def rtableConnect (copies : Copies) (net : Net) (σ : Store) (addressPort : CString) :
    Except Fault (Option Nat × Store) :=
  match malloc copies.adrsport σ (.chars addressPort) with
  | (none, _) => throw .nullPointer
  | (some adrsport, σ) => do
    let first := strtok colon addressPort
    let (hostname, σ) ← strdup copies.hostname σ first.1
    let second := strtok colon first.2
    let (port, σ) ← strdup copies.port σ second.1
    match malloc copies.rtable σ (.rtable hostname (addressInt port) (-1)) with
    | (none, _) => throw .nullPointer
    | (some rtable, σ) => do
      let σ ← σ.free adrsport
      let (code, σ) ← networkConnect net σ (some rtable)
      pure (if code = -1 then none else some rtable, σ)

/-- `close` is what the call of that name returns. -/
def rtableDisconnect (close : Int) (σ : Store) (rtable : Option Nat) :
    Except Fault (Int × Store) := do
  let (serverAddress, _, _) ← loadRTable σ rtable
  if close = -1 then pure (-1, σ)
  else do
    let σ ← freePointer σ serverAddress
    let (_, serverPort, _) ← loadRTable σ rtable
    let σ ← freePointer σ (intPointer serverPort)
    let σ ← freePointer σ rtable
    pure (0, σ)

/-- What the client's `main` does with its connection. -/
def connection (copies : Copies) (net : Net) (close : Int) (σ : Store) (addressPort : CString) :
    Except Fault Store := do
  let (rtable, σ) ← rtableConnect copies net σ addressPort
  match rtable with
  | none => pure σ
  | some rtable => do
    let (_, σ) ← rtableDisconnect close σ (some rtable)
    pure σ

section Pointers

theorem addressInt_some (a : Nat) : addressInt (some a) = int32 a := rfl

theorem intPointer_kept {a : Nat} (pos : 0 < a) (low : a < 2 ^ 31) :
    intPointer (addressInt (some a)) = some a := by
  rw [addressInt_some, int32_of_range (by omega) (by omega), intPointer, if_neg (by omega)]
  congr 1
  omega

theorem intPointer_null : intPointer (addressInt none) = none := if_pos rfl

/-- A pointer from 2^31 on does not come back from an `int`, unless it stands in the
last two gigabytes. -/
theorem intPointer_lost {a : Nat} (high : 2 ^ 31 ≤ a) (user : a < 2 ^ 63) :
    intPointer (addressInt (some a)) ≠ some a := by
  rw [addressInt_some, intPointer, int32, Int.bmod_def]
  split_ifs <;> simp only [ne_eq, reduceCtorEq, not_false_eq_true, Option.some.injEq] <;> omega

end Pointers

theorem freePointer_other {σ σ' : Store} {p : Option Nat} {a : Nat}
    (h : freePointer σ p = .ok σ') (other : p ≠ some a) : σ'.cell a = σ.cell a := by
  cases p with
  | none =>
    cases h
    rfl
  | some x =>
    obtain ⟨old, rfl⟩ := Heap.free_eq_ok h
    exact Heap.set_cell_other σ old none fun same => other (congrArg some same.symm)

theorem freed_in_turn {σ1 σ2 σ3 : Store} {p q : Option Nat} (first : freePointer σ1 p = .ok σ2)
    (second : freePointer σ2 q = .ok σ3) : (do
      let σ ← freePointer σ1 p
      let σ' ← freePointer σ q
      pure (0, σ') : Except Fault (Int × Store)) = .ok (0, σ3) := by
  rw [first, ok_bind, second, ok_bind, pure_eq_ok]

section Connecting

variable {σ : Store} {F : Image} {copies : Copies} {net : Net} {s : CString}

/-- The blocks of a connection: the structure, the string of the port, if there was memory
for it, and that of the host. -/
def blocks (n : Nat) (host port : CString) (copied : Bool) (sockfd : Int) : Image :=
  {(if copied then n + 3 else n + 2,
      .rtable (some (n + 1)) (addressInt (if copied then some (n + 2) else none)) sockfd)} +
    ((if copied then {(n + 2, .chars port)} else 0) + {(n + 1, .chars host)})

theorem networkConnect_image (net : Net) {r a : Nat} {port sockfd : Int} {host : CString}
    {m : Image}
    (holds : Exhausts σ ({(r, .rtable (some a) port sockfd)} + ({(a, .chars host)} + m))) :
    ∃ σ' sockfd', networkConnect net σ (some r) =
        .ok (if net.socket < 0 ∨ net.connect = -1 then -1 else 0, σ') ∧
      Exhausts σ' ({(r, .rtable (some a) port sockfd')} + ({(a, .chars host)} + m)) := by
  have fields : loadRTable σ (some r) = .ok (some a, port, sockfd) := by
    simp [loadRTable, holds.owns.load (a := r) (b := .rtable (some a) port sockfd) (by simp)]
  have name : loadChars σ (some a) = .ok host := by
    simp [loadChars, holds.owns.load (a := a) (b := .chars host) (by simp)]
  by_cases failed : net.socket < 0
  · exact ⟨σ, sockfd, by simp [networkConnect, fields, name, failed], holds⟩
  · obtain ⟨σ', hstore, holds', _⟩ :=
      exhausts_tracks.store (.rtable (some a) port net.socket) holds
    refine ⟨σ', net.socket, ?_, holds'⟩
    by_cases unreached : net.connect = -1
    · simp [networkConnect, fields, name, failed, hstore, unreached]
    · simp [networkConnect, fields, name, failed, hstore, unreached]

/-- The last part of `rtable_connect`, behind the allocations. -/
theorem connected_image (net : Net) {n r a : Nat} {port sockfd : Int} {host : CString} {m : Image}
    (holds : Exhausts σ ({(n, .chars s)} + ({(r, .rtable (some a) port sockfd)} +
      ({(a, .chars host)} + m)))) :
    ∃ σ' sockfd', (do
      let σ1 ← σ.free n
      let (code, σ2) ← networkConnect net σ1 (some r)
      pure (if code = -1 then none else some r, σ2)) =
        .ok (if net.socket < 0 ∨ net.connect = -1 then none else some r, σ') ∧
      Exhausts σ' ({(r, .rtable (some a) port sockfd')} + ({(a, .chars host)} + m)) := by
  obtain ⟨σ1, hfree, holds1, _⟩ := exhausts_tracks.free holds
  obtain ⟨σ2, sockfd', hconnect, holds2⟩ := networkConnect_image net holds1
  refine ⟨σ2, sockfd', ?_, holds2⟩
  by_cases failed : net.socket < 0 ∨ net.connect = -1
  · simp [hfree, hconnect, failed]
  · simp [hfree, hconnect, failed]

/-- Without a name `inet_pton` follows a null pointer. -/
theorem nameless_stops {σ0 : Store} {n : Nat} {port sockfd : Int} {out : Option Nat × Store}
    (other : σ0.next ≠ n) : (do
      let σ1 ← (σ0.alloc (.rtable none port sockfd)).free n
      let (code, σ2) ← networkConnect net σ1 (some σ0.next)
      pure (if code = -1 then none else some σ0.next, σ2)) ≠ .ok out := by
  intro run
  obtain ⟨σ1, hfree, run⟩ := (bind_eq_ok_iff _ _ _).mp run
  obtain ⟨_, hconnect, _⟩ := (bind_eq_ok_iff _ _ _).mp run
  obtain ⟨old, rfl⟩ := Heap.free_eq_ok hfree
  have live : ((σ0.alloc (.rtable none port sockfd)).set n old none).cell σ0.next =
      some (.rtable none port sockfd) := by
    rw [Heap.set_cell_other _ _ _ other, Heap.alloc_cell_new]
  have fields : loadRTable ((σ0.alloc (.rtable none port sockfd)).set n old none) (some σ0.next) =
      .ok (none, port, sockfd) := by
    simp [loadRTable, Heap.load_live live]
  simp [networkConnect, fields, loadChars, Heap.load] at hconnect

/-- Memory for everything but perhaps the copy of the port. -/
def Copies.Enough (copies : Copies) : Prop :=
  copies.adrsport = true ∧ copies.hostname = true ∧ copies.rtable = true

theorem rtableConnect_stops {out : Option Nat × Store}
    (run : rtableConnect copies net σ s = .ok out) : copies.Enough ∧
      ∃ host port, (strtok colon s).1 = some host ∧
        (strtok colon (strtok colon s).2).1 = some port := by
  obtain ⟨adrsport, hostname, port, rtable⟩ := copies
  cases adrsport with
  | false => cases run
  | true =>
    simp only [rtableConnect, malloc, if_true] at run
    cases hfirst : (strtok colon s).1 with
    | none => simp [hfirst, strdup] at run
    | some host =>
      cases hsecond : (strtok colon (strtok colon s).2).1 with
      | none => simp [hfirst, hsecond, strdup] at run
      | some second =>
        simp only [hfirst, hsecond, strdup, pure_eq_ok, ok_bind] at run
        cases rtable with
        | false => simp [malloc] at run
        | true =>
          cases hostname with
          | true => exact ⟨⟨rfl, rfl, rfl⟩, host, second, rfl, rfl⟩
          | false =>
            cases port with
            | false => exact absurd run (nameless_stops (Nat.ne_of_gt (Nat.lt_succ_self _)))
            | true => exact absurd run (nameless_stops (by change σ.next + 1 + 1 ≠ σ.next; omega))

/-- The structure and the strings that a connection leaves, whether it came about or not. -/
theorem rtableConnect_image (net : Net) (holds : Exhausts σ F) (enough : copies.Enough)
    {host port : CString}
    (first : (strtok colon s).1 = some host)
    (second : (strtok colon (strtok colon s).2).1 = some port) :
    ∃ σ' sockfd, rtableConnect copies net σ s =
        .ok (if net.socket < 0 ∨ net.connect = -1 then none
          else some (if copies.port then σ.next + 3 else σ.next + 2), σ') ∧
      Exhausts σ' (blocks σ.next host port copies.port sockfd + F) := by
  obtain ⟨adrsport, hostname, copied, rtable⟩ := copies
  obtain ⟨rfl, rfl, rfl⟩ := enough
  have named := exhausts_tracks.alloc (.chars host) (exhausts_tracks.alloc (.chars s) holds)
  simp only [rtableConnect, malloc, if_true, first, second, strdup, pure_eq_ok, ok_bind]
  cases copied with
  | false =>
    have parts : Exhausts (((σ.alloc (.chars s)).alloc (.chars host)).alloc
        (.rtable (some (σ.next + 1)) (addressInt none) (-1))) ({(σ.next, .chars s)} +
          ({(σ.next + 2, .rtable (some (σ.next + 1)) (addressInt none) (-1))} +
            ({(σ.next + 1, .chars host)} + F))) := by
      refine exhausts_tracks.congr (exhausts_tracks.alloc _ named) ?_
      simp only [Heap.alloc_next, Nat.add_assoc, Nat.reduceAdd]
      abel
    obtain ⟨σ', sockfd, run, holds'⟩ := connected_image net parts
    refine ⟨σ', sockfd, run, exhausts_tracks.congr holds' ?_⟩
    simp only [blocks, Bool.false_eq_true, if_false]
    abel
  | true =>
    have parts : Exhausts ((((σ.alloc (.chars s)).alloc (.chars host)).alloc (.chars port)).alloc
          (.rtable (some (σ.next + 1)) (addressInt (some (σ.next + 2))) (-1)))
        ({(σ.next, .chars s)} + ({(σ.next + 3,
          .rtable (some (σ.next + 1)) (addressInt (some (σ.next + 2))) (-1))} +
            ({(σ.next + 1, .chars host)} + ({(σ.next + 2, .chars port)} + F)))) := by
      refine exhausts_tracks.congr (exhausts_tracks.alloc _ (exhausts_tracks.alloc _ named)) ?_
      simp only [Heap.alloc_next, Nat.add_assoc, Nat.reduceAdd]
      abel
    obtain ⟨σ', sockfd, run, holds'⟩ := connected_image net parts
    refine ⟨σ', sockfd, run, exhausts_tracks.congr holds' ?_⟩
    simp only [blocks, if_true]
    abel

/-- Where the blocks are that `rtable_connect` gets. -/
def placed (copies : Copies) (n : Nat) : Connect.Blocks where
  adrsport := if copies.adrsport then some n else none
  hostname := if copies.hostname then some (n + 1) else none
  port := if copies.port then some (n + 2) else none
  rtable := if copies.rtable then some (if copies.port then n + 3 else n + 2) else none

/-- With and without the store the call returns NULL in the same cases. -/
theorem rtableConnect_agrees (σ : Store) :
    (∃ σ', rtableConnect copies net σ s = .ok (none, σ')) ↔
      Connect.rtableConnect (placed copies σ.next) net s = .ok none := by
  obtain ⟨F, exhausts⟩ := exists_exhausts σ
  rw [Connect.rtableConnect_refused_iff]
  constructor
  · rintro ⟨σ', run⟩
    obtain ⟨enough, host, port, first, second⟩ := rtableConnect_stops run
    obtain ⟨_, _, again, _⟩ := rtableConnect_image net exhausts enough first second
    have failed : net.socket < 0 ∨ net.connect = -1 := by
      rw [again] at run
      by_contra made
      simp [made] at run
    obtain ⟨adrsport, hostname, rtable⟩ := enough
    refine ⟨_, Connect.fillRTable_ok_iff.mpr ⟨?_, ?_, host, port, first, second, rfl⟩, ?_, failed⟩
    · simp [placed, adrsport]
    · simp [placed, rtable]
    · simp [placed, hostname]
  · rintro ⟨r, filled, named, failed⟩
    obtain ⟨adrsport, rtable, host, port, first, second, rfl⟩ := Connect.fillRTable_ok_iff.mp filled
    have enough : copies.Enough := by
      refine ⟨?_, ?_, ?_⟩
      · by_contra off
        simp [placed, off] at adrsport
      · by_contra off
        simp [placed, off] at named
      · by_contra off
        simp [placed, off] at rtable
    obtain ⟨σ', _, run, _⟩ := rtableConnect_image net exhausts enough first second
    exact ⟨σ', by rw [run, if_pos failed]⟩

end Connecting

section Disconnecting

variable {σ : Store} {F : Image} {n : Nat} {host port : CString} {copied : Bool}
  {sockfd close : Int}

theorem loadRTable_image {r : Nat} {address : Option Nat} {port sockfd : Int} {m : Image}
    (holds : Exhausts σ ({(r, .rtable address port sockfd)} + m)) :
    loadRTable σ (some r) = .ok (address, port, sockfd) := by
  simp [loadRTable, holds.owns.load (a := r) (b := .rtable address port sockfd) (by simp)]

/-- The address of the structure. -/
def structureAt (n : Nat) (copied : Bool) : Nat := if copied then n + 3 else n + 2

theorem rtableDisconnect_closes (holds : Exhausts σ (blocks n host port copied sockfd + F)) :
    rtableDisconnect (-1) σ (some (structureAt n copied)) = .ok (-1, σ) := by
  rw [blocks, add_assoc] at holds
  have fields := loadRTable_image holds
  simp [rtableDisconnect, structureAt, fields]

/-- The strings of the host, then what `server_port` points to, then the structure. -/
theorem rtableDisconnect_frees (closed : close ≠ -1)
    (holds : Exhausts σ (blocks n host port copied sockfd + F)) :
    ∃ σ1, Exhausts σ1 ({(structureAt n copied, .rtable (some (n + 1))
        (addressInt (if copied then some (n + 2) else none)) sockfd)} +
          ((if copied then {(n + 2, .chars port)} else 0) + F)) ∧
      rtableDisconnect close σ (some (structureAt n copied)) = (do
        let σ2 ← freePointer σ1 (intPointer (addressInt (if copied then some (n + 2) else none)))
        let σ3 ← freePointer σ2 (some (structureAt n copied))
        pure (0, σ3)) := by
  have fields : loadRTable σ (some (structureAt n copied)) = .ok (some (n + 1),
      addressInt (if copied then some (n + 2) else none), sockfd) := by
    rw [blocks, add_assoc] at holds
    exact loadRTable_image holds
  have parts : Exhausts σ ({(n + 1, .chars host)} + ({(structureAt n copied, .rtable (some (n + 1))
      (addressInt (if copied then some (n + 2) else none)) sockfd)} +
        ((if copied then {(n + 2, .chars port)} else 0) + F))) := by
    refine exhausts_tracks.congr holds ?_
    simp only [blocks, structureAt]
    abel
  obtain ⟨σ1, hfree, holds1, _⟩ := exhausts_tracks.free parts
  refine ⟨σ1, holds1, ?_⟩
  simp only [rtableDisconnect, fields, ok_bind, if_neg closed, freePointer, hfree,
    loadRTable_image holds1]

theorem rtableDisconnect_releases (closed : close ≠ -1) (low : copied = true → n + 2 < 2 ^ 31)
    (holds : Exhausts σ (blocks n host port copied sockfd + F)) :
    ∃ σ', rtableDisconnect close σ (some (structureAt n copied)) = .ok (0, σ') ∧
      Exhausts σ' F := by
  obtain ⟨σ1, holds1, run⟩ := rtableDisconnect_frees closed holds
  rw [run]
  cases copied with
  | false =>
    simp only [Bool.false_eq_true, if_false, zero_add] at holds1 ⊢
    obtain ⟨σ2, hfree, holds2, _⟩ := exhausts_tracks.free holds1
    have port : freePointer σ1 (intPointer (addressInt none)) = .ok σ1 := by
      rw [intPointer_null]
      rfl
    exact ⟨σ2, freed_in_turn port hfree, holds2⟩
  | true =>
    have pos : 0 < n + 2 := by omega
    have kept := intPointer_kept pos (low rfl)
    have parts : Exhausts σ1 ({(n + 2, .chars port)} + ({(structureAt n true, .rtable (some (n + 1))
        (addressInt (some (n + 2))) sockfd)} + F)) := by
      refine exhausts_tracks.congr holds1 ?_
      simp only [if_true]
      abel
    obtain ⟨σ2, hfree2, holds2, _⟩ := exhausts_tracks.free parts
    obtain ⟨σ3, hfree3, holds3, _⟩ := exhausts_tracks.free holds2
    have port : freePointer σ1 (intPointer (addressInt (some (n + 2)))) = .ok σ2 := by
      rw [kept]
      exact hfree2
    exact ⟨σ3, freed_in_turn port hfree3, holds3⟩

/-- The copy of the port is never freed when its address does not fit. -/
theorem rtableDisconnect_keeps (closed : close ≠ -1) (high : 2 ^ 31 ≤ n + 2) (user : n + 2 < 2 ^ 63)
    (holds : Exhausts σ (blocks n host port true sockfd + F)) {out : Int × Store}
    (h : rtableDisconnect close σ (some (structureAt n true)) = .ok out) :
    out.2.cell (n + 2) = some (.chars port) := by
  obtain ⟨σ1, holds1, run⟩ := rtableDisconnect_frees closed holds
  rw [run] at h
  obtain ⟨σ2, hport, h⟩ := (bind_eq_ok_iff _ _ _).mp h
  obtain ⟨σ3, hstructure, h⟩ := (bind_eq_ok_iff _ _ _).mp h
  cases h
  have elsewhere : some (structureAt n true) ≠ some (n + 2) := by simp [structureAt]
  calc
    σ3.cell (n + 2) = σ2.cell (n + 2) := freePointer_other hstructure elsewhere
    _ = σ1.cell (n + 2) := freePointer_other hport (intPointer_lost high user)
    _ = some (.chars port) := holds1.owns.cell (by simp)

end Disconnecting

/-- A connection gives back all of its memory exactly if the address had a host and a port,
the allocations, the connection and `close` succeeded, and the copy of the port, if there
was memory for it, stands below 2^31. -/
theorem connection_restores_iff {copies : Copies} {net : Net} {close : Int} {σ0 : Store}
    {s : CString} (user : σ0.next + 2 < 2 ^ 63) :
    (∃ σ, connection copies net close σ0 s = .ok σ ∧ σ.cell = σ0.cell) ↔
      copies.Enough ∧ Connect.TwoSided s ∧ (0 ≤ net.socket ∧ net.connect ≠ -1) ∧ close ≠ -1 ∧
        (copies.port = true → σ0.next + 2 < 2 ^ 31) := by
  obtain ⟨F, exhausts⟩ := exists_exhausts σ0
  have tokens : Connect.TwoSided s ↔ ∃ host port, (strtok colon s).1 = some host ∧
      (strtok colon (strtok colon s).2).1 = some port := by
    rw [Connect.TwoSided, ← strtok_twice_iff]
    simp only [Option.isSome_iff_exists]
    constructor
    · rintro ⟨⟨host, first⟩, port, second⟩
      exact ⟨host, port, first, second⟩
    · rintro ⟨host, port, first, second⟩
      exact ⟨⟨host, first⟩, port, second⟩
  constructor
  · rintro ⟨σ, run, restored⟩
    obtain ⟨⟨p, σ1⟩, connected, run⟩ := (bind_eq_ok_iff _ _ _).mp run
    obtain ⟨enough, host, port, first, second⟩ := rtableConnect_stops connected
    obtain ⟨_, sockfd, again, holds⟩ :=
      rtableConnect_image net exhausts enough first second
    rw [again] at connected
    cases connected
    have left : σ1.cell ≠ σ0.cell := by
      rw [Ne, exhausts.restored_iff holds]
      simp [blocks]
    refine ⟨enough, tokens.mpr ⟨host, port, first, second⟩, ?_⟩
    by_cases failed : net.socket < 0 ∨ net.connect = -1
    · simp only [failed, if_true] at run
      cases run
      exact absurd restored left
    · simp only [failed, if_false] at run
      obtain ⟨out, disconnected, run⟩ := (bind_eq_ok_iff _ _ _).mp run
      cases run
      have reached : 0 ≤ net.socket ∧ net.connect ≠ -1 := by
        rw [not_or] at failed
        exact ⟨not_lt.mp failed.1, failed.2⟩
      have closed : close ≠ -1 := by
        rintro rfl
        have kept := rtableDisconnect_closes holds
        rw [structureAt, disconnected] at kept
        cases kept
        exact left restored
      refine ⟨reached, closed, ?_⟩
      intro copied
      by_contra high
      rw [copied] at holds disconnected
      have lost := rtableDisconnect_keeps closed (not_lt.mp high) user holds disconnected
      rw [restored, σ0.fresh _ (by omega)] at lost
      cases lost
  · rintro ⟨enough, sides, ⟨socket, reached⟩, closed, low⟩
    obtain ⟨host, port, first, second⟩ := tokens.mp sides
    obtain ⟨σ1, sockfd, connected, holds⟩ :=
      rtableConnect_image net exhausts enough first second
    obtain ⟨σ2, disconnected, left⟩ := rtableDisconnect_releases closed low holds
    have made : ¬ (net.socket < 0 ∨ net.connect = -1) := by
      rw [not_or]
      exact ⟨not_lt.mpr socket, reached⟩
    rw [if_neg made] at connected
    refine ⟨σ2, ?_, ?_⟩
    · rw [structureAt] at disconnected
      simp [connection, connected, disconnected]
    · rw [exhausts.restored_iff (by rwa [zero_add] : Exhausts σ2 (0 + F))]

/-- On an empty store every address fits. -/
theorem connection_restores_sample : ∃ σ,
    connection ⟨true, true, true, true⟩ ⟨fun _ => some 0, 3, 0⟩ 0 Heap.empty
      (keyA ++ colon :: keyB) = .ok σ ∧ σ.cell = Heap.empty.cell := by
  have small : (Heap.empty : Store).next + 2 < 2 ^ 31 := by decide
  have user : (Heap.empty : Store).next + 2 < 2 ^ 63 := by decide
  have sides : Connect.TwoSided (keyA ++ colon :: keyB) :=
    ⟨keyA, keyB, rfl, ⟨_, List.mem_cons_self, by decide⟩, ⟨_, List.mem_cons_self, by decide⟩⟩
  exact (connection_restores_iff user).mpr
    ⟨⟨rfl, rfl, rfl⟩, sides, ⟨by decide, by decide⟩, by decide, fun _ => small⟩

end Disconnect
