import RemoteTable.Runs
import RemoteTable.Server

/-!
# One client's session with the server

The client connects once and sends its requests on that connection one after
another. The server's loop accepts anew in every turn. Steps of the two
interleave freely; where a call can fail, or an allocation can, the step says
how it ends. A server that exits, or dies in `invoke`, closes the connection.
-/

namespace Session

open CStrings Memory Entries Tables MessageIO Network Skeleton Server Runs

/-- Where the server is in its loop. -/
inductive Phase where
  | accepting
  | receiving
  | invoking (msg : MessageT)
  | sending (msg : MessageT)
  | exited
  deriving DecidableEq

inductive Link where
  | unconnected
  | pending
  | accepted
  deriving DecidableEq

structure State where
  server : Phase
  table : Option Table
  link : Link
  /-- The requests the client has not issued yet. -/
  toSend : List MessageT
  /-- The requests on the connection that the server has not read. -/
  unread : List MessageT
  replies : List MessageT
  /-- The client is in `network_send_receive` and has sent its request. -/
  waiting : Bool

inductive Action where
  | connect
  | request
  | reply
  | hangUp
  | accept (ok : Bool)
  | receive (ok : Bool)
  | invoke (alloc : Alloc)
  | send (ok : Bool)

def start (requests : List MessageT) (table : Option Table) : State :=
  ⟨.accepting, table, .unconnected, requests, [], [], false⟩

variable (tableGetTable : Table → Option (List (Ptr Entry)))

/-- A step that is not enabled is an error. A connection is accepted at most once:
the server neither closes it nor reads from it again after its turn. -/
def step (s : State) : Action → Except Unit (Unit × State)
  | .connect =>
    if s.link = .unconnected ∧ s.server ≠ .exited then .ok ((), { s with link := .pending })
    else .error ()
  | .request => match s.toSend with
    | msg :: rest =>
      if s.link ≠ .unconnected ∧ s.waiting = false then
        .ok ((), { s with toSend := rest, unread := s.unread ++ [msg], waiting := true })
      else .error ()
    | [] => .error ()
  | .reply => match s.replies with
    | _ :: rest =>
      if s.waiting then .ok ((), { s with replies := rest, waiting := false })
      else .error ()
    | [] => .error ()
  | .hangUp =>
    if s.waiting ∧ s.server = .exited then .ok ((), { s with waiting := false })
    else .error ()
  | .accept ok =>
    if s.server = .accepting then
      if ok then
        if s.link = .pending then .ok ((), { s with server := .receiving, link := .accepted })
        else .error ()
      else .ok ((), { s with server := .exited })
    else .error ()
  | .receive ok =>
    if s.server = .receiving then
      if ok then match s.unread with
        | msg :: rest => .ok ((), { s with server := .invoking msg, unread := rest })
        | [] => .error ()
      else .ok ((), { s with server := .exited })
    else .error ()
  | .invoke alloc => match s.server with
    | .invoking msg => match Skeleton.invoke tableGetTable alloc (some msg) s.table with
      | .error _ => .ok ((), { s with server := .exited })
      | .ok done =>
        if done.code < 0 then .ok ((), { s with server := .exited, table := done.table })
        else match done.msg with
          | none => .ok ((), { s with server := .exited, table := done.table })
          | some reply => .ok ((), { s with server := .sending reply, table := done.table })
    | _ => .error ()
  | .send ok => match s.server with
    | .sending reply =>
      if ok then .ok ((), { s with server := .accepting, replies := s.replies ++ [reply] })
      else .ok ((), { s with server := .exited })
    | _ => .error ()

/-- The client waits for the answer to a request that nobody will read: the server
has accepted the connection before and waits for another one. -/
def LeftWaiting (s : State) : Prop :=
  s.waiting = true ∧ s.replies = [] ∧ s.unread ≠ [] ∧ s.link = .accepted ∧ s.server = .accepting

variable {tableGetTable}

/-- The server has read a request of the connection, in this turn or an earlier one. -/
def HasRead (s : State) : Prop :=
  match s.server with
  | .accepting => s.link = .accepted
  | .invoking _ => True
  | .sending _ => True
  | .receiving => False
  | .exited => False

/-- The client of a single request, whose request is the only one there ever is. -/
structure Single (s : State) : Prop where
  one : s.toSend.length + s.unread.length ≤ 1
  read : HasRead s → s.toSend = [] ∧ s.unread = []

-- The request moves from `toSend` to `unread` and is gone once the server has read it.
theorem single_step {s s' : State} {a : Action} {u : Unit} (single : Single s)
    (h : step tableGetTable s a = .ok (u, s')) : Single s' := by
  obtain ⟨one, read⟩ := single
  cases a with
  | connect =>
    simp only [step] at h
    split_ifs at h with enabled
    cases h
    refine ⟨one, ?_⟩
    intro hasRead
    apply read
    cases hs : s.server <;> simp_all [HasRead]
  | request =>
    simp only [step] at h
    split at h
    · rename_i msg rest hsend
      split_ifs at h with enabled
      cases h
      refine ⟨by simp_all; omega, ?_⟩
      intro hasRead
      have none_left := (read hasRead).1
      rw [hsend] at none_left
      cases none_left
    · cases h
  | reply =>
    simp only [step] at h
    split at h
    · split_ifs at h with enabled
      cases h
      exact ⟨one, read⟩
    · cases h
  | hangUp =>
    simp only [step] at h
    split_ifs at h with enabled
    cases h
    exact ⟨one, read⟩
  | accept ok =>
    simp only [step] at h
    split_ifs at h with accepting hok pending
    · cases h
      exact ⟨one, fun hasRead => hasRead.elim⟩
    · cases h
      exact ⟨one, fun hasRead => hasRead.elim⟩
  | receive ok =>
    simp only [step] at h
    split_ifs at h with receiving hok
    · split at h
      · rename_i msg rest hunread
        cases h
        rw [hunread, List.length_cons] at one
        have none_left : s.toSend = [] := List.eq_nil_of_length_eq_zero (by omega)
        have none_unread : rest = [] := List.eq_nil_of_length_eq_zero (by omega)
        exact ⟨by simp [none_left, none_unread], fun _ => ⟨none_left, none_unread⟩⟩
      · cases h
    · cases h
      exact ⟨one, fun hasRead => hasRead.elim⟩
  | invoke alloc =>
    simp only [step] at h
    split at h
    · rename_i msg invoking
      have none_left := read (by simp [HasRead, invoking])
      split at h
      · cases h
        exact ⟨one, fun hasRead => hasRead.elim⟩
      · split_ifs at h with failed
        · cases h
          exact ⟨one, fun hasRead => hasRead.elim⟩
        · split at h
          · cases h
            exact ⟨one, fun hasRead => hasRead.elim⟩
          · cases h
            exact ⟨one, fun _ => none_left⟩
    · cases h
  | send ok =>
    simp only [step] at h
    split at h
    · rename_i reply sending
      have none_left := read (by simp [HasRead, sending])
      split_ifs at h with hok
      · cases h
        exact ⟨one, fun _ => none_left⟩
      · cases h
        exact ⟨one, fun hasRead => hasRead.elim⟩
    · cases h

theorem Single.not_leftWaiting {s : State} (single : Single s) : ¬ LeftWaiting s := by
  rintro ⟨_, _, unread, accepted, accepting⟩
  have hasRead : HasRead s := by simp [HasRead, accepting, accepted]
  exact unread (single.read hasRead).2

/-- With one request, or none, no interleaving leaves the client waiting. -/
theorem single_served {requests : List MessageT} {table : Option Table}
    (one : requests.length ≤ 1) {history : List (Event State Action Unit)} {s : State}
    (run : Run (step tableGetTable) (start requests table) history s) : ¬ LeftWaiting s := by
  have h0 : Single (start requests table) := by
    refine ⟨by simpa [start] using one, ?_⟩
    intro hasRead
    simp [HasRead, start] at hasRead
  exact (run.invariant Single h0 fun _ _ _ _ => single_step).1.not_leftWaiting

section Invoke

variable {s : State} {msg reply : MessageT} {alloc : Alloc} {d : Invoked}

theorem step_invoke_answers (invoking : s.server = .invoking msg)
    (done : invoke tableGetTable alloc (some msg) s.table = .ok d) (code : ¬ d.code < 0)
    (answer : d.msg = some reply) :
    step tableGetTable s (.invoke alloc) =
      .ok ((), { s with server := .sending reply, table := d.table }) := by
  simp only [step, invoking, done, if_neg code, answer]

end Invoke

section Turn

variable {σ : Type} {codec : Codec MessageT} {c : Connection σ} {s : State} {turn : Turn}

/-- A turn of `network_main_loop` is a run of the server's steps. -/
theorem turn_is_run (accepting : s.server = .accepting) (pending : s.link = .pending)
    (oldest : ∀ r msg, c.receive codec = .ok r → r.message = some msg →
      ∃ rest, s.unread = msg :: rest)
    (h : networkMainLoop codec tableGetTable c s.table = .ok turn) :
    ∃ history s', Run (step tableGetTable) s history s' ∧ s'.table = turn.table ∧
      s'.server = (if turn.result = 0 then .accepting else .exited) ∧
      s'.replies = s.replies ++ (if turn.result = 0 then turn.reply.toList else []) := by
  obtain ⟨server, table, link, toSend, unread, replies, waiting⟩ := s
  cases accepting
  cases pending
  have reads : ∀ msg rest, unread = msg :: rest → ∃ history, Run (step tableGetTable)
      ⟨.accepting, table, .pending, toSend, unread, replies, waiting⟩ history
      ⟨.invoking msg, table, .accepted, toSend, rest, replies, waiting⟩ := by
    rintro msg rest rfl
    exact ⟨_, play_run [.accept true, .receive true] .start rfl⟩
  cases networkMainLoop_cases h with
  | refused closed =>
    refine ⟨_, _, play_run [.accept false] .start rfl, rfl, rfl, ?_⟩
    exact (List.append_nil _).symm
  | unread received nothing =>
    refine ⟨_, _, play_run [.accept true, .receive false] .start rfl, rfl, rfl, ?_⟩
    exact (List.append_nil _).symm
  | @failed r msg d received request invoked code =>
    obtain ⟨rest, hunread⟩ := oldest r msg received request
    obtain ⟨history, run⟩ := reads msg rest hunread
    have exits : step tableGetTable
        ⟨.invoking msg, table, .accepted, toSend, rest, replies, waiting⟩ (.invoke c.alloc) =
          .ok ((), ⟨.exited, d.table, .accepted, toSend, rest, replies, waiting⟩) := by
      simp only [step, invoked, if_pos code]
    refine ⟨_, _, run.next exits, invoke_failed invoked code, rfl, ?_⟩
    exact (List.append_nil _).symm
  | @unsent r msg d reply w received request invoked code answer write lost =>
    obtain ⟨rest, hunread⟩ := oldest r msg received request
    obtain ⟨history, run⟩ := reads msg rest hunread
    have invoked := run.next (step_invoke_answers rfl invoked code answer)
    refine ⟨_, _, play_run [.send false] invoked rfl, rfl, rfl, ?_⟩
    exact (List.append_nil _).symm
  | @answered r msg d reply w received request invoked code answer write whole =>
    obtain ⟨rest, hunread⟩ := oldest r msg received request
    obtain ⟨history, run⟩ := reads msg rest hunread
    have invoked := run.next (step_invoke_answers rfl invoked code answer)
    exact ⟨_, _, play_run [.send true] invoked rfl, rfl, rfl, rfl⟩

end Turn

/-- Once the first of two requests is answered, the second one stays unread. -/
theorem second_left_waiting {table : Option Table} {first second : MessageT}
    {rest : List MessageT} {alloc : Alloc} {d : Invoked} {reply : MessageT}
    (done : invoke tableGetTable alloc (some first) table = .ok d)
    (code : ¬ d.code < 0) (answer : d.msg = some reply) :
    ∃ history s, Run (step tableGetTable) (start (first :: second :: rest) table) history s ∧
      LeftWaiting s := by
  have read : ∃ history, Run (step tableGetTable) (start (first :: second :: rest) table) history
      ⟨.invoking first, table, .accepted, second :: rest, [], [], true⟩ :=
    ⟨_, play_run [.connect, .request, .accept true, .receive true] .start rfl⟩
  obtain ⟨history, read⟩ := read
  have invoked := read.next (step_invoke_answers rfl done code answer)
  refine ⟨_, _, play_run [.send true, .reply, .request] invoked rfl, rfl, rfl, ?_, rfl, rfl⟩
  exact List.cons_ne_nil second []

/-- In all runs of all sessions with `n` requests no client is left waiting exactly
when `n` is at most one. -/
theorem never_left_waiting_iff (n : Nat) :
    (∀ requests table history s, requests.length = n →
      Run (step tableGetTable) (start requests table) history s → ¬ LeftWaiting s) ↔ n ≤ 1 := by
  constructor
  · intro served
    by_contra more
    obtain ⟨m, rfl⟩ : ∃ m, n = m + 2 := ⟨n - 2, by omega⟩
    let size : MessageT := ⟨.OC_SIZE, .unset⟩
    have done : invoke tableGetTable ⟨none, none, none⟩ (some size) (some ⟨0, [], rfl⟩) =
        .ok ⟨0, some ⟨.OC_SIZE, .result 0⟩, some ⟨0, [], rfl⟩⟩ := rfl
    have left : ∃ history s, Run (step tableGetTable)
        (start (size :: size :: List.replicate m size) (some ⟨0, [], rfl⟩)) history s ∧
          LeftWaiting s := second_left_waiting done (by decide) rfl
    obtain ⟨history, s, run, left⟩ := left
    exact served _ _ history s (by simp) run left
  · intro one requests table history s hn run
    exact single_served (by omega) run

/-- A client that asks for the size twice. -/
theorem second_request_unread : ∃ t history s,
    tableCreate (some 0) (some 1) (fun _ => some 2) 5 = some t ∧
    play (step fun _ => none)
      [.connect, .request, .accept true, .receive true, .invoke ⟨none, none, none⟩, .send true,
        .reply, .request]
      [] (start [⟨.OC_SIZE, .unset⟩, ⟨.OC_SIZE, .unset⟩] (some t)) = .ok (history, s) ∧
    LeftWaiting s :=
  ⟨_, _, _, rfl, rfl, rfl, rfl, by decide, rfl, rfl⟩

end Session
