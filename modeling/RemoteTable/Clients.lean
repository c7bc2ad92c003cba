import RemoteTable.Progress
import RemoteTable.Server

/-!
# Any number of clients and one server

The main loop of `table_server.c` serves connections one after another, one
request each. Clients connect, send a request and wait whenever they like, and
the server meets them in whatever order it accepts. Framing is left to the
modules on messages: here a request is what `network_receive` returns for it, and
a reply is what the server hands to `network_send`.
-/

namespace Clients

open CStrings Memory Entries Tables MessageIO Network Skeleton Server Runs Serving Progress

/-- What a request does: the reply to send, unless the server exits, and the table. -/
def carryOut (tableGetTable : Table → Option (List (Ptr Entry))) (alloc : Alloc) (msg : MessageT)
    (table : Table) : Option MessageT × Table :=
  match invoke tableGetTable alloc (some msg) (some table) with
  | .error _ => (none, table)
  | .ok done => (if done.code < 0 then none else done.msg, done.table.getD table)

variable {ι : Type} [DecidableEq ι] {tableGetTable : Table → Option (List (Ptr Entry))}
  {requests : ι → List MessageT} {t0 : Table} {s : State ι MessageT MessageT Table}
  {history : List (Event (State ι MessageT MessageT Table) (Action ι Alloc)
    (Shown ι MessageT MessageT Alloc))}

/-- Whatever the interleaving, the table is the one left by the requests carried out
one after another. Of a client one request at most is read and carried out. The server
sends a reply only if it is the one `invoke` made of the client's request at its place
in that order, and a request read after a reply was sent comes behind the one replied to. -/
theorem linearizable
    (run : Run (step (carryOut tableGetTable)) (start requests t0) history s) :
    Sequential (carryOut tableGetTable) t0 (executions (shownIn history)) s.store ∧
    (∀ i, (readBy i (shownIn history)).length ≤ 1 ∧
      (executedBy i (shownIn history)).map Execution.request <+: readBy i (shownIn history)) ∧
    (∀ i reply, reply ∈ sentBy i (shownIn history) → ∃ before e after now,
      executions (shownIn history) = before ++ e :: after ∧ e.client = i ∧
        Sequential (carryOut tableGetTable) t0 before now ∧
        (carryOut tableGetTable e.choice e.request now).1 = some reply) ∧
    ∀ later earlier i j, history = later ++ earlier → sentBy i (shownIn earlier) ≠ [] →
      readBy j (shownIn earlier) = [] →
      ∀ e ∈ executions (shownIn history), ∀ d ∈ executions (shownIn history),
        e.client = i → d.client = j → [e, d].Sublist (executions (shownIn history)) := by
  refine ⟨sequential_run run, executed_read run, fun _ _ => sent_at run, ?_⟩
  rintro later earlier i j rfl answered unread e he d hd hei hdj
  exact in_real_time run answered unread he hei hd hdj

def putA : MessageT := ⟨.OC_PUT, .entry (some sampleEntry)⟩

def size : MessageT := ⟨.OC_SIZE, .unset⟩

/-- Both clients wait while one of them is served. -/
def interleaved : List (Action Bool Alloc) :=
  [.connect false, .connect true, .request true, .request false, .accept false, .receive,
    .invoke ⟨some 2, some 3, some 4⟩, .send, .accept true, .receive,
    .invoke ⟨some 2, some 3, some 4⟩, .send, .reply true, .reply false]

theorem linearizable_sample : ∃ t0 history s,
    tableCreate (some 0) (some 1) (fun _ => some 2) 5 = some t0 ∧
    Run (step (carryOut fun _ => none))
      (start (fun last => if last then [size] else [putA]) t0) history s ∧
    Sequential (carryOut fun _ => none) t0 (executions (shownIn history)) s.store ∧
    sentBy true (shownIn history) = [⟨.OC_SIZE, .result 1⟩] ∧ tableSize s.store = 1 := by
  obtain ⟨t0, history, s, created, played, sent, one⟩ : ∃ t0 history s,
      tableCreate (some 0) (some 1) (fun _ => some 2) 5 = some t0 ∧
      play (step (carryOut fun _ => none)) interleaved []
        (start (fun last => if last then [size] else [putA]) t0) = .ok (history, s) ∧
      sentBy true (shownIn history) = [⟨.OC_SIZE, .result 1⟩] ∧ tableSize s.store = 1 :=
    ⟨_, _, _, rfl, rfl, rfl, rfl⟩
  have run := play_run interleaved .start played
  exact ⟨t0, history, s, created, run, (linearizable run).1, sent, one⟩

section MainLoop

variable {σ : Type} {codec : Codec MessageT}

/-- The request a connection brings. -/
def asked (codec : Codec MessageT) (c : Connection σ) : List MessageT :=
  match c.receive codec with
  | .ok r => r.message.toList
  | .error _ => []

/-- The requests of the clients that are served in the order of the list. -/
def askedBy (codec : Codec MessageT) (connections : List (Connection σ)) (k : Nat) :
    List MessageT :=
  match connections[k]? with
  | some c => asked codec c
  | none => []

variable {k : Nat} {init s : State Nat MessageT MessageT Table}
  {history : List (Event (State Nat MessageT MessageT Table) (Action Nat Alloc)
    (Shown Nat MessageT MessageT Alloc))}

/-- A client that has not connected, with its requests. -/
def newcomer (requests : List MessageT) : Client MessageT MessageT :=
  ⟨.unconnected, requests, [], [], false⟩

/-- A newcomer without a request is accepted. -/
theorem accepts (run : Run (step (carryOut tableGetTable)) init history s)
    (accepting : s.server = .accepting) (new : s.client k = newcomer []) :
    ∃ later, Run (step (carryOut tableGetTable)) init (later ++ history)
        ((s.set k ⟨.accepted, [], [], [], false⟩).goes (.receiving k)) ∧
      shownIn later = [.nothing, .nothing] := by
  have connect : step (carryOut tableGetTable) s (.connect k) =
      .ok (.nothing, s.set k ⟨.pending, [], [], [], false⟩) := by
    simp [step, new, newcomer, accepting, Phase.running]
  have accept : step (carryOut tableGetTable) (s.set k ⟨.pending, [], [], [], false⟩) (.accept k) =
      .ok (.nothing, (s.set k ⟨.accepted, [], [], [], false⟩).goes (.receiving k)) := by
    simp [step, accepting]
  exact ⟨[_, _], (run.next connect).next accept, rfl⟩

/-- A newcomer is accepted and its request read. -/
theorem reads {msg : MessageT} (run : Run (step (carryOut tableGetTable)) init history s)
    (accepting : s.server = .accepting) (new : s.client k = newcomer [msg]) :
    ∃ later, Run (step (carryOut tableGetTable)) init (later ++ history)
        ((s.set k ⟨.accepted, [], [], [], true⟩).goes (.invoking k msg)) ∧
      shownIn later = [.nothing, .issued k msg, .nothing, .read k msg] := by
  have connect : step (carryOut tableGetTable) s (.connect k) =
      .ok (.nothing, s.set k ⟨.pending, [msg], [], [], false⟩) := by
    simp [step, new, newcomer, accepting, Phase.running]
  have request : step (carryOut tableGetTable) (s.set k ⟨.pending, [msg], [], [], false⟩)
      (.request k) = .ok (.issued k msg, s.set k ⟨.pending, [], [msg], [], true⟩) := by
    simp [step]
  have accept : step (carryOut tableGetTable) (s.set k ⟨.pending, [], [msg], [], true⟩)
      (.accept k) = .ok (.nothing,
        (s.set k ⟨.accepted, [], [msg], [], true⟩).goes (.receiving k)) := by
    simp [step, accepting]
  have receive : step (carryOut tableGetTable)
      ((s.set k ⟨.accepted, [], [msg], [], true⟩).goes (.receiving k)) .receive =
        .ok (.read k msg, (s.set k ⟨.accepted, [], [], [], true⟩).goes (.invoking k msg)) := by
    simp [step]
  exact ⟨[_, _, _, _], (((run.next connect).next request).next accept).next receive, rfl⟩

theorem invoke_table {alloc : Alloc} {msg : MessageT} {t : Table} {d : Invoked}
    (h : invoke tableGetTable alloc (some msg) (some t) = .ok d) :
    d.table = some (d.table.getD t) := by
  rcases invoke_cases h with ⟨_, rfl⟩ | ⟨t', r, _, _, rfl⟩ <;> rfl

theorem carryOut_failed {alloc : Alloc} {msg : MessageT} {t : Table} {d : Invoked}
    (h : invoke tableGetTable alloc (some msg) (some t) = .ok d) (code : d.code < 0) :
    carryOut tableGetTable alloc msg t = (none, t) := by
  have same := invoke_failed h code
  simp [carryOut, h, code, same]

theorem carryOut_answers {alloc : Alloc} {msg reply : MessageT} {t : Table} {d : Invoked}
    (h : invoke tableGetTable alloc (some msg) (some t) = .ok d) (code : ¬ d.code < 0)
    (answer : d.msg = some reply) :
    carryOut tableGetTable alloc msg t = (some reply, d.table.getD t) := by
  simp [carryOut, h, code, answer]

theorem answers {c : Client MessageT MessageT} {alloc : Alloc} {msg reply : MessageT}
    {d : Invoked} (invoked : invoke tableGetTable alloc (some msg) (some s.store) = .ok d)
    (code : ¬ d.code < 0) (answer : d.msg = some reply) :
    step (carryOut tableGetTable) ((s.set k c).goes (.invoking k msg)) (.invoke alloc) =
      .ok (.executed k msg alloc (some reply),
        ⟨.sending k reply, d.table.getD s.store, (s.set k c).client⟩) := by
  simp [step, carryOut_answers invoked code answer]

/-- How a turn ends for its client. -/
inductive Ended (codec : Codec MessageT) (c : Connection σ) (turn : Turn) :
    Phase Nat MessageT MessageT → List MessageT → Prop
  | exited (result : turn.result = -1) : Ended codec c turn .exited []
  | answered {reply w} (result : turn.result = 0) (write : networkSend codec c.plan reply = .ok w)
      (whole : ¬ w.result < 0) (sent : turn.sent = w.sent) : Ended codec c turn .accepting [reply]

section Ended

variable {c : Connection σ} {turn : Turn} {server : Phase Nat MessageT MessageT}
  {told : List MessageT}

theorem Ended.stopped (ended : Ended codec c turn server told) (result : turn.result = -1) :
    server = .exited ∧ told = [] := by
  cases ended with
  | exited => exact ⟨rfl, rfl⟩
  | answered zero => simp [zero] at result

theorem Ended.goesOn (ended : Ended codec c turn server told) (result : ¬ turn.result = -1) :
    server = .accepting ∧ ∃ reply w, told = [reply] ∧ networkSend codec c.plan reply = .ok w ∧
      ¬ w.result < 0 ∧ turn.sent = w.sent := by
  cases ended with
  | exited failed => exact absurd failed result
  | answered _ write whole sent => exact ⟨rfl, _, _, rfl, write, whole, sent⟩

end Ended

/-- A turn of `network_main_loop` is a run of steps with the next newcomer. -/
theorem turn_runs {c : Connection σ} {turn : Turn}
    (run : Run (step (carryOut tableGetTable)) init history s)
    (accepting : s.server = .accepting) (new : s.client k = newcomer (asked codec c))
    (h : networkMainLoop codec tableGetTable c (some s.store) = .ok turn) :
    ∃ later s', Run (step (carryOut tableGetTable)) init (later ++ history) s' ∧
      turn.table = some s'.store ∧
      (∀ j, j ≠ k → s'.client j = s.client j ∧ sentBy j (shownIn later) = []) ∧
      Ended codec c turn s'.server (sentBy k (shownIn later)) := by
  have asks : ∀ {r msg}, c.receive codec = .ok r → r.message = some msg →
      asked codec c = [msg] := by
    intro r msg received request
    simp [asked, received, request]
  cases networkMainLoop_cases h with
  | refused closed =>
    have refuse : step (carryOut tableGetTable) s .refuse = .ok (.nothing, s.goes .exited) := by
      simp [step, accepting]
    exact ⟨[_], _, run.next refuse, rfl, fun _ _ => ⟨rfl, rfl⟩, .exited rfl⟩
  | @unread r received nothing =>
    have silent : asked codec c = [] := by simp [asked, received, nothing]
    rw [silent] at new
    obtain ⟨later, run, shown⟩ := accepts run accepting new
    have lose : step (carryOut tableGetTable)
        ((s.set k ⟨.accepted, [], [], [], false⟩).goes (.receiving k)) .lose =
          .ok (.nothing, (s.set k ⟨.accepted, [], [], [], false⟩).goes .exited) := by
      simp [step]
    refine ⟨_ :: later, _, run.next lose, rfl, ?_, ?_⟩
    · intro j other
      refine ⟨set_client_other _ other, ?_⟩
      rw [shownIn_cons, shown]
      rfl
    · rw [shownIn_cons, shown]
      exact .exited rfl
  | @failed r msg d received request invoked code =>
    rw [asks received request] at new
    obtain ⟨later, run, shown⟩ := reads run accepting new
    have exit : step (carryOut tableGetTable)
        ((s.set k ⟨.accepted, [], [], [], true⟩).goes (.invoking k msg)) (.invoke c.alloc) =
          .ok (.executed k msg c.alloc none, ⟨.exited, s.store,
            (s.set k ⟨.accepted, [], [], [], true⟩).client⟩) := by
      simp [step, carryOut_failed invoked code]
    refine ⟨_ :: later, _, run.next exit, rfl, ?_, ?_⟩
    · intro j other
      refine ⟨set_client_other _ other, ?_⟩
      rw [shownIn_cons, shown]
      rfl
    · rw [shownIn_cons, shown]
      exact .exited rfl
  | @unsent r msg d reply w received request invoked code answer write lost =>
    rw [asks received request] at new
    obtain ⟨later, run, shown⟩ := reads run accepting new
    have drop : step (carryOut tableGetTable) ⟨.sending k reply, d.table.getD s.store,
        (s.set k ⟨.accepted, [], [], [], true⟩).client⟩ .drop =
          .ok (.nothing, ⟨.exited, d.table.getD s.store,
            (s.set k ⟨.accepted, [], [], [], true⟩).client⟩) := rfl
    refine ⟨_ :: _ :: later, _, (run.next (answers invoked code answer)).next drop,
      invoke_table invoked, ?_, ?_⟩
    · intro j other
      refine ⟨set_client_other _ other, ?_⟩
      rw [shownIn_cons, shownIn_cons, shown]
      rfl
    · rw [shownIn_cons, shownIn_cons, shown]
      exact .exited rfl
  | @answered r msg d reply w received request invoked code answer write whole =>
    rw [asks received request] at new
    obtain ⟨later, run, shown⟩ := reads run accepting new
    have send : step (carryOut tableGetTable) ⟨.sending k reply, d.table.getD s.store,
        (s.set k ⟨.accepted, [], [], [], true⟩).client⟩ .send =
          .ok (.sent k reply, ⟨.accepting, d.table.getD s.store,
            (s.set k ⟨.accepted, [], [], [reply], true⟩).client⟩) := by
      simp [step, State.set, State.goes]
    refine ⟨_ :: _ :: later, _, (run.next (answers invoked code answer)).next send,
      invoke_table invoked, ?_, ?_⟩
    · intro j other
      refine ⟨set_client_other _ other, ?_⟩
      rw [shownIn_cons, shownIn_cons, shown]
      simp [sentBy, Shown.sentOf, Ne.symm other]
    · rw [shownIn_cons, shownIn_cons, shown]
      have told : sentBy k ([.nothing, .issued k msg, .nothing, .read k msg] ++
          [.executed k msg c.alloc (some reply)] ++ [.sent k reply]) = [reply] := by
        simp [sentBy, List.filterMap_cons, Shown.sentOf]
      rw [told]
      exact .answered rfl write whole rfl

/-- The service from the `k`-th newcomer on. -/
theorem serve_runs {connections : List (Connection σ)} {served : Service}
    (run : Run (step (carryOut tableGetTable)) init history s)
    (accepting : s.server = .accepting)
    (new : ∀ j, s.client (k + j) = newcomer (askedBy codec connections j))
    (h : serve codec tableGetTable connections (some s.store) = .ok served) :
    ∃ later s', Run (step (carryOut tableGetTable)) init (later ++ history) s' ∧
      served.table = some s'.store ∧ s'.server.running = served.running ∧
      (∀ j, j < k → sentBy j (shownIn later) = []) ∧
      (∀ j reply, reply ∈ sentBy (k + j) (shownIn later) → ∃ c w, connections[j]? = some c ∧
        networkSend codec c.plan reply = .ok w ∧ ¬ w.result < 0 ∧
        served.replies[j]? = some w.sent) ∧
      (served.running → ∀ j, j < connections.length → sentBy (k + j) (shownIn later) ≠ []) := by
  induction connections generalizing k history s served with
  | nil =>
    cases h
    refine ⟨[], s, run, rfl, by rw [accepting]; rfl, fun _ _ => rfl, ?_, ?_⟩
    · intro j reply told
      cases told
    · intro _ j short
      cases short
  | cons c rest ih =>
    obtain ⟨turn, hturn, h⟩ := (bind_eq_ok_iff _ _ _).mp h
    have first : s.client k = newcomer (asked codec c) := new 0
    obtain ⟨now, s1, run1, table, others, ended⟩ := turn_runs run accepting first hturn
    by_cases stopped : turn.result = -1
    · rw [if_pos stopped] at h
      cases h
      obtain ⟨exited, silent⟩ := ended.stopped stopped
      refine ⟨now, s1, run1, table, by rw [exited]; rfl, ?_, ?_, by simp⟩
      · intro j earlier
        exact (others j (by omega)).2
      · intro j reply told
        cases j with
        | zero =>
          rw [Nat.add_zero, silent] at told
          cases told
        | succ j =>
          rw [(others (k + (j + 1)) (by omega)).2] at told
          cases told
    · rw [if_neg stopped, table] at h
      obtain ⟨after, hafter, h⟩ := (bind_eq_ok_iff _ _ _).mp h
      cases h
      obtain ⟨accepting1, reply, w, told, write, whole, sent⟩ := ended.goesOn stopped
      have new1 : ∀ j, s1.client (k + 1 + j) = newcomer (askedBy codec rest j) := by
        intro j
        rw [(others (k + 1 + j) (by omega)).1, Nat.add_right_comm k 1 j]
        exact new (j + 1)
      obtain ⟨later, s2, run2, table2, running, before, replies, all⟩ :=
        ih run1 accepting1 new1 hafter
      have both : ∀ j, sentBy j (shownIn (later ++ now)) =
          sentBy j (shownIn now) ++ sentBy j (shownIn later) := by
        intro j
        rw [shownIn_append, sentBy, List.filterMap_append]
        rfl
      refine ⟨later ++ now, s2, by rwa [List.append_assoc], table2, running, ?_, ?_, ?_⟩
      · intro j earlier
        rw [both, (others j (by omega)).2, before j (by omega)]
        rfl
      · intro j r hr
        rw [both] at hr
        cases j with
        | zero =>
          rw [Nat.add_zero, told, before k (by omega), List.append_nil, List.mem_singleton] at hr
          subst hr
          exact ⟨c, w, rfl, write, whole, congrArg some sent⟩
        | succ j =>
          rw [(others (k + (j + 1)) (by omega)).2, List.nil_append, ← Nat.add_assoc,
            Nat.add_right_comm] at hr
          exact replies j r hr
      · intro up j short
        rw [both]
        cases j with
        | zero => simp [told]
        | succ j =>
          rw [(others (k + (j + 1)) (by omega)).2, List.nil_append, ← Nat.add_assoc,
            Nat.add_right_comm]
          exact all up j (by simpa using short)

end MainLoop

end Clients
