import Mathlib.Data.List.Induction
import Mathlib.Logic.Function.Basic
import RemoteTable.Runs

/-!
# One server, many clients, one request in a turn

A server accepts a connection, reads one request from it, carries it out on its
state, sends the answer and accepts anew. A connection is never accepted twice
and never closed. Any number of clients connect and send requests, each waiting
for the answer to one before it sends the next. The steps of all parties
interleave freely. What a request does is a parameter.

A request or a reply is handed over whole in one step. A reader of bytes need not
do that, and what is said of the service is therefore about the requests that the
server has read and about what it carries out and sends.
-/

namespace Serving

open Runs

variable {ι ρ β σ τ : Type}

/-- Where the server is in its loop, and with whom. -/
inductive Phase (ι ρ β : Type) where
  | accepting
  | receiving (i : ι)
  | invoking (i : ι) (request : ρ)
  | sending (i : ι) (reply : β)
  | exited

def Phase.running : Phase ι ρ β → Bool
  | .exited => false
  | _ => true

inductive Link where
  | unconnected
  | pending
  | accepted
  deriving DecidableEq

structure Client (ρ β : Type) where
  link : Link
  /-- The requests the client has not issued yet. -/
  toSend : List ρ
  /-- The requests on the connection that the server has not read. -/
  unread : List ρ
  /-- The replies the client has not taken. -/
  replies : List β
  waiting : Bool

structure State (ι ρ β σ : Type) where
  server : Phase ι ρ β
  store : σ
  client : ι → Client ρ β

inductive Action (ι τ : Type) where
  | connect (i : ι)
  | request (i : ι)
  | reply (i : ι)
  | hangUp (i : ι)
  | accept (i : ι)
  | refuse
  | receive
  | lose
  | invoke (choice : τ)
  | send
  | drop

/-- What a step shows of the requests. -/
inductive Shown (ι ρ β τ : Type) where
  | nothing
  | issued (i : ι) (request : ρ)
  | read (i : ι) (request : ρ)
  | executed (i : ι) (request : ρ) (choice : τ) (answer : Option β)
  | sent (i : ι) (reply : β)
  | got (i : ι) (reply : β)

def start (requests : ι → List ρ) (store : σ) : State ι ρ β σ :=
  ⟨.accepting, store, fun i => ⟨.unconnected, requests i, [], [], false⟩⟩

section Steps

variable [DecidableEq ι]

def State.set (s : State ι ρ β σ) (i : ι) (c : Client ρ β) : State ι ρ β σ :=
  { s with client := Function.update s.client i c }

def State.goes (s : State ι ρ β σ) (server : Phase ι ρ β) : State ι ρ β σ :=
  { s with server := server }

variable (handle : τ → ρ → σ → Option β × σ)

/-- A step that is not enabled is an error. A request is read whole and a reply sent whole;
a request without an answer ends the server. -/
def step (s : State ι ρ β σ) :
    Action ι τ → Except Unit (Shown ι ρ β τ × State ι ρ β σ)
  | .connect i =>
    if (s.client i).link = .unconnected ∧ s.server.running then
      .ok (.nothing, s.set i { s.client i with link := .pending })
    else .error ()
  | .request i => match (s.client i).toSend with
    | r :: rest =>
      if (s.client i).link ≠ .unconnected ∧ (s.client i).waiting = false then
        .ok (.issued i r, s.set i { s.client i with
          toSend := rest, unread := (s.client i).unread ++ [r], waiting := true })
      else .error ()
    | [] => .error ()
  | .reply i => match (s.client i).replies with
    | b :: rest =>
      if (s.client i).waiting then
        .ok (.got i b, s.set i { s.client i with replies := rest, waiting := false })
      else .error ()
    | [] => .error ()
  | .hangUp i =>
    if (s.client i).waiting ∧ s.server.running = false then
      .ok (.nothing, s.set i { s.client i with waiting := false })
    else .error ()
  | .accept i => match s.server with
    | .accepting =>
      if (s.client i).link = .pending then
        .ok (.nothing, (s.set i { s.client i with link := .accepted }).goes (.receiving i))
      else .error ()
    | _ => .error ()
  | .refuse => match s.server with
    | .accepting => .ok (.nothing, s.goes .exited)
    | _ => .error ()
  | .receive => match s.server with
    | .receiving i => match (s.client i).unread with
      | r :: rest => .ok (.read i r, (s.set i { s.client i with unread := rest }).goes (.invoking i r))
      | [] => .error ()
    | _ => .error ()
  | .lose => match s.server with
    | .receiving _ => .ok (.nothing, s.goes .exited)
    | _ => .error ()
  | .invoke choice => match s.server with
    | .invoking i r =>
      let done := handle choice r s.store
      .ok (.executed i r choice done.1, { s with
        server := match done.1 with
          | some b => .sending i b
          | none => .exited
        store := done.2 })
    | _ => .error ()
  | .send => match s.server with
    | .sending i b => .ok (.sent i b,
        (s.set i { s.client i with replies := (s.client i).replies ++ [b] }).goes .accepting)
    | _ => .error ()
  | .drop => match s.server with
    | .sending _ _ => .ok (.nothing, s.goes .exited)
    | _ => .error ()

/-- Everything a step can do. -/
inductive Stepped (s : State ι ρ β σ) :
    Action ι τ → Shown ι ρ β τ → State ι ρ β σ → Prop
  | connect {i} (link : (s.client i).link = .unconnected) (running : s.server.running) :
      Stepped s (.connect i) .nothing (s.set i { s.client i with link := .pending })
  | request {i r rest} (next : (s.client i).toSend = r :: rest)
      (link : (s.client i).link ≠ .unconnected) (idle : (s.client i).waiting = false) :
      Stepped s (.request i) (.issued i r) (s.set i { s.client i with
        toSend := rest, unread := (s.client i).unread ++ [r], waiting := true })
  | reply {i b rest} (next : (s.client i).replies = b :: rest)
      (waiting : (s.client i).waiting = true) :
      Stepped s (.reply i) (.got i b)
        (s.set i { s.client i with replies := rest, waiting := false })
  | hangUp {i} (waiting : (s.client i).waiting = true) (stopped : s.server.running = false) :
      Stepped s (.hangUp i) .nothing (s.set i { s.client i with waiting := false })
  | accept {i} (accepting : s.server = .accepting) (link : (s.client i).link = .pending) :
      Stepped s (.accept i) .nothing
        ((s.set i { s.client i with link := .accepted }).goes (.receiving i))
  | refuse (accepting : s.server = .accepting) : Stepped s .refuse .nothing (s.goes .exited)
  | receive {i r rest} (receiving : s.server = .receiving i)
      (next : (s.client i).unread = r :: rest) :
      Stepped s .receive (.read i r)
        ((s.set i { s.client i with unread := rest }).goes (.invoking i r))
  | lose {i} (receiving : s.server = .receiving i) : Stepped s .lose .nothing (s.goes .exited)
  | answer {i r choice b} (invoking : s.server = .invoking i r)
      (done : (handle choice r s.store).1 = some b) :
      Stepped s (.invoke choice) (.executed i r choice (some b))
        ⟨.sending i b, (handle choice r s.store).2, s.client⟩
  | exit {i r choice} (invoking : s.server = .invoking i r)
      (done : (handle choice r s.store).1 = none) :
      Stepped s (.invoke choice) (.executed i r choice none)
        ⟨.exited, (handle choice r s.store).2, s.client⟩
  | send {i b} (sending : s.server = .sending i b) :
      Stepped s .send (.sent i b)
        ((s.set i { s.client i with replies := (s.client i).replies ++ [b] }).goes .accepting)
  | drop {i b} (sending : s.server = .sending i b) : Stepped s .drop .nothing (s.goes .exited)

variable {handle} {s s' : State ι ρ β σ} {a : Action ι τ} {shown : Shown ι ρ β τ}

theorem step_cases (h : step handle s a = .ok (shown, s')) : Stepped handle s a shown s' := by
  cases a with
  | connect i =>
    simp only [step] at h
    split_ifs at h with enabled
    cases h
    exact .connect enabled.1 enabled.2
  | request i =>
    simp only [step] at h
    split at h
    · rename_i next
      split_ifs at h with enabled
      cases h
      exact .request next enabled.1 enabled.2
    · cases h
  | reply i =>
    simp only [step] at h
    split at h
    · rename_i next
      split_ifs at h with enabled
      cases h
      exact .reply next enabled
    · cases h
  | hangUp i =>
    simp only [step] at h
    split_ifs at h with enabled
    cases h
    exact .hangUp enabled.1 enabled.2
  | accept i =>
    simp only [step] at h
    split at h
    · rename_i accepting
      split_ifs at h with link
      cases h
      exact .accept accepting link
    · cases h
  | refuse =>
    simp only [step] at h
    split at h
    · rename_i accepting
      cases h
      exact .refuse accepting
    · cases h
  | receive =>
    simp only [step] at h
    split at h
    · rename_i receiving
      split at h
      · rename_i next
        cases h
        exact .receive receiving next
      · cases h
    · cases h
  | lose =>
    simp only [step] at h
    split at h
    · rename_i receiving
      cases h
      exact .lose receiving
    · cases h
  | invoke choice =>
    simp only [step] at h
    split at h
    · rename_i i r invoking
      cases done : (handle choice r s.store).1 with
      | none =>
        rw [done] at h
        cases h
        exact .exit invoking done
      | some b =>
        rw [done] at h
        cases h
        exact .answer invoking done
    · cases h
  | send =>
    simp only [step] at h
    split at h
    · rename_i sending
      cases h
      exact .send sending
    · cases h
  | drop =>
    simp only [step] at h
    split at h
    · rename_i sending
      cases h
      exact .drop sending
    · cases h

@[simp] theorem set_client_self (i : ι) (c : Client ρ β) : (s.set i c).client i = c :=
  Function.update_self ..

theorem set_client_other {i j : ι} (c : Client ρ β) (other : j ≠ i) :
    (s.set i c).client j = s.client j :=
  Function.update_of_ne other ..

@[simp] theorem set_set (i : ι) (c c' : Client ρ β) : (s.set i c).set i c' = s.set i c' := by
  simp [State.set]

@[simp] theorem set_server (i : ι) (c : Client ρ β) : (s.set i c).server = s.server := rfl

@[simp] theorem set_store (i : ι) (c : Client ρ β) : (s.set i c).store = s.store := rfl

end Steps

section Phases

variable {s : State ι ρ β σ} {server : Phase ι ρ β}

@[simp] theorem goes_client : (s.goes server).client = s.client := rfl

@[simp] theorem goes_server : (s.goes server).server = server := rfl

@[simp] theorem goes_store : (s.goes server).store = s.store := rfl

@[simp] theorem goes_set [DecidableEq ι] (i : ι) (c : Client ρ β) :
    (s.goes server).set i c = (s.set i c).goes server := rfl

@[simp] theorem goes_goes (server' : Phase ι ρ β) : (s.goes server).goes server' = s.goes server' :=
  rfl

end Phases

/-- What the server does with one connection. -/
inductive Stage (ρ β : Type) where
  | away
  | receiving
  | invoking (request : ρ)
  | sending (reply : β)

def Stage.held : Stage ρ β → List ρ
  | .invoking r => [r]
  | _ => []

def Stage.telling : Stage ρ β → List β
  | .sending b => [b]
  | _ => []

section Stages

variable {r : ρ} {b : β}

@[simp] theorem held_away : (Stage.away : Stage ρ β).held = [] := rfl

@[simp] theorem held_receiving : (Stage.receiving : Stage ρ β).held = [] := rfl

@[simp] theorem held_invoking : (Stage.invoking r : Stage ρ β).held = [r] := rfl

@[simp] theorem held_sending : (Stage.sending b : Stage ρ β).held = [] := rfl

@[simp] theorem telling_away : (Stage.away : Stage ρ β).telling = [] := rfl

@[simp] theorem telling_receiving : (Stage.receiving : Stage ρ β).telling = [] := rfl

@[simp] theorem telling_invoking : (Stage.invoking r : Stage ρ β).telling = [] := rfl

@[simp] theorem telling_sending : (Stage.sending b : Stage ρ β).telling = [b] := rfl

end Stages

structure Execution (ι ρ β τ : Type) where
  client : ι
  request : ρ
  choice : τ
  answer : Option β

section Traces

def Shown.execution : Shown ι ρ β τ → Option (Execution ι ρ β τ)
  | .executed i r choice answer => some ⟨i, r, choice, answer⟩
  | _ => none

/-- The requests carried out, in the order they were. -/
def executions (trace : List (Shown ι ρ β τ)) : List (Execution ι ρ β τ) :=
  trace.filterMap Shown.execution

variable [DecidableEq ι]

/-- The phase as one connection sees it. -/
def Phase.at (i : ι) : Phase ι ρ β → Stage ρ β
  | .receiving j => if j = i then .receiving else .away
  | .invoking j r => if j = i then .invoking r else .away
  | .sending j b => if j = i then .sending b else .away
  | _ => .away

section At

variable {i j : ι} {r : ρ} {b : β}

theorem at_receiving_self : (Phase.receiving i : Phase ι ρ β).at i = .receiving := if_pos rfl

theorem at_receiving_other (other : j ≠ i) : (Phase.receiving j : Phase ι ρ β).at i = .away :=
  if_neg other

theorem at_invoking_self : (Phase.invoking i r : Phase ι ρ β).at i = .invoking r := if_pos rfl

theorem at_invoking_other (other : j ≠ i) : (Phase.invoking j r : Phase ι ρ β).at i = .away :=
  if_neg other

theorem at_sending_self : (Phase.sending i b : Phase ι ρ β).at i = .sending b := if_pos rfl

theorem at_sending_other (other : j ≠ i) : (Phase.sending j b : Phase ι ρ β).at i = .away :=
  if_neg other

end At

def Shown.issuedOf (i : ι) : Shown ι ρ β τ → Option ρ
  | .issued j r => if j = i then some r else none
  | _ => none

def Shown.readOf (i : ι) : Shown ι ρ β τ → Option ρ
  | .read j r => if j = i then some r else none
  | _ => none

def Shown.executedOf (i : ι) : Shown ι ρ β τ → Option (Execution ι ρ β τ)
  | .executed j r choice answer => if j = i then some ⟨j, r, choice, answer⟩ else none
  | _ => none

def Shown.sentOf (i : ι) : Shown ι ρ β τ → Option β
  | .sent j b => if j = i then some b else none
  | _ => none

def Shown.gotOf (i : ι) : Shown ι ρ β τ → Option β
  | .got j b => if j = i then some b else none
  | _ => none

def issuedBy (i : ι) (trace : List (Shown ι ρ β τ)) : List ρ :=
  trace.filterMap (Shown.issuedOf i)

def readBy (i : ι) (trace : List (Shown ι ρ β τ)) : List ρ :=
  trace.filterMap (Shown.readOf i)

def executedBy (i : ι) (trace : List (Shown ι ρ β τ)) : List (Execution ι ρ β τ) :=
  trace.filterMap (Shown.executedOf i)

def sentBy (i : ι) (trace : List (Shown ι ρ β τ)) : List β :=
  trace.filterMap (Shown.sentOf i)

def gotBy (i : ι) (trace : List (Shown ι ρ β τ)) : List β :=
  trace.filterMap (Shown.gotOf i)

/-- What a history shows, oldest first. -/
def shownIn (history : List (Event (State ι ρ β σ) (Action ι τ) (Shown ι ρ β τ))) :
    List (Shown ι ρ β τ) :=
  (history.map Event.result).reverse

omit [DecidableEq ι] in
theorem shownIn_cons
    (e : Event (State ι ρ β σ) (Action ι τ) (Shown ι ρ β τ))
    (history : List (Event (State ι ρ β σ) (Action ι τ) (Shown ι ρ β τ))) :
    shownIn (e :: history) = shownIn history ++ [e.result] := by
  rw [shownIn, List.map_cons, List.reverse_cons]
  rfl

omit [DecidableEq ι] in
theorem shownIn_append
    (later earlier : List (Event (State ι ρ β σ) (Action ι τ) (Shown ι ρ β τ))) :
    shownIn (later ++ earlier) = shownIn earlier ++ shownIn later := by
  rw [shownIn, List.map_append, List.reverse_append]
  rfl

/-- The server has read nothing from the connection. -/
def Fresh (link : Link) (stage : Stage ρ β) : Prop := link ≠ .accepted ∨ stage = .receiving

/-- No request and no reply of a connection is lost, doubled or out of order, and
at most one request is ever read. The last fields hold until the server exits. -/
structure Conserved (requests : List ρ) (trace : List (Shown ι ρ β τ)) (i : ι)
    (c : Client ρ β) (stage : Stage ρ β) (running : Bool) : Prop where
  issued : requests = issuedBy i trace ++ c.toSend
  read : issuedBy i trace = readBy i trace ++ c.unread
  executed : readBy i trace = (executedBy i trace).map Execution.request ++ stage.held
  sent : sentBy i trace ++ stage.telling <+: (executedBy i trace).filterMap Execution.answer
  got : sentBy i trace = gotBy i trace ++ c.replies
  once : (readBy i trace).length ≤ 1
  fresh : Fresh c.link stage → readBy i trace = []
  on : stage ≠ .away → c.link = .accepted
  answered : running →
    (executedBy i trace).map Execution.answer = (sentBy i trace ++ stage.telling).map some
  served : running → ¬ Fresh c.link stage → readBy i trace ≠ []
  waits : running →
    (issuedBy i trace).length = (gotBy i trace).length + if c.waiting then 1 else 0

section Conservation

variable {handle : τ → ρ → σ → Option β × σ} {requests : List ρ}
  {trace : List (Shown ι ρ β τ)} {s s' : State ι ρ β σ} {a : Action ι τ} {shown : Shown ι ρ β τ}
  {i : ι}

theorem filterMap_snoc {α δ : Type} (f : α → Option δ) (xs : List α) (x : α) :
    (xs ++ [x]).filterMap f = xs.filterMap f ++ (f x).toList := by
  rw [List.filterMap_append]
  cases hx : f x <;> simp [hx]

@[simp] theorem issuedBy_snoc :
    issuedBy i (trace ++ [shown]) = issuedBy i trace ++ (shown.issuedOf i).toList :=
  filterMap_snoc ..

@[simp] theorem readBy_snoc :
    readBy i (trace ++ [shown]) = readBy i trace ++ (shown.readOf i).toList :=
  filterMap_snoc ..

@[simp] theorem executedBy_snoc :
    executedBy i (trace ++ [shown]) = executedBy i trace ++ (shown.executedOf i).toList :=
  filterMap_snoc ..

@[simp] theorem sentBy_snoc :
    sentBy i (trace ++ [shown]) = sentBy i trace ++ (shown.sentOf i).toList :=
  filterMap_snoc ..

@[simp] theorem gotBy_snoc :
    gotBy i (trace ++ [shown]) = gotBy i trace ++ (shown.gotOf i).toList :=
  filterMap_snoc ..

section Accounts

variable {c : Client ρ β} {stage : Stage ρ β} {running : Bool}

/-- What shows nothing of a connection leaves its account as it was. -/
theorem Conserved.frame {running' : Bool} {stage' : Stage ρ β}
    (conserved : Conserved requests trace i c stage running) (still : running' → running)
    (same : stage' = stage) (issued : shown.issuedOf i = none) (read : shown.readOf i = none)
    (executed : shown.executedOf i = none) (sent : shown.sentOf i = none)
    (got : shown.gotOf i = none) : Conserved requests (trace ++ [shown]) i c stage' running' := by
  subst same
  exact {
    issued := by simpa [issued] using conserved.issued
    read := by simpa [issued, read] using conserved.read
    executed := by simpa [read, executed] using conserved.executed
    sent := by simpa [sent, executed] using conserved.sent
    got := by simpa [sent, got] using conserved.got
    once := by simpa [read] using conserved.once
    fresh := by simpa [read] using conserved.fresh
    on := conserved.on
    answered := fun up => by simpa [executed, sent] using conserved.answered (still up)
    served := fun up => by simpa [read] using conserved.served (still up)
    waits := fun up => by simpa [issued, got] using conserved.waits (still up) }

theorem Conserved.connected (conserved : Conserved requests trace i c stage running)
    (link : c.link = .unconnected) :
    Conserved requests trace i { c with link := .pending } stage running :=
  { conserved with
    fresh := fun _ => conserved.fresh (Or.inl (by simp [link]))
    on := fun near => by cases link.symm.trans (conserved.on near)
    served := fun _ used => absurd (Or.inl (by simp)) used }

theorem Conserved.requested {r : ρ} {rest : List ρ}
    (conserved : Conserved requests trace i c stage running) (next : c.toSend = r :: rest)
    (idle : c.waiting = false) :
    Conserved requests (trace ++ [.issued i r]) i
      { c with toSend := rest, unread := c.unread ++ [r], waiting := true } stage running where
  issued := by simpa [Shown.issuedOf, next] using conserved.issued
  read := by simp [Shown.issuedOf, Shown.readOf, conserved.read]
  executed := by simpa [Shown.readOf, Shown.executedOf] using conserved.executed
  sent := by simpa [Shown.sentOf, Shown.executedOf] using conserved.sent
  got := by simpa [Shown.sentOf, Shown.gotOf] using conserved.got
  once := by simpa [Shown.readOf] using conserved.once
  fresh := by simpa [Shown.readOf] using conserved.fresh
  on := conserved.on
  answered := by simpa [Shown.executedOf, Shown.sentOf] using conserved.answered
  served := by simpa [Shown.readOf] using conserved.served
  waits := fun up => by simpa [Shown.issuedOf, Shown.gotOf, idle] using conserved.waits up

theorem Conserved.replied {b : β} {rest : List β}
    (conserved : Conserved requests trace i c stage running) (next : c.replies = b :: rest)
    (waiting : c.waiting = true) :
    Conserved requests (trace ++ [.got i b]) i { c with replies := rest, waiting := false }
      stage running where
  issued := by simpa [Shown.issuedOf] using conserved.issued
  read := by simpa [Shown.issuedOf, Shown.readOf] using conserved.read
  executed := by simpa [Shown.readOf, Shown.executedOf] using conserved.executed
  sent := by simpa [Shown.sentOf, Shown.executedOf] using conserved.sent
  got := by simpa [Shown.sentOf, Shown.gotOf, next] using conserved.got
  once := by simpa [Shown.readOf] using conserved.once
  fresh := by simpa [Shown.readOf] using conserved.fresh
  on := conserved.on
  answered := by simpa [Shown.executedOf, Shown.sentOf] using conserved.answered
  served := by simpa [Shown.readOf] using conserved.served
  waits := fun up => by simpa [Shown.issuedOf, Shown.gotOf, waiting] using conserved.waits up

theorem Conserved.accepted (conserved : Conserved requests trace i c .away running)
    (link : c.link = .pending) :
    Conserved requests trace i { c with link := .accepted } .receiving running :=
  { conserved with
    fresh := fun _ => conserved.fresh (Or.inl (by simp [link]))
    on := fun _ => rfl
    served := fun _ used => absurd (Or.inr rfl) used }

theorem Conserved.received {r : ρ} {rest : List ρ}
    (conserved : Conserved requests trace i c .receiving running) (next : c.unread = r :: rest) :
    Conserved requests (trace ++ [.read i r]) i { c with unread := rest } (.invoking r)
      running := by
  have nothing := conserved.fresh (Or.inr rfl)
  have link := conserved.on (by simp)
  have unexecuted : executedBy i trace = [] := by
    simpa [nothing] using conserved.executed.symm
  exact {
    issued := by simpa [Shown.issuedOf] using conserved.issued
    read := by simpa [Shown.issuedOf, Shown.readOf, next] using conserved.read
    executed := by simp [Shown.readOf, Shown.executedOf, nothing, unexecuted]
    sent := by simpa [Shown.sentOf, Shown.executedOf] using conserved.sent
    got := by simpa [Shown.sentOf, Shown.gotOf] using conserved.got
    once := by simp [Shown.readOf, nothing]
    fresh := fun fresh => by simp [Fresh, link] at fresh
    on := fun _ => link
    answered := by
      simpa [Shown.executedOf, Shown.sentOf] using conserved.answered
    served := by simp [Shown.readOf]
    waits := by simpa [Shown.issuedOf, Shown.gotOf] using conserved.waits }

theorem Conserved.executes {r : ρ} {choice : τ} {answer : Option β} {stage : Stage ρ β}
    (conserved : Conserved requests trace i c (.invoking r) running) (held : stage.held = [])
    (telling : stage.telling = answer.toList) (busy : stage ≠ .receiving) {running' : Bool}
    (up : running' → running = true ∧ answer ≠ none) :
    Conserved requests (trace ++ [.executed i r choice answer]) i c stage running' := by
  have link := conserved.on (by simp)
  have untold : sentBy i trace <+: (executedBy i trace).filterMap Execution.answer := by
    simpa using conserved.sent
  have first : executedBy i trace = [] := by
    have read := congrArg List.length conserved.executed
    have once := conserved.once
    simp only [held_invoking, List.length_append, List.length_map, List.length_singleton] at read
    exact List.eq_nil_of_length_eq_zero (by omega)
  have unsent : sentBy i trace = [] := by simpa [first] using untold
  exact {
    issued := by simpa [Shown.issuedOf] using conserved.issued
    read := by simpa [Shown.issuedOf, Shown.readOf] using conserved.read
    executed := by simpa [Shown.readOf, Shown.executedOf, held] using conserved.executed
    sent := by cases answer <;> simp [Shown.sentOf, Shown.executedOf, telling, first, unsent]
    got := by simpa [Shown.sentOf, Shown.gotOf] using conserved.got
    once := by simpa [Shown.readOf] using conserved.once
    fresh := fun fresh => by simp [Fresh, link, busy] at fresh
    on := fun _ => link
    answered := fun h => by
      obtain ⟨b, rfl⟩ := Option.ne_none_iff_exists'.mp (up h).2
      simp [Shown.executedOf, Shown.sentOf, first, unsent, telling]
    served := fun h used => by
      simpa [Shown.readOf] using conserved.served (up h).1 (by simp [Fresh, link])
    waits := fun h => by simpa [Shown.issuedOf, Shown.gotOf] using conserved.waits (up h).1 }

theorem Conserved.sends {b : β} (conserved : Conserved requests trace i c (.sending b) running) :
    Conserved requests (trace ++ [.sent i b]) i { c with replies := c.replies ++ [b] } .away
      running := by
  have link := conserved.on (by simp)
  exact {
    issued := by simpa [Shown.issuedOf] using conserved.issued
    read := by simpa [Shown.issuedOf, Shown.readOf] using conserved.read
    executed := by
      simpa [Shown.readOf, Shown.executedOf] using conserved.executed
    sent := by simpa [Shown.sentOf, Shown.executedOf] using conserved.sent
    got := by simp [Shown.sentOf, Shown.gotOf, conserved.got]
    once := by simpa [Shown.readOf] using conserved.once
    fresh := fun fresh => by simp [Fresh, link] at fresh
    on := fun near => absurd rfl near
    answered := by simpa [Shown.executedOf, Shown.sentOf] using conserved.answered
    served := fun up _ => by
      simpa [Shown.readOf] using conserved.served up (by simp [Fresh, link])
    waits := by simpa [Shown.issuedOf, Shown.gotOf] using conserved.waits }

/-- A server that exits leaves the accounts as they are. -/
theorem Conserved.leaves (conserved : Conserved requests trace i c stage running)
    (idle : stage.held = []) : Conserved requests trace i c .away false :=
  { conserved with
    executed := by simpa [idle] using conserved.executed
    sent := by
      simpa using (List.prefix_append _ _).trans conserved.sent
    fresh := fun fresh => by
      rcases fresh with link | away
      · exact conserved.fresh (Or.inl link)
      · cases away
    on := fun near => absurd rfl near
    answered := by simp
    served := by simp
    waits := by simp }

end Accounts

theorem conserved_step
    (conserved : Conserved requests trace i (s.client i) (s.server.at i) s.server.running)
    (h : step handle s a = .ok (shown, s')) :
    Conserved requests (trace ++ [shown]) i (s'.client i) (s'.server.at i)
      s'.server.running := by
  cases step_cases h with
  | @connect j link running =>
    by_cases self : j = i
    · subst self
      rw [set_client_self]
      exact (conserved.connected link).frame id rfl rfl rfl rfl rfl rfl
    · rw [set_client_other _ (Ne.symm self)]
      exact conserved.frame id rfl rfl rfl rfl rfl rfl
  | @request j r rest next link idle =>
    by_cases self : j = i
    · subst self
      rw [set_client_self]
      exact conserved.requested next idle
    · rw [set_client_other _ (Ne.symm self)]
      exact conserved.frame id rfl (if_neg self) rfl rfl rfl rfl
  | @reply j b rest next waiting =>
    by_cases self : j = i
    · subst self
      rw [set_client_self]
      exact conserved.replied next waiting
    · rw [set_client_other _ (Ne.symm self)]
      exact conserved.frame id rfl rfl rfl rfl rfl (if_neg self)
  | @hangUp j waiting stopped =>
    rw [stopped] at conserved
    rw [set_server, stopped]
    by_cases self : j = i
    · subst self
      rw [set_client_self]
      have quiet : Conserved requests (trace ++ [.nothing]) j (s.client j) (s.server.at j) false :=
        conserved.frame id rfl rfl rfl rfl rfl rfl
      exact { quiet with waits := by simp }
    · rw [set_client_other _ (Ne.symm self)]
      exact conserved.frame id rfl rfl rfl rfl rfl rfl
  | @accept j accepting link =>
    rw [accepting] at conserved
    rw [goes_client, goes_server]
    by_cases self : j = i
    · subst self
      rw [set_client_self, at_receiving_self]
      exact (conserved.accepted link).frame (fun _ => rfl) rfl rfl rfl rfl rfl rfl
    · rw [set_client_other _ (Ne.symm self), at_receiving_other self]
      exact conserved.frame (fun _ => rfl) rfl rfl rfl rfl rfl rfl
  | refuse accepting =>
    rw [accepting] at conserved
    exact (conserved.leaves rfl).frame id rfl rfl rfl rfl rfl rfl
  | @receive j r rest receiving next =>
    rw [receiving] at conserved
    rw [goes_client, goes_server]
    by_cases self : j = i
    · subst self
      rw [at_receiving_self] at conserved
      rw [set_client_self, at_invoking_self]
      exact conserved.received next
    · rw [at_receiving_other self] at conserved
      rw [set_client_other _ (Ne.symm self), at_invoking_other self]
      exact conserved.frame (fun _ => rfl) rfl rfl (if_neg self) rfl rfl rfl
  | @lose j receiving =>
    rw [receiving] at conserved
    refine (conserved.leaves ?_).frame id rfl rfl rfl rfl rfl rfl
    by_cases self : j = i
    · rw [self, at_receiving_self, held_receiving]
    · rw [at_receiving_other self, held_away]
  | @answer j r choice b invoking done =>
    rw [invoking] at conserved
    by_cases self : j = i
    · subst self
      rw [at_invoking_self] at conserved
      rw [at_sending_self]
      exact conserved.executes rfl rfl (by simp) fun _ => ⟨rfl, by simp⟩
    · rw [at_invoking_other self] at conserved
      rw [at_sending_other self]
      exact conserved.frame (fun _ => rfl) rfl rfl rfl (if_neg self) rfl rfl
  | @exit j r choice invoking done =>
    rw [invoking] at conserved
    by_cases self : j = i
    · subst self
      rw [at_invoking_self] at conserved
      exact conserved.executes rfl rfl (by simp [Phase.at]) fun up => by cases up
    · rw [at_invoking_other self] at conserved
      exact (conserved.leaves rfl).frame id rfl rfl rfl (if_neg self) rfl rfl
  | @send j b sending =>
    rw [sending] at conserved
    rw [goes_client, goes_server]
    by_cases self : j = i
    · subst self
      rw [at_sending_self] at conserved
      rw [set_client_self]
      exact conserved.sends
    · rw [at_sending_other self] at conserved
      rw [set_client_other _ (Ne.symm self)]
      exact conserved.frame (fun _ => rfl) rfl rfl rfl rfl (if_neg self) rfl
  | @drop j b sending =>
    rw [sending] at conserved
    refine (conserved.leaves ?_).frame id rfl rfl rfl rfl rfl rfl
    by_cases self : j = i
    · rw [self, at_sending_self, held_sending]
    · rw [at_sending_other self, held_away]

end Conservation

section Order

variable {handle : τ → ρ → σ → Option β × σ} {requests : ι → List ρ} {store : σ}
  {history : List (Event (State ι ρ β σ) (Action ι τ) (Shown ι ρ β τ))} {s : State ι ρ β σ}

theorem start_conserved (i : ι) : Conserved (τ := τ) (requests i) [] i
    ((start (β := β) requests store).client i) (.away : Stage ρ β) true where
  issued := rfl
  read := rfl
  executed := rfl
  sent := List.nil_prefix
  got := rfl
  once := Nat.zero_le _
  fresh _ := rfl
  on near := absurd rfl near
  answered _ := rfl
  served _ used := absurd (Or.inl (by simp [start])) used
  waits _ := rfl

theorem conserved_run (run : Run (step handle) (start requests store) history s) (i : ι) :
    Conserved (requests i) (shownIn history) i (s.client i) (s.server.at i)
      s.server.running := by
  induction run with
  | start => exact start_conserved i
  | @next history s a shown s' earlier last ih =>
    rw [shownIn_cons]
    exact conserved_step ih last

/-- Requests carried out one after another, with their answers. -/
inductive Sequential (handle : τ → ρ → σ → Option β × σ) (store : σ) :
    List (Execution ι ρ β τ) → σ → Prop
  | none : Sequential handle store [] store
  | snoc {earlier now} (before : Sequential handle store earlier now) (i : ι) (r : ρ)
      (choice : τ) :
      Sequential handle store (earlier ++ [⟨i, r, choice, (handle choice r now).1⟩])
        (handle choice r now).2

omit [DecidableEq ι] in
theorem Sequential.unique {handle : τ → ρ → σ → Option β × σ} {store last last' : σ}
    {executed : List (Execution ι ρ β τ)} (first : Sequential handle store executed last)
    (second : Sequential handle store executed last') : last' = last := by
  induction first generalizing last' with
  | none =>
    generalize hall : ([] : List (Execution ι ρ β τ)) = all at second
    cases second with
    | none => rfl
    | snoc => simp at hall
  | @snoc earlier now before i r choice ih =>
    generalize hall : earlier ++ [⟨i, r, choice, (handle choice r now).1⟩] = all at second
    cases second with
    | none => simp at hall
    | @snoc earlier' now' before' i' r' choice' =>
      obtain ⟨rfl, same⟩ := List.append_inj' hall rfl
      simp only [List.cons.injEq, Execution.mk.injEq, and_true] at same
      obtain ⟨rfl, rfl, rfl, _⟩ := same
      rw [ih before']

omit [DecidableEq ι] in
/-- Every answer is the one on the store as the requests before left it. -/
theorem Sequential.answer_at {handle : τ → ρ → σ → Option β × σ} {store last : σ}
    {before after : List (Execution ι ρ β τ)} {e : Execution ι ρ β τ}
    (sequential : Sequential handle store (before ++ e :: after) last) :
    ∃ now, Sequential handle store before now ∧
      e.answer = (handle e.choice e.request now).1 := by
  induction after using List.reverseRecOn generalizing last with
  | nil =>
    generalize hall : before ++ [e] = all at sequential
    cases sequential with
    | none => simp at hall
    | @snoc earlier now before' i r choice =>
      obtain ⟨rfl, rfl⟩ := List.append_inj' hall rfl |>.imp_right List.singleton_inj.mp
      exact ⟨now, before', rfl⟩
  | append_singleton after d ih =>
    generalize hall : before ++ e :: (after ++ [d]) = all at sequential
    cases sequential with
    | none => simp at hall
    | @snoc earlier now before' i r choice =>
      rw [← List.cons_append, ← List.append_assoc] at hall
      obtain ⟨rfl, _⟩ := List.append_inj' hall rfl
      exact ih before'

/-- Only `invoke` touches the store. -/
theorem sequential_run (run : Run (step handle) (start requests store) history s) :
    Sequential handle store (executions (shownIn history)) s.store := by
  induction run with
  | start => exact .none
  | @next history s a shown s' earlier last ih =>
    have snoc : executions (shownIn (⟨s, a, shown, s'⟩ :: history)) =
        executions (shownIn history) ++ shown.execution.toList := by
      rw [shownIn_cons, executions, filterMap_snoc]
      rfl
    rw [snoc]
    cases step_cases last with
    | @answer i r choice b invoking done =>
      rw [← done]
      exact .snoc ih i r choice
    | @exit i r choice invoking done =>
      rw [← done]
      exact .snoc ih i r choice
    | _ => simpa [Shown.execution] using ih

theorem running_step {s s' : State ι ρ β σ} {a : Action ι τ} {shown : Shown ι ρ β τ}
    (h : step handle s a = .ok (shown, s')) (running : s'.server.running = true) :
    s.server.running = true := by
  cases step_cases h with
  | connect | request | reply | hangUp => exact running
  | accept accepting => rw [accepting]; rfl
  | refuse accepting => rw [accepting]; rfl
  | receive receiving => rw [receiving]; rfl
  | lose receiving => rw [receiving]; rfl
  | answer invoking => rw [invoking]; rfl
  | exit invoking => rw [invoking]; rfl
  | send sending => rw [sending]; rfl
  | drop sending => rw [sending]; rfl

/-- Only the last request carried out can be without an answer: the server exits then. -/
theorem unanswered_last (run : Run (step handle) (start requests store) history s) :
    (s.server.running = true → ∀ e ∈ executions (shownIn history), e.answer ≠ none) ∧
      ∀ e ∈ (executions (shownIn history)).dropLast, e.answer ≠ none := by
  induction run with
  | start => simp [shownIn, executions]
  | @next history s a shown s' earlier last ih =>
    have snoc : executions (shownIn (⟨s, a, shown, s'⟩ :: history)) =
        executions (shownIn history) ++ shown.execution.toList := by
      rw [shownIn_cons, executions, filterMap_snoc]
      rfl
    rw [snoc]
    cases step_cases last with
    | @answer i r choice b invoking done =>
      have all := ih.1 (running_step last rfl)
      simp only [Shown.execution, Option.toList_some, List.dropLast_concat, List.mem_append,
        List.mem_singleton]
      refine ⟨?_, all⟩
      rintro _ e (he | rfl)
      · exact all e he
      · simp
    | @exit i r choice invoking done =>
      have all := ih.1 (by rw [invoking]; rfl)
      simp only [Shown.execution, Option.toList_some, List.dropLast_concat]
      refine ⟨fun running => ?_, all⟩
      cases running
    | _ =>
      simp only [Shown.execution, Option.toList_none, List.append_nil]
      exact ⟨fun running => ih.1 (running_step last running), ih.2⟩

theorem executedBy_eq (i : ι) (trace : List (Shown ι ρ β τ)) :
    executedBy i trace = (executions trace).filter fun e => e.client = i := by
  rw [executions, List.filter_filterMap, executedBy]
  congr 1
  funext shown
  cases shown with
  | executed j r choice answer =>
    by_cases self : j = i <;> simp [Shown.executedOf, Shown.execution, Option.filter, self]
  | _ => rfl

/-- No client's request is carried out twice, and no second one of a client is. -/
theorem executed_once (run : Run (step handle) (start requests store) history s) (i : ι) :
    (executedBy i (shownIn history)).length ≤ 1 := by
  have conserved := conserved_run run i
  have read := congrArg List.length conserved.executed
  have once := conserved.once
  rw [List.length_append, List.length_map] at read
  omega

/-- Of a client one request at most is read, and only what was read is carried out. -/
theorem executed_read (run : Run (step handle) (start requests store) history s) (i : ι) :
    (readBy i (shownIn history)).length ≤ 1 ∧
      (executedBy i (shownIn history)).map Execution.request <+: readBy i (shownIn history) := by
  have account := conserved_run run i
  refine ⟨account.once, ?_⟩
  rw [account.executed]
  exact List.prefix_append _ _

/-- What a client is sent are the answers to its requests, from the first on. -/
theorem sent_answers (run : Run (step handle) (start requests store) history s) (i : ι) :
    sentBy i (shownIn history) <+:
      (executedBy i (shownIn history)).filterMap Execution.answer :=
  (List.prefix_append _ _).trans (conserved_run run i).sent

theorem mem_executedBy {i : ι} {trace : List (Shown ι ρ β τ)} {e : Execution ι ρ β τ} :
    e ∈ executedBy i trace ↔ e ∈ executions trace ∧ e.client = i := by
  rw [executedBy_eq, List.mem_filter, decide_eq_true_iff]

/-- A reply that is sent answers a request of its client that was carried out. -/
theorem sent_executed (run : Run (step handle) (start requests store) history s) {i : ι} {b : β}
    (sent : b ∈ sentBy i (shownIn history)) :
    ∃ e ∈ executions (shownIn history), e.client = i ∧ e.answer = some b := by
  obtain ⟨e, he, answer⟩ := List.mem_filterMap.mp ((sent_answers run i).subset sent)
  obtain ⟨he, client⟩ := mem_executedBy.mp he
  exact ⟨e, he, client, answer⟩

/-- A reply that is sent was the answer at its place in the order. -/
theorem sent_at (run : Run (step handle) (start requests store) history s) {i : ι} {b : β}
    (sent : b ∈ sentBy i (shownIn history)) : ∃ before e after now,
      executions (shownIn history) = before ++ e :: after ∧ e.client = i ∧
        Sequential handle store before now ∧
        (handle e.choice e.request now).1 = some b := by
  obtain ⟨e, he, client, answer⟩ := sent_executed run sent
  obtain ⟨before, after, split⟩ := List.append_of_mem he
  have sequential := sequential_run run
  rw [split] at sequential
  obtain ⟨now, reached, answered⟩ := sequential.answer_at
  exact ⟨before, e, after, now, split, client, reached, answered ▸ answer⟩

theorem clients_nodup (run : Run (step handle) (start requests store) history s) :
    ((executions (shownIn history)).map Execution.client).Nodup := by
  rw [List.nodup_iff_count]
  intro i
  have once := executed_once run i
  rw [executedBy_eq] at once
  rw [List.count_eq_length_filter, List.filter_map, List.length_map]
  exact once

/-- A request whose answer was sent before another client's request was read was carried
out before that one. -/
theorem in_real_time {later earlier : List (Event (State ι ρ β σ) (Action ι τ) (Shown ι ρ β τ))}
    (run : Run (step handle) (start requests store) (later ++ earlier) s) {i j : ι}
    (answered : sentBy i (shownIn earlier) ≠ []) (unread : readBy j (shownIn earlier) = [])
    {e d : Execution ι ρ β τ} (he : e ∈ executions (shownIn (later ++ earlier)))
    (hei : e.client = i) (hd : d ∈ executions (shownIn (later ++ earlier)))
    (hdj : d.client = j) : [e, d].Sublist (executions (shownIn (later ++ earlier))) := by
  obtain ⟨middle, before⟩ := run.earlier
  have split := shownIn_append later earlier
  have execs : executions (shownIn (later ++ earlier)) =
      executions (shownIn earlier) ++ executions (shownIn later) := by
    rw [split, executions, List.filterMap_append]
    rfl
  have once := executed_once run i
  have done : executedBy i (shownIn earlier) ≠ [] := by
    intro none
    have sent := sent_answers before i
    rw [none] at sent
    exact answered (List.prefix_nil.mp sent)
  have gone : executedBy i (shownIn later) = [] := by
    rw [split, executedBy, List.filterMap_append, List.length_append] at once
    have one := List.length_pos_iff.mpr done
    exact List.eq_nil_of_length_eq_zero (by simp only [executedBy] at one ⊢; omega)
  have undone : executedBy j (shownIn earlier) = [] := by
    have read := (executed_read before j).2
    rw [unread] at read
    exact List.map_eq_nil_iff.mp (List.prefix_nil.mp read)
  rw [execs] at he hd ⊢
  have first : e ∈ executions (shownIn earlier) := by
    refine (List.mem_append.mp he).resolve_right fun h => ?_
    exact List.ne_nil_of_mem (mem_executedBy.mpr ⟨h, hei⟩) gone
  have second : d ∈ executions (shownIn later) := by
    refine (List.mem_append.mp hd).resolve_left fun h => ?_
    exact List.ne_nil_of_mem (mem_executedBy.mpr ⟨h, hdj⟩) undone
  exact (List.singleton_sublist.mpr first).append (List.singleton_sublist.mpr second)

end Order

end Traces

end Serving
