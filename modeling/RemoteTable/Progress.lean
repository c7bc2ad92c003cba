import Mathlib.Algebra.BigOperators.Group.Finset.Basic
import Mathlib.Data.Fintype.Basic
import RemoteTable.Serving

/-!
# How serving ends

Every step uses up something that is never replaced, so all runs with finitely
many clients are bounded. A run that cannot go on without a failure is settled.
All answers have been sent in every settled run exactly if each client sends one
request, or none sends any.
-/

namespace Progress

open Runs Serving

variable {ι ρ β σ τ : Type}

def linkWeight : Link → Nat
  | .unconnected => 5
  | .pending => 4
  | .accepted => 0

/-- The steps that a client can still cause. -/
def clientWeight (c : Client ρ β) : Nat :=
  linkWeight c.link + 2 * c.toSend.length + if c.waiting then 1 else 0

def phaseWeight : Phase ι ρ β → Nat
  | .accepting => 1
  | .receiving _ => 4
  | .invoking _ _ => 3
  | .sending _ _ => 2
  | .exited => 0

section Bound

variable [Fintype ι]

def potential (s : State ι ρ β σ) : Nat :=
  phaseWeight s.server + ∑ i, clientWeight (s.client i)

variable [DecidableEq ι]

theorem sum_set (s : State ι ρ β σ) (i : ι) (c : Client ρ β) :
    ∑ j, clientWeight ((s.set i c).client j) + clientWeight (s.client i) =
      ∑ j, clientWeight (s.client j) + clientWeight c := by
  have others : ∑ j ∈ Finset.univ.erase i, clientWeight ((s.set i c).client j) =
      ∑ j ∈ Finset.univ.erase i, clientWeight (s.client j) := by
    apply Finset.sum_congr rfl
    intro j hj
    rw [set_client_other c (Finset.ne_of_mem_erase hj)]
  rw [← Finset.add_sum_erase _ _ (Finset.mem_univ i),
    ← Finset.add_sum_erase _ (fun j => clientWeight (s.client j)) (Finset.mem_univ i),
    set_client_self, others]
  omega

section Lowers

variable {s : State ι ρ β σ}

theorem goes_set_lowers {i : ι} {c : Client ρ β} {server : Phase ι ρ β}
    (less : clientWeight c + phaseWeight server <
      clientWeight (s.client i) + phaseWeight s.server) :
    potential ((s.set i c).goes server) < potential s := by
  have total := sum_set s i c
  simp only [potential, goes_client, goes_server]
  omega

theorem set_lowers {i : ι} {c : Client ρ β} (less : clientWeight c < clientWeight (s.client i)) :
    potential (s.set i c) < potential s := by
  have total := sum_set s i c
  simp only [potential, set_server]
  omega

omit [DecidableEq ι] in
theorem goes_lowers {server : Phase ι ρ β} {store : σ}
    (less : phaseWeight server < phaseWeight s.server) :
    potential ⟨server, store, s.client⟩ < potential s :=
  Nat.add_lt_add_right less _

end Lowers

variable {handle : τ → ρ → σ → Option β × σ} {s s' : State ι ρ β σ} {a : Action ι τ}
  {shown : Shown ι ρ β τ}

theorem step_lowers (h : step handle s a = .ok (shown, s')) : potential s' < potential s := by
  cases step_cases h with
  | connect link running =>
    apply set_lowers
    simp [clientWeight, link, linkWeight]
  | request next link idle =>
    apply set_lowers
    simp [clientWeight, next, idle]
    omega
  | reply next waiting =>
    apply set_lowers
    simp [clientWeight, waiting]
  | hangUp waiting stopped =>
    apply set_lowers
    simp [clientWeight, waiting]
  | accept accepting link =>
    apply goes_set_lowers
    simp [clientWeight, accepting, link, linkWeight, phaseWeight]
    omega
  | refuse accepting =>
    apply goes_lowers
    simp [accepting, phaseWeight]
  | receive receiving next =>
    apply goes_set_lowers
    simp [clientWeight, receiving, phaseWeight]
  | lose receiving =>
    apply goes_lowers
    simp [receiving, phaseWeight]
  | answer invoking done =>
    apply goes_lowers
    simp [invoking, phaseWeight]
  | exit invoking done =>
    apply goes_lowers
    simp [invoking, phaseWeight]
  | send sending =>
    apply goes_set_lowers
    simp [clientWeight, sending, phaseWeight]
  | drop sending =>
    apply goes_lowers
    simp [sending, phaseWeight]

variable {history : List (Event (State ι ρ β σ) (Action ι τ) (Shown ι ρ β τ))}

theorem run_lowers {init : State ι ρ β σ} (run : Run (step handle) init history s) :
    history.length + potential s ≤ potential init := by
  induction run with
  | start => exact Nat.le_of_eq (Nat.zero_add _)
  | next earlier last ih =>
    have lower := step_lowers last
    rw [List.length_cons]
    omega

omit [DecidableEq ι] in
theorem potential_start (requests : ι → List ρ) (store : σ) :
    potential (start (β := β) requests store) = 1 + ∑ i, (5 + 2 * (requests i).length) := by
  simp [potential, start, phaseWeight, clientWeight, linkWeight]

/-- All runs with finitely many clients are bounded. -/
theorem run_length_le {requests : ι → List ρ} {store : σ}
    (run : Run (step handle) (start requests store) history s) :
    history.length ≤ 1 + ∑ i, (5 + 2 * (requests i).length) := by
  have lower := run_lowers run
  rw [potential_start] at lower
  omega

end Bound

section Settled

variable [DecidableEq ι]

/-- A call of the server that fails although nothing forces it to. -/
def Failure : Action ι τ → Prop
  | .refuse => True
  | .lose => True
  | .drop => True
  | _ => False

def Settled (handle : τ → ρ → σ → Option β × σ) (s : State ι ρ β σ) : Prop :=
  ∀ a, ¬ Failure a → step handle s a = .error ()

variable {handle : τ → ρ → σ → Option β × σ} {init s : State ι ρ β σ}
  {history : List (Event (State ι ρ β σ) (Action ι τ) (Shown ι ρ β τ))}

/-- Every run goes on, without a failure, to a settled state. -/
theorem settles [Fintype ι] (P : State ι ρ β σ → Prop)
    (keeps : ∀ s a shown s', P s → ¬ Failure a → step handle s a = .ok (shown, s') → P s')
    (run : Run (step handle) init history s) (hs : P s) :
    ∃ history' s', Run (step handle) init history' s' ∧ Settled handle s' ∧ P s' := by
  induction hn : potential s using Nat.strong_induction_on generalizing history s with
  | h n ih =>
    by_cases settled : Settled handle s
    · exact ⟨history, s, run, settled, hs⟩
    · simp only [Settled, not_forall] at settled
      obtain ⟨a, smooth, enabled⟩ := settled
      cases h : step handle s a with
      | error e => exact absurd h enabled
      | ok out =>
        obtain ⟨shown, s'⟩ := out
        exact ih _ (hn ▸ step_lowers h) (run.next h) (keeps s a shown s' hs smooth h) rfl

section Served

variable {requests : ι → List ρ} {trace : List (Shown ι ρ β τ)}

/-- In a settled state the server waits for a connection, with every connection
read once, or for a request of a client that sends none. -/
theorem settled_cases [Nonempty τ] (settled : Settled handle s) (running : s.server.running)
    (conserved : ∀ i, Conserved (requests i) trace i (s.client i) (s.server.at i) s.server.running) :
    (s.server = .accepting ∧ ∀ i, (s.client i).link = .accepted) ∨
      ∃ i, s.server = .receiving i ∧ requests i = [] := by
  obtain ⟨choice⟩ := ‹Nonempty τ›
  cases hs : s.server with
  | accepting =>
    refine Or.inl ⟨rfl, fun i => ?_⟩
    cases link : (s.client i).link with
    | unconnected =>
      have stuck := settled (.connect i) id
      simp [step, link, running] at stuck
    | pending =>
      have stuck := settled (.accept i) id
      simp [step, hs, link] at stuck
    | accepted => rfl
  | receiving i =>
    refine Or.inr ⟨i, rfl, ?_⟩
    have account := conserved i
    rw [hs, at_receiving_self] at account
    have unread : (s.client i).unread = [] := by
      cases hu : (s.client i).unread with
      | nil => rfl
      | cons r rest =>
        have stuck := settled .receive id
        simp [step, hs, hu] at stuck
    have nothing := account.fresh (Or.inr rfl)
    have issued : issuedBy i trace = [] := by rw [account.read, nothing, unread]; rfl
    have idle : (s.client i).waiting = false := by
      have waits := account.waits rfl
      rw [issued] at waits
      cases hw : (s.client i).waiting with
      | false => rfl
      | true =>
        simp only [hw, if_true, List.length_nil] at waits
        omega
    have link := account.on (by simp)
    rw [account.issued, issued, List.nil_append]
    cases next : (s.client i).toSend with
    | nil => rfl
    | cons r rest =>
      have stuck := settled (.request i) id
      simp [step, next, link, idle] at stuck
  | invoking i r =>
    have stuck := settled (.invoke choice) id
    simp [step, hs] at stuck
  | sending i b =>
    have stuck := settled .send id
    simp [step, hs] at stuck
  | exited => simp [hs, Phase.running] at running

/-- A client of one request was sent its reply when the server waits for a connection. -/
theorem settled_answered {i : ι} {r : ρ} (link : (s.client i).link = .accepted)
    (one : requests i = [r]) (account : Conserved (requests i) trace i (s.client i) .away true) :
    (sentBy i trace).length = 1 := by
  have used : readBy i trace ≠ [] := account.served rfl (by simp [Fresh, link])
  have read := List.length_pos_iff.mpr used
  have issued := congrArg List.length account.issued
  have arrived := congrArg List.length account.read
  have executed := congrArg List.length account.executed
  have answered := congrArg List.length (account.answered rfl)
  simp only [one, List.length_append, List.length_map, List.length_singleton, held_away,
    telling_away, List.append_nil] at issued arrived executed answered
  omega

theorem sent_le_one (run : Run (step handle) (start requests store) history s) (i : ι) :
    (sentBy i (shownIn history)).length ≤ 1 :=
  ((sent_answers run i).length_le.trans (List.length_filterMap_le _ _)).trans (executed_once run i)

/-- A client whose connection was not accepted is sent nothing. -/
theorem none_sent (run : Run (step handle) (start requests store) history s) {i : ι}
    (link : (s.client i).link ≠ .accepted) : sentBy i (shownIn history) = [] := by
  have account := conserved_run run i
  have unread := account.fresh (Or.inl link)
  have executed := account.executed
  have sent := account.sent
  simp_all

end Served

section Friendly

/-- The server runs on, its state is the one given, and all requests are the one given. -/
structure Friendly (r : ρ) (store : σ) (s : State ι ρ β σ) : Prop where
  running : s.server.running = true
  store : s.store = store
  requests : ∀ i, ∀ r' ∈ (s.client i).toSend ++ (s.client i).unread, r' = r
  invoked : ∀ i r', s.server = .invoking i r' → r' = r

theorem Friendly.set {r : ρ} {store : σ} (friendly : Friendly r store s) {i : ι} {c : Client ρ β}
    {server : Phase ι ρ β} (running : server.running = true)
    (requests : ∀ r' ∈ c.toSend ++ c.unread, r' = r)
    (invoked : ∀ i r', server = .invoking i r' → r' = r) :
    Friendly r store ((s.set i c).goes server) where
  running := running
  store := friendly.store
  requests j r' hr' := by
    by_cases self : j = i
    · subst self
      rw [goes_client, set_client_self] at hr'
      exact requests r' hr'
    · rw [goes_client, set_client_other c self] at hr'
      exact friendly.requests j r' hr'
  invoked := invoked

theorem friendly_step {r : ρ} {store : σ}
    (answers : ∀ choice, ∃ b, handle choice r store = (some b, store))
    {s' : State ι ρ β σ} {a : Action ι τ} {shown : Shown ι ρ β τ}
    (friendly : Friendly r store s) (smooth : ¬ Failure a)
    (h : step handle s a = .ok (shown, s')) : Friendly r store s' := by
  cases step_cases h with
  | @connect i link running =>
    exact friendly.set running (friendly.requests i) friendly.invoked
  | @request i r' rest next link idle =>
    refine friendly.set friendly.running ?_ friendly.invoked
    have requests := friendly.requests i
    rw [next] at requests
    intro r'' hr''
    apply requests
    simp only [List.mem_append, List.mem_cons] at hr'' ⊢
    tauto
  | @reply i b rest next waiting =>
    exact friendly.set friendly.running (friendly.requests i) friendly.invoked
  | @hangUp i waiting stopped =>
    exact friendly.set friendly.running (friendly.requests i) friendly.invoked
  | @accept i accepting link => exact friendly.set rfl (friendly.requests i) (by simp)
  | refuse => exact absurd trivial smooth
  | @receive i r' rest receiving next =>
    have requests := friendly.requests i
    rw [next] at requests
    refine friendly.set rfl ?_ ?_
    · intro r'' hr''
      apply requests
      simp only [List.mem_append, List.mem_cons] at hr'' ⊢
      tauto
    · intro j r'' h
      cases h
      exact requests r' (by simp)
  | lose => exact absurd trivial smooth
  | @answer i r' choice b invoking done =>
    rw [friendly.invoked i r' invoking, friendly.store]
    obtain ⟨b', hb⟩ := answers choice
    exact ⟨rfl, by rw [hb], friendly.requests, by simp⟩
  | @exit i r' choice invoking done =>
    rw [friendly.invoked i r' invoking, friendly.store] at done
    obtain ⟨b', hb⟩ := answers choice
    rw [hb] at done
    cases done
  | @send i b sending => exact friendly.set rfl (friendly.requests i) (by simp)
  | drop => exact absurd trivial smooth

end Friendly

section Blocked

/-- The server waits for a request of a client that has none. -/
structure Blocked (i : ι) (s : State ι ρ β σ) : Prop where
  receiving : s.server = .receiving i
  silent : (s.client i).toSend = [] ∧ (s.client i).unread = []
  others : ∀ j, j ≠ i → (s.client j).link ≠ .accepted

theorem Blocked.set {i j : ι} {c : Client ρ β} (blocked : Blocked i s)
    (silent : j = i → c.toSend = [] ∧ c.unread = []) (link : j ≠ i → c.link ≠ .accepted) :
    Blocked i (s.set j c) where
  receiving := blocked.receiving
  silent := by
    by_cases self : i = j
    · subst self
      rw [set_client_self]
      exact silent rfl
    · rw [set_client_other c self]
      exact blocked.silent
  others k hk := by
    by_cases self : k = j
    · subst self
      rw [set_client_self]
      exact link hk
    · rw [set_client_other c self]
      exact blocked.others k hk

theorem blocked_step {i : ι} {s' : State ι ρ β σ} {a : Action ι τ} {shown : Shown ι ρ β τ}
    (blocked : Blocked i s) (smooth : ¬ Failure a) (h : step handle s a = .ok (shown, s')) :
    Blocked i s' := by
  have silent : ∀ j, j = i → (s.client j).toSend = [] ∧ (s.client j).unread = [] := by
    rintro j rfl
    exact blocked.silent
  cases step_cases h with
  | @connect j link running => exact blocked.set (silent j) (by simp)
  | @request j r rest next link idle =>
    refine blocked.set ?_ (blocked.others j)
    intro self
    rw [(silent j self).1] at next
    cases next
  | @reply j b rest next waiting => exact blocked.set (silent j) (blocked.others j)
  | @hangUp j waiting stopped => exact blocked.set (silent j) (blocked.others j)
  | accept accepting link => cases blocked.receiving.symm.trans accepting
  | refuse => exact absurd trivial smooth
  | @receive j r rest receiving next =>
    cases blocked.receiving.symm.trans receiving
    rw [blocked.silent.2] at next
    cases next
  | lose => exact absurd trivial smooth
  | answer invoking done => cases blocked.receiving.symm.trans invoking
  | exit invoking done => cases blocked.receiving.symm.trans invoking
  | send sending => cases blocked.receiving.symm.trans sending
  | drop => exact absurd trivial smooth

variable (handle) in
/-- A client that connects and sends nothing keeps the server from all others. -/
theorem silent_blocks [Fintype ι] {requests : ι → List ρ} {i : ι} (none : requests i = [])
    (store : σ) : ∃ history s, Run (step handle) (start requests store) history s ∧
      Settled handle s ∧ Blocked i s := by
  let s0 : State ι ρ β σ := start requests store
  let s1 := s0.set i { s0.client i with link := .pending }
  let s2 := (s1.set i { s1.client i with link := .accepted }).goes (.receiving i)
  have connect : step handle s0 (.connect i) = .ok (.nothing, s1) := rfl
  have accept : step handle s1 (.accept i) = .ok (.nothing, s2) := by
    simp [step, s1, s2, s0, start]
  have blocked : Blocked i s2 := by
    refine ⟨rfl, ?_, ?_⟩
    · simp [s2, s1, s0, start, none]
    · intro j other
      simp [s2, s1, s0, start, set_client_other _ other]
  exact settles (Blocked i) (fun _ _ _ _ => blocked_step) ((Run.start.next connect).next accept)
    blocked

end Blocked

/-- Every client was sent a reply to each of its requests. -/
def Answered (requests : ι → List ρ) (trace : List (Shown ι ρ β τ)) : Prop :=
  ∀ i, (sentBy i trace).length = (requests i).length

/-- One request from everybody, or none at all, is what makes sure that every
client is answered wherever the server neither fails nor exits. -/
theorem answered_iff [Fintype ι] [Nonempty τ] (n : ι → Nat) {r0 : ρ} {store0 : σ}
    (answers : ∀ choice, ∃ b, handle choice r0 store0 = (some b, store0)) :
    (∀ requests store history s, (∀ i, (requests i).length = n i) →
      Run (step handle) (start requests store) history s → Settled handle s →
        s.server.running → Answered requests (shownIn history)) ↔
      (∀ i, n i = 0) ∨ ∀ i, n i = 1 := by
  constructor
  · intro answered
    by_contra neither
    rw [not_or, not_forall, not_forall] at neither
    obtain ⟨⟨j, hj⟩, k, hk⟩ := neither
    let requests : ι → List ρ := fun i => List.replicate (n i) r0
    have lengths : ∀ i, (requests i).length = n i := fun i => List.length_replicate
    by_cases many : ∃ i, 1 < n i
    · obtain ⟨i, hi⟩ := many
      have begun : Run (step handle) (start requests store0) [] (start requests store0) := .start
      have friendly : Friendly r0 store0 (start (β := β) requests store0) :=
        ⟨rfl, rfl, fun i r hr => by
          rw [start, List.append_nil] at hr
          exact List.eq_of_mem_replicate hr, by simp [start]⟩
      obtain ⟨history, s, run, settled, friendly⟩ :=
        settles (Friendly r0 store0) (fun _ _ _ _ => friendly_step answers) begun friendly
      have sent := answered requests store0 history s lengths run settled friendly.running i
      have once := sent_le_one run i
      rw [lengths] at sent
      omega
    · have silent : n k = 0 := by
        have few := not_exists.mp many k
        omega
      have none : requests k = [] := List.eq_nil_of_length_eq_zero ((lengths k).trans silent)
      have other : j ≠ k := by
        rintro rfl
        exact hj silent
      obtain ⟨history, s, run, settled, blocked⟩ := silent_blocks handle none store0
      have running : s.server.running = true := by rw [blocked.receiving]; rfl
      have sent := answered requests store0 history s lengths run settled running j
      rw [none_sent run (blocked.others j other), lengths] at sent
      exact hj sent.symm
  · rintro (none | one) requests store history s lengths run settled running i
    · have account := conserved_run run i
      have nothing := List.eq_nil_of_length_eq_zero ((lengths i).trans (none i))
      have issued := account.issued
      have read := account.read
      have executed := account.executed
      have sent := account.sent
      rw [nothing] at issued ⊢
      simp_all
    · have account := conserved_run run i
      obtain ⟨r, hr⟩ := List.length_eq_one_iff.mp ((lengths i).trans (one i))
      rw [hr, List.length_singleton]
      rcases settled_cases settled running (conserved_run run) with ⟨accepting, links⟩ | ⟨j, _, none⟩
      · rw [accepting] at account
        exact settled_answered (links i) hr account
      · have short := lengths j
        rw [none, one j] at short
        cases short

end Settled

end Progress
