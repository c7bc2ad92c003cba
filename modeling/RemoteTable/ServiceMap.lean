import RemoteTable.Clients
import RemoteTable.TableCount

/-!
# The service as a map

What the server sends the clients is what one map would tell them that carries out
the same requests in the same order, as long as the chains of the table behave: no
removal finds its key twice and, for the size, no put misses its key.
-/

namespace ServiceMap

open CStrings Memory Entries ListOps ListRuns Tables TableRuns TableMap TableCount
open Skeleton Server Runs Serving Clients

/-- The table operation of a request. -/
def asOp (alloc : Alloc) (msg : MessageT) : Option TableOp :=
  match msg.opcode, msg.content with
  | .OC_PUT, .entry (some ⟨_, ⟨some key, some value⟩⟩) =>
    some (.put alloc.mem alloc.node key value)
  | .OC_DEL, .key (some key) => some (.remove key)
  | .OC_GET, .key (some key) => some (.get alloc.mem alloc.buffer key)
  | .OC_SIZE, _ => some .size
  | _, _ => none

def effect (contents : CString → Option (Ptr Data)) : TableOp → CString → Option (Ptr Data)
  | .put _ _ key value => Function.update contents key.obj (some value)
  | .remove key => Function.update contents key none
  | .get .. => contents
  | .size => contents

section Requests

variable {ι : Type}

/-- The map after requests, the oldest first. -/
def contents (executed : List (Execution ι MessageT MessageT Alloc)) :
    CString → Option (Ptr Data) :=
  (executed.filterMap fun e => asOp e.choice e.request).foldl effect fun _ => none

theorem contents_snoc (executed : List (Execution ι MessageT MessageT Alloc))
    (e : Execution ι MessageT MessageT Alloc) :
    contents (executed ++ [e]) = match asOp e.choice e.request with
      | some op => effect (contents executed) op
      | none => contents executed := by
  rw [contents, filterMap_snoc, List.foldl_append]
  cases asOp e.choice e.request <;> rfl

end Requests

theorem effect_bound {contents : CString → Option (Ptr Data)} {history : List TableEvent}
    (same : bound history = contents) (e : TableEvent) :
    bound (e :: history) = effect contents e.op := by
  subst same
  funext k
  obtain ⟨s, op, r, s'⟩ := e
  cases op with
  | put mem node key value => simp [bound, effect, Function.update_apply, eq_comm]
  | remove key => simp [bound, effect, Function.update_apply, eq_comm]
  | get mem buffer key => rfl
  | size => rfl

/-- What a map with these contents answers. -/
def MapReply (contents : CString → Option (Ptr Data)) (request reply : MessageT) : Prop :=
  match request.opcode, request.content with
  | .OC_PUT, _ => reply = request
  | .OC_DEL, _ => reply = request
  | .OC_GET, .key (some key) => ∃ d, reply = ⟨.OC_GET, .data d⟩ ∧
    d.map (fun copy => copy.obj.value) = (contents key).map fun value => value.obj.value
  | _, _ => True

def SizeReply (contents : CString → Option (Ptr Data)) (request reply : MessageT) : Prop :=
  request.opcode = .OC_SIZE → ∃ keys : Finset CString, (∀ k, k ∈ keys ↔ contents k ≠ none) ∧
    reply = ⟨.OC_SIZE, .result keys.card⟩

variable {tableGetTable : Table → Option (List (Ptr Entry))} {alloc : Alloc}

/-- An answered request is at most one completed table operation. -/
inductive Carried (alloc : Alloc) (now : Table) : MessageT → MessageT → Table → Prop
  | put {e key value c next} (entry : e.obj = ⟨some key, some value⟩)
      (step : tableStep now (.put alloc.mem alloc.node key value) = .ok (.code c, next)) :
      Carried alloc now ⟨.OC_PUT, .entry (some e)⟩ ⟨.OC_PUT, .entry (some e)⟩ next
  | remove {key c next} (step : tableStep now (.remove key) = .ok (.code c, next)) :
      Carried alloc now ⟨.OC_DEL, .key (some key)⟩ ⟨.OC_DEL, .key (some key)⟩ next
  | get {key d} (step : tableStep now (.get alloc.mem alloc.buffer key) = .ok (.data d, now)) :
      Carried alloc now ⟨.OC_GET, .key (some key)⟩ ⟨.OC_GET, .data d⟩ now
  | getNull {reply} : Carried alloc now ⟨.OC_GET, .key none⟩ reply now
  | size {content} :
      Carried alloc now ⟨.OC_SIZE, content⟩ ⟨.OC_SIZE, .result (tableSize now)⟩ now
  | keys {content reply} : Carried alloc now ⟨.OC_GETKEYS, content⟩ reply now
  | entries {content reply} : Carried alloc now ⟨.OC_GETTABLE, content⟩ reply now

theorem carryOut_cases {msg reply : MessageT} {now next : Table}
    (h : carryOut tableGetTable alloc msg now = (some reply, next)) :
    Carried alloc now msg reply next := by
  unfold carryOut at h
  cases hd : invoke tableGetTable alloc (some msg) (some now) with
  | error fault => simp [hd] at h
  | ok d =>
    simp only [hd, Prod.mk.injEq] at h
    obtain ⟨answer, rfl⟩ := h
    split_ifs at answer with code
    rcases invoke_cases hd with ⟨_, rfl⟩ | ⟨t, ⟨r, t'⟩, ht, hcall, rfl⟩
    · simp at code
    · cases ht
      obtain ⟨opcode, content⟩ := msg
      cases opcode with
      | OC_PUT =>
        obtain ⟨e, c, rfl, rfl, hput⟩ := put_returned hcall
        obtain ⟨block, key, value⟩ := e
        cases answer
        match key, value with
        | some key, some value =>
          have hput : tablePut alloc.mem alloc.node now (some key) (some value) = .ok (c, t') := hput
          have step : tableStep now (.put alloc.mem alloc.node key value) = .ok (.code c, t') := by
            simp only [tableStep, hput, ok_bind, pure_eq_ok]
          exact .put rfl step
        | none, _ =>
          cases hput
          simp [place] at code
        | some _, none =>
          cases hput
          simp [place] at code
      | OC_GET =>
        obtain ⟨key, d, rfl, rfl, rfl, hget⟩ := get_returned hcall
        cases answer
        cases key with
        | none => exact .getNull
        | some key =>
          have step : tableStep t' (.get alloc.mem alloc.buffer key) = .ok (.data d, t') := by
            simp only [tableStep, hget, ok_bind, pure_eq_ok]
          exact .get step
      | OC_DEL =>
        obtain ⟨key, c, rfl, rfl, hremove⟩ := remove_returned hcall
        cases answer
        cases key with
        | none =>
          cases hremove
          simp [place] at code
        | some key =>
          have step : tableStep now (.remove key) = .ok (.code c, t') := by
            simp only [tableStep, hremove, ok_bind, pure_eq_ok]
          exact .remove step
      | OC_SIZE =>
        cases hcall
        cases answer
        exact .size
      | OC_GETKEYS =>
        cases hcall
        exact .keys
      | OC_GETTABLE =>
        cases hcall
        exact .entries
      | other c => cases hcall

theorem carryOut_step {msg reply : MessageT} {now next : Table} {op : TableOp}
    (h : carryOut tableGetTable alloc msg now = (some reply, next))
    (asks : asOp alloc msg = some op) : ∃ r, tableStep now op = .ok (r, next) := by
  cases carryOut_cases h with
  | put entry step =>
    rename_i e key value c
    obtain ⟨block, e⟩ := e
    cases entry
    cases asks
    exact ⟨_, step⟩
  | remove step =>
    cases asks
    exact ⟨_, step⟩
  | get step =>
    cases asks
    exact ⟨_, step⟩
  | size =>
    cases asks
    exact ⟨_, rfl⟩
  | getNull | keys | entries => cases asks

section Throughout

variable {ι : Type} {t0 now : Table} {executed : List (Execution ι MessageT MessageT Alloc)}

/-- `C` holds of the operation of every request, on the table it was carried out on. -/
def Throughout (tableGetTable : Table → Option (List (Ptr Entry))) (C : Table → TableOp → Prop)
    (t0 : Table) (executed : List (Execution ι MessageT MessageT Alloc)) : Prop :=
  ∀ before e after now op, executed = before ++ e :: after →
    Sequential (carryOut tableGetTable) t0 before now →
    asOp e.choice e.request = some op → C now op

/-- The table shows the map of the requests, and counts its keys where puts find theirs. -/
structure Showing (tableGetTable : Table → Option (List (Ptr Entry))) (t0 : Table)
    (executed : List (Execution ι MessageT MessageT Alloc)) (history : List TableEvent)
    (now : Table) : Prop where
  shows : Shows history now
  bytes : Bytes history
  same : bound history = contents executed
  counts : Throughout tableGetTable PutFindsKey t0 executed → Counts history now

theorem Throughout.before {C : Table → TableOp → Prop}
    {later : List (Execution ι MessageT MessageT Alloc)}
    (all : Throughout tableGetTable C t0 (executed ++ later)) :
    Throughout tableGetTable C t0 executed := by
  intro before e after now op split
  apply all before e (after ++ later) now op
  rw [split, List.append_assoc]
  rfl

theorem Throughout.snoc {C : Table → TableOp → Prop} {e : Execution ι MessageT MessageT Alloc}
    (all : Throughout tableGetTable C t0 executed)
    (reached : Sequential (carryOut tableGetTable) t0 executed now)
    (last : ∀ op, asOp e.choice e.request = some op → C now op) :
    Throughout tableGetTable C t0 (executed ++ [e]) := by
  intro before d after now' op split reached' asks
  rcases List.eq_nil_or_concat after with rfl | ⟨after, f, rfl⟩
  · obtain ⟨rfl, same⟩ := List.append_inj' split rfl
    cases same
    rw [reached.unique reached']
    exact last op asks
  · rw [List.concat_eq_append, ← List.cons_append, ← List.append_assoc] at split
    exact all before d after now' op (List.append_inj' split rfl).1 reached' asks

/-- No allocation fails, a value put has bytes to copy and a removal finds its key once
at most. -/
def Behaves (now : Table) (op : TableOp) : Prop := Proper op ∧ RemovesSingle now op

theorem Showing.step {history : List TableEvent} {e : Execution ι MessageT MessageT Alloc}
    {reply : MessageT} {next : Table}
    (showing : Showing tableGetTable t0 executed history now)
    (reached : Sequential (carryOut tableGetTable) t0 executed now)
    (behaves : ∀ op, asOp e.choice e.request = some op → Behaves now op)
    (h : carryOut tableGetTable e.choice e.request now = (some reply, next)) :
    MapReply (contents executed) e.request reply ∧
      (Throughout tableGetTable PutFindsKey t0 executed →
        SizeReply (contents executed) e.request reply) ∧
      ∃ history', Showing tableGetTable t0 (executed ++ [e]) history' next := by
  obtain ⟨shows, bytes, same, counts⟩ := showing
  have does : ∀ op r, asOp e.choice e.request = some op → tableStep now op = .ok (r, next) →
      Answered history ⟨now, op, r, next⟩ ∧
        Showing tableGetTable t0 (executed ++ [e]) (⟨now, op, r, next⟩ :: history) next := by
    intro op r asks step
    obtain ⟨proper, single⟩ := behaves op asks
    obtain ⟨answered, shows'⟩ := shows_step shows bytes proper single step
    refine ⟨answered, shows', bytes_step bytes proper, ?_, ?_⟩
    · rw [effect_bound same, contents_snoc, asks]
    · intro finds
      have allocated : Allocated op := by
        cases op with
        | put => exact ⟨proper.1, proper.2.1⟩
        | _ => trivial
      exact (counts_step (counts finds.before) allocated step).2
        (finds executed e [] now op rfl reached asks)
  have stays : asOp e.choice e.request = none →
      Showing tableGetTable t0 (executed ++ [e]) history now := by
    intro asks
    refine ⟨shows, bytes, ?_, fun finds => counts finds.before⟩
    rw [contents_snoc, asks, same]
  obtain ⟨client, request, choice, answer⟩ := e
  cases carryOut_cases h with
  | @put e key value c next entry step =>
    obtain ⟨block, e⟩ := e
    cases entry
    exact ⟨rfl, fun _ => by simp [SizeReply], _, (does _ _ rfl step).2⟩
  | remove step => exact ⟨rfl, fun _ => by simp [SizeReply], _, (does _ _ rfl step).2⟩
  | get step =>
    obtain ⟨answered, showing⟩ := does _ _ rfl step
    refine ⟨⟨_, rfl, ?_⟩, fun _ => by simp [SizeReply], _, showing⟩
    rw [← same]
    exact answered
  | getNull => exact ⟨trivial, fun _ => by simp [SizeReply], _, stays rfl⟩
  | size =>
    refine ⟨trivial, ?_, _, (does .size _ rfl rfl).2⟩
    intro finds _
    refine ⟨boundKeys history, ?_, ?_⟩
    · intro k
      rw [mem_boundKeys, same]
    · rw [(counts finds).size]
  | keys => exact ⟨trivial, fun _ => by simp [SizeReply], _, stays rfl⟩
  | entries => exact ⟨trivial, fun _ => by simp [SizeReply], _, stays rfl⟩

theorem showing_run (reached : Sequential (carryOut tableGetTable) t0 executed now)
    (answered : ∀ e ∈ executed, e.answer ≠ none)
    (behaves : Throughout tableGetTable Behaves t0 executed)
    {mem array : Option Nat} {each : Nat → Option Nat} {n : Int}
    (created : tableCreate mem array each n = some t0) :
    ∃ history, Showing tableGetTable t0 executed history now := by
  induction reached with
  | none =>
    exact ⟨[], created_shows created, by simp [Bytes, bound], rfl, fun _ => created_counts created⟩
  | @snoc earlier now before i r choice ih =>
    obtain ⟨history, showing⟩ :=
      ih (fun e he => answered e (List.mem_append_left _ he)) behaves.before
    obtain ⟨reply, hreply⟩ := Option.ne_none_iff_exists'.mp
      (answered _ (List.mem_append_right _ (List.mem_singleton_self _)))
    exact (showing.step before (fun op => behaves earlier _ [] now op rfl before)
      (Prod.ext hreply rfl)).2.2

end Throughout

section Replies

variable {ι : Type} [DecidableEq ι] {requests : ι → List MessageT} {t0 : Table}
  {s : State ι MessageT MessageT Table}
  {history : List (Event (State ι MessageT MessageT Table) (Action ι Alloc)
    (Shown ι MessageT MessageT Alloc))}

theorem answered_before (run : Run (step (carryOut tableGetTable)) (start requests t0) history s)
    {before after : List (Execution ι MessageT MessageT Alloc)}
    {e : Execution ι MessageT MessageT Alloc}
    (split : executions (shownIn history) = before ++ e :: after) :
    ∀ d ∈ before, d.answer ≠ none := by
  intro d hd
  apply (unanswered_last run).2 d
  rw [split, List.dropLast_append_of_ne_nil (List.cons_ne_nil e after)]
  exact List.mem_append_left _ hd

end Replies

section Distinct

/-- The key a request puts. -/
def putKey (msg : MessageT) : Option CString :=
  match msg.opcode, msg.content with
  | .OC_PUT, .entry (some ⟨_, ⟨some key, some _⟩⟩) => some key.obj
  | _, _ => none

theorem asOp_put {msg : MessageT} {mem node : Option Nat} {key : Ptr CString} {value : Ptr Data}
    (asks : asOp alloc msg = some (.put mem node key value)) : putKey msg = some key.obj := by
  unfold asOp at asks
  split at asks
  · rename_i hop hcontent
    cases asks
    rw [putKey, hop, hcontent]
  all_goals cases asks

variable {ι : Type} {t0 now : Table} {executed : List (Execution ι MessageT MessageT Alloc)}

/-- What the map holds was put. -/
theorem contents_put {k : CString} (held : contents executed k ≠ none) :
    ∃ e ∈ executed, putKey e.request = some k := by
  induction executed using List.reverseRecOn with
  | nil => exact absurd rfl held
  | append_singleton executed e ih =>
    have earlier : contents executed k ≠ none →
        ∃ d ∈ executed ++ [e], putKey d.request = some k := by
      intro held
      obtain ⟨d, hd, hput⟩ := ih held
      exact ⟨d, List.mem_append_left _ hd, hput⟩
    rw [contents_snoc] at held
    cases asks : asOp e.choice e.request with
    | none => exact earlier (by simpa [asks] using held)
    | some op =>
      rw [asks] at held
      cases op with
      | put mem node key value =>
        by_cases same : k = key.obj
        · exact ⟨e, by simp, by rw [asOp_put asks, same]⟩
        · exact earlier (by simpa [effect, Function.update_of_ne same] using held)
      | remove key =>
        by_cases same : k = key
        · simp [effect, same] at held
        · exact earlier (by simpa [effect, Function.update_of_ne same] using held)
      | get mem buffer key => exact earlier held
      | size => exact earlier held

/-- No key is put twice. -/
def PutOnce (executed : List (Execution ι MessageT MessageT Alloc)) : Prop :=
  ∀ before e after k, executed = before ++ e :: after → putKey e.request = some k →
    ∀ d ∈ before, putKey d.request ≠ some k

theorem PutOnce.before {later : List (Execution ι MessageT MessageT Alloc)}
    (once : PutOnce (executed ++ later)) : PutOnce executed := by
  intro before e after k split
  apply once before e (after ++ later) k
  rw [split, List.append_assoc]
  rfl

/-- No allocation fails and every value put can be copied. -/
def AllProper (executed : List (Execution ι MessageT MessageT Alloc)) : Prop :=
  ∀ e ∈ executed, ∀ op, asOp e.choice e.request = some op → Proper op

variable {history : List TableEvent} {e : Execution ι MessageT MessageT Alloc} {op : TableOp}

/-- On the table of such requests the next one finds what it should. -/
theorem finds_key (counts : Counts history now) (same : bound history = contents executed)
    (once : PutOnce (executed ++ [e])) (proper : Proper op)
    (asks : asOp e.choice e.request = some op) {r : TableResult} {next : Table}
    (step : tableStep now op = .ok (r, next)) : Behaves now op ∧ PutFindsKey now op := by
  cases tableStep_cases step with
  | @put mem node key value c list range add =>
    refine ⟨⟨proper, trivial⟩, ?_⟩
    intro present
    rw [counts.present _ range, mem_boundKeys, same] at present
    obtain ⟨d, hd, hput⟩ := contents_put present
    exact absurd hput (once executed e [] key.obj rfl (asOp_put asks) d hd)
  | @remove key c list range remove =>
    exact ⟨⟨proper, List.nodup_iff_count.mp (counts.nodup key range) key⟩, trivial⟩
  | get => exact ⟨⟨proper, trivial⟩, trivial⟩
  | size => exact ⟨⟨proper, trivial⟩, trivial⟩

theorem once_run {mem array : Option Nat} {each : Nat → Option Nat} {n : Int}
    (created : tableCreate mem array each n = some t0)
    (reached : Sequential (carryOut tableGetTable) t0 executed now)
    (answered : ∀ e ∈ executed, e.answer ≠ none) (once : PutOnce executed)
    (proper : AllProper executed) :
    (∃ history, Showing tableGetTable t0 executed history now) ∧
      Throughout tableGetTable PutFindsKey t0 executed := by
  induction reached with
  | none =>
    refine ⟨⟨[], created_shows created, by simp [Bytes, bound], rfl,
      fun _ => created_counts created⟩, ?_⟩
    intro before e after now op split
    simp at split
  | @snoc earlier now before i r choice ih =>
    obtain ⟨⟨history, showing⟩, finds⟩ :=
      ih (fun e he => answered e (List.mem_append_left _ he)) once.before
        (fun e he => proper e (List.mem_append_left _ he))
    have last := List.mem_append_right earlier (List.mem_singleton_self
      (⟨i, r, choice, (carryOut tableGetTable choice r now).1⟩ : Execution ι _ _ _))
    obtain ⟨reply, hreply⟩ := Option.ne_none_iff_exists'.mp (answered _ last)
    have does : carryOut tableGetTable choice r now = (some reply, _) := Prod.ext hreply rfl
    have good : ∀ op, asOp choice r = some op → Behaves now op ∧ PutFindsKey now op := by
      intro op asks
      obtain ⟨result, step⟩ := carryOut_step does asks
      exact finds_key (showing.counts finds) showing.same once (proper _ last op asks) asks step
    exact ⟨(showing.step before (fun op asks => (good op asks).1) does).2.2,
      finds.snoc before fun op asks => (good op asks).2⟩

end Distinct

section DistinctClients

variable {ι : Type} [DecidableEq ι] {requests : ι → List MessageT} {t0 : Table}
  {s : State ι MessageT MessageT Table}
  {history : List (Event (State ι MessageT MessageT Table) (Action ι Alloc)
    (Shown ι MessageT MessageT Alloc))}

/-- Clients that put different keys, with values that can be copied, are served as by a
map whatever the interleaving: gets, removals and sizes alike. -/
theorem distinct_clients_like_map {mem array : Option Nat} {each : Nat → Option Nat} {n : Int}
    (created : tableCreate mem array each n = some t0)
    (run : Run (step (carryOut tableGetTable)) (start requests t0) history s)
    (distinct : ∀ e ∈ executions (shownIn history), ∀ d ∈ executions (shownIn history), ∀ k,
      putKey e.request = some k → putKey d.request = some k → e.client = d.client)
    (proper : AllProper (executions (shownIn history))) :
    ∀ i reply, reply ∈ sentBy i (shownIn history) → ∃ before e after,
      executions (shownIn history) = before ++ e :: after ∧ e.client = i ∧
        MapReply (contents before) e.request reply ∧
        SizeReply (contents before) e.request reply := by
  have once : PutOnce (executions (shownIn history)) := by
    intro before e after k split puts d hd puts'
    have nodup := clients_nodup run
    rw [split, List.map_append, List.nodup_append] at nodup
    have he : e ∈ executions (shownIn history) := by simp [split]
    have hd' : d ∈ executions (shownIn history) := by simp [split, hd]
    have same := distinct d hd' e he k puts' puts
    exact nodup.2.2 _ (List.mem_map_of_mem hd) _ (List.mem_map_of_mem List.mem_cons_self) same
  intro i reply sent
  obtain ⟨before, e, after, now, split, client, reached, answer⟩ := sent_at run sent
  have upto : PutOnce (before ++ [e]) := by
    rw [split, ← List.singleton_append, ← List.append_assoc] at once
    exact once.before
  have he : e ∈ executions (shownIn history) := by simp [split]
  obtain ⟨⟨events, showing⟩, finds⟩ :=
    once_run created reached (answered_before run split) upto.before
      fun d hd => proper d (by rw [split]; exact List.mem_append_left _ hd)
  have does : carryOut tableGetTable e.choice e.request now = (some reply, _) :=
    Prod.ext answer rfl
  have behaves : ∀ op, asOp e.choice e.request = some op → Behaves now op := by
    intro op asks
    obtain ⟨result, step⟩ := carryOut_step does asks
    exact (finds_key (showing.counts finds) showing.same upto (proper e he op asks) asks step).1
  obtain ⟨map, size, _⟩ := showing.step reached behaves does
  exact ⟨before, e, after, split, client, map, size finds⟩

end DistinctClients

def getA : MessageT := ⟨.OC_GET, .key (some keyA)⟩

/-- The first client puts a, the second gets it. -/
def putThenGet (last : Bool) : List MessageT := if last then [getA] else [putA]

theorem put_then_get : ∃ t0 history s reply,
    tableCreate (some 0) (some 1) (fun _ => some 2) 5 = some t0 ∧
    Run (step (carryOut fun _ => none)) (start putThenGet t0) history s ∧
    executions (shownIn history) =
      [⟨false, putA, ⟨some 2, some 3, some 4⟩, some putA⟩,
        ⟨true, getA, ⟨some 2, some 3, some 4⟩, some reply⟩] ∧
    reply ∈ sentBy true (shownIn history) := by
  obtain ⟨t0, history, s, reply, created, played, two, sent⟩ : ∃ t0 history s reply,
      tableCreate (some 0) (some 1) (fun _ => some 2) 5 = some t0 ∧
      play (step (carryOut fun _ => none)) interleaved [] (start putThenGet t0) =
        .ok (history, s) ∧
      executions (shownIn history) =
        [⟨false, putA, ⟨some 2, some 3, some 4⟩, some putA⟩,
          ⟨true, getA, ⟨some 2, some 3, some 4⟩, some reply⟩] ∧
      sentBy true (shownIn history) = [reply] :=
    ⟨_, _, _, _, rfl, rfl, rfl, rfl⟩
  have told : reply ∈ sentBy true (shownIn history) := by
    rw [sent]
    exact List.mem_singleton_self reply
  exact ⟨t0, history, s, reply, created, play_run interleaved .start played, two, told⟩

theorem put_then_get_proper (reply : Option MessageT) : AllProper
    [⟨false, putA, ⟨some 2, some 3, some 4⟩, some putA⟩,
      ⟨true, getA, ⟨some 2, some 3, some 4⟩, reply⟩] := by
  intro e he op asks
  simp only [List.mem_cons, List.not_mem_nil, or_false] at he
  rcases he with rfl | rfl
  · cases asks
    exact ⟨by simp, by simp, by decide⟩
  · cases asks
    exact ⟨by simp, by simp⟩

theorem distinct_clients_like_map_sample : ∃ t0 history s,
    tableCreate (some 0) (some 1) (fun _ => some 2) 5 = some t0 ∧
    Run (step (carryOut fun _ => none)) (start putThenGet t0) history s ∧
    ∃ reply before e after, reply ∈ sentBy true (shownIn history) ∧
      executions (shownIn history) = before ++ e :: after ∧
      MapReply (contents before) e.request reply ∧
      SizeReply (contents before) e.request reply := by
  obtain ⟨t0, history, s, reply, created, run, two, told⟩ := put_then_get
  have distinct : ∀ e ∈ executions (shownIn history), ∀ d ∈ executions (shownIn history), ∀ k,
      putKey e.request = some k → putKey d.request = some k → e.client = d.client := by
    intro e he d hd k puts puts'
    rw [two] at he hd
    simp only [List.mem_cons, List.not_mem_nil, or_false] at he hd
    rcases he with rfl | rfl
    · rcases hd with rfl | rfl
      · rfl
      · cases puts'
    · cases puts
  obtain ⟨before, e, after, split, _, map, size⟩ :=
    distinct_clients_like_map created run distinct (two ▸ put_then_get_proper _) true reply told
  exact ⟨t0, history, s, created, run, reply, before, e, after, told, split, map, size⟩

end ServiceMap
