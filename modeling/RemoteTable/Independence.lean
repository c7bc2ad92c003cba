import RemoteTable.Clients
import RemoteTable.Shards
import RemoteTable.TableRuns

/-!
# Clients of different buckets

`invoke` reads and writes the one list its key belongs to, and for a request
without a key none. Requests of different buckets therefore do not meet: each
bucket is served as if nobody asked for another one, and of the interleaving
only the order within each bucket shows.
-/

namespace Independence

open CStrings Memory Entries FirstMatch ListOps ListRuns Tables TableRuns
open Skeleton Runs Serving Clients Shards

section Buckets

variable {t u : Table} {i j : Int} {list list' : ListT}

theorem bucket_ok (h : t.bucket i = .ok list) :
    0 ≤ i ∧ t.lists[i.toNat]? = some list := by
  unfold Table.bucket at h
  split_ifs at h with inside
  refine ⟨inside, ?_⟩
  split at h
  · cases h
  · rename_i found
    cases h
    exact found

theorem bucket_setBucket_same (h : t.bucket i = .ok list) (new : ListT) :
    (t.setBucket i new).bucket i = .ok new := by
  obtain ⟨inside, found⟩ := bucket_ok h
  obtain ⟨below, _⟩ := List.getElem?_eq_some_iff.mp found
  simp [Table.bucket, Table.setBucket, inside, below]

theorem bucket_setBucket_other (inside : 0 ≤ i) (other : j ≠ i) (new : ListT) :
    (t.setBucket i new).bucket j = t.bucket j := by
  unfold Table.bucket
  split_ifs with hj
  · have differ : i.toNat ≠ j.toNat := by omega
    rw [Table.setBucket, List.getElem?_set_ne differ]
  · rfl

theorem setBucket_self (h : t.bucket i = .ok list) : t.setBucket i list = t := by
  obtain ⟨_, found⟩ := bucket_ok h
  obtain ⟨below, rfl⟩ := List.getElem?_eq_some_iff.mp found
  obtain ⟨size, lists, length_eq⟩ := t
  simp [Table.setBucket]

/-- A table is its size and its buckets. -/
theorem table_ext (size : t.size = u.size) (buckets : ∀ i, t.bucket i = u.bucket i) : t = u := by
  have lists : t.lists = u.lists := by
    apply List.ext_getElem?
    intro m
    have same := buckets m
    simp only [Table.bucket, Int.natCast_nonneg, if_true, Int.toNat_natCast] at same
    cases ht : t.lists[m]? <;> cases hu : u.lists[m]? <;> simp_all
  obtain ⟨n, l, ht⟩ := t
  obtain ⟨n', l', hu⟩ := u
  cases size
  cases lists
  rfl

end Buckets

section Calls

variable {α : Type}

/-- A call of a table function that works on the list of an index. -/
def onBucket (act : ListT → Except Fault (α × ListT)) (i : Int) (t : Table) :
    Except Fault (α × Table) := do
  let list ← t.bucket i
  let r ← act list
  pure (r.1, t.setBucket i r.2)

variable {act : ListT → Except Fault (α × ListT)} {t t' u : Table} {i : Int} {a : α}

theorem onBucket_ok (h : onBucket act i t = .ok (a, t')) : ∃ list list',
    t.bucket i = .ok list ∧ act list = .ok (a, list') ∧ t' = t.setBucket i list' := by
  obtain ⟨list, bucket, h⟩ := (bind_eq_ok_iff _ _ _).mp h
  obtain ⟨r, acted, h⟩ := (bind_eq_ok_iff _ _ _).mp h
  cases h
  exact ⟨list, r.2, bucket, acted, rfl⟩

variable (act) in
/-- Where the bucket is the same, so is what the call does to it. -/
theorem onBucket_same (same : t.bucket i = u.bucket i) :
    (∃ f, onBucket act i t = .error f ∧ onBucket act i u = .error f) ∨
    ∃ a t' u', onBucket act i t = .ok (a, t') ∧ onBucket act i u = .ok (a, u') ∧
      t'.bucket i = u'.bucket i := by
  cases bucket : t.bucket i with
  | error f =>
    refine Or.inl ⟨f, ?_, ?_⟩
    · simp [onBucket, bucket]
    · simp [onBucket, ← same, bucket]
  | ok list =>
    have bucket' := same.symm.trans bucket
    cases acted : act list with
    | error f =>
      refine Or.inl ⟨f, ?_, ?_⟩
      · simp [onBucket, bucket, acted]
      · simp [onBucket, bucket', acted]
    | ok r =>
      refine Or.inr ⟨r.1, t.setBucket i r.2, u.setBucket i r.2, ?_, ?_, ?_⟩
      · simp [onBucket, bucket, acted]
      · simp [onBucket, bucket', acted]
      · rw [bucket_setBucket_same bucket, bucket_setBucket_same bucket']

/-- What is made of the result may be made of it on the list. -/
theorem onBucket_map {β : Type} (f : α → β) : (do
    let r ← onBucket act i t
    pure (f r.1, r.2)) = onBucket (fun list => do
      let r ← act list
      pure (f r.1, r.2)) i t := by
  unfold onBucket
  cases t.bucket i with
  | error fault => rfl
  | ok list =>
    simp only [ok_bind]
    cases act list <;> rfl

theorem tablePut_on (mem node : Option Nat) (key : Ptr CString) (value : Ptr Data) :
    tablePut mem node t (some key) (some value) = onBucket (fun list =>
      .ok (listAdd node list (entryCreate mem (some key) (some value)))) (t.index key.obj) t := rfl

theorem tableRemove_on (key : CString) : tableRemove t (some key) =
    onBucket (fun list => listRemove list (some key)) (t.index key) t := rfl

theorem tableGet_on (mem buffer : Option Nat) (key : CString) : (do
    let d ← tableGet mem buffer t (some key)
    pure (d, t)) = onBucket (fun list => do
      let e ← listGet list (some key)
      let d ← copied mem buffer e
      pure (d, list)) (t.index key) t := by
  simp only [tableGet, onBucket]
  rw [← Table.index]
  cases bucket : t.bucket (t.index key) with
  | error fault => rfl
  | ok list =>
    simp only [ok_bind]
    cases listGet list (some key) with
    | error fault => rfl
    | ok e =>
      simp only [ok_bind]
      cases e with
      | none => simp [copied, setBucket_self bucket]
      | some e =>
        simp only [copied]
        cases dataDup mem buffer e.obj.value with
        | error fault => rfl
        | ok d => simp [setBucket_self bucket]

end Calls

/-- The key by which a request comes to a list of the table. -/
def requestKey (msg : MessageT) : Option CString :=
  match msg.opcode, msg.content with
  | .OC_PUT, .entry (some ⟨_, ⟨some key, some _⟩⟩) => some key.obj
  | .OC_DEL, .key key => key
  | .OC_GET, .key key => key
  | _, _ => none

/-- The index of a request in a table of size `n`. -/
def requestIndex (n : Int) (msg : MessageT) : Option Int :=
  (requestKey msg).map fun key => hashFunction (some key) n

section Requests

variable {tableGetTable : Table → Option (List (Ptr Entry))} {alloc : Alloc} {msg : MessageT}

variable (tableGetTable alloc) in
/-- A request about a key calls a function of one bucket, whatever the table. -/
theorem called_on {key : CString} (about : requestKey msg = some key) :
    ∃ act : ListT → Except Fault (Returned × ListT), ∀ t,
      called tableGetTable alloc msg t = some (onBucket act (t.index key) t) := by
  obtain ⟨opcode, content⟩ := msg
  unfold requestKey at about
  split at about
  · rename_i block key' value opcode_eq content_eq
    cases about
    cases opcode_eq
    cases content_eq
    refine ⟨fun list => do
      let r ← .ok (listAdd alloc.node list (entryCreate alloc.mem (some key') (some value)))
      pure (.code r.1, r.2), fun t => ?_⟩
    rw [← onBucket_map, ← tablePut_on]
    rfl
  · rename_i opcode_eq content_eq
    cases about
    cases opcode_eq
    cases content_eq
    refine ⟨fun list => do
      let r ← listRemove list (some key)
      pure (.code r.1, r.2), fun t => ?_⟩
    rw [← onBucket_map, ← tableRemove_on]
    rfl
  · rename_i opcode_eq content_eq
    cases about
    cases opcode_eq
    cases content_eq
    refine ⟨fun list => do
      let r ← (do
        let e ← listGet list (some key)
        let d ← copied alloc.mem alloc.buffer e
        pure (d, list))
      pure (.data r.1, r.2), fun t => ?_⟩
    rw [← onBucket_map, ← tableGet_on]
    simp only [called, Content.keyMember, ok_bind]
    cases tableGet alloc.mem alloc.buffer t (some key) <;> rfl
  · cases about

/-- Any other request leaves the table as it is. -/
theorem called_off {t t' : Table} {r : Returned} (off : requestKey msg = none)
    (h : called tableGetTable alloc msg t = some (.ok (r, t'))) : t' = t := by
  obtain ⟨opcode, content⟩ := msg
  cases opcode with
  | OC_PUT =>
    obtain ⟨e, c, rfl, rfl, hput⟩ := put_returned h
    obtain ⟨block, key, value⟩ := e
    cases key with
    | none =>
      cases hput
      rfl
    | some key =>
      cases value with
      | none =>
        cases hput
        rfl
      | some value => cases off
  | OC_DEL =>
    obtain ⟨key, c, rfl, _, hremove⟩ := remove_returned h
    cases off
    cases hremove
    rfl
  | OC_GET =>
    obtain ⟨_, _, _, _, same, _⟩ := get_returned h
    exact same
  | OC_SIZE | OC_GETKEYS | OC_GETTABLE =>
    cases h
    rfl
  | other code => cases h

/-- What `network_main_loop` makes of what the table function returned. -/
def replied (msg : MessageT) (t : Table) : Except Fault (Returned × Table) →
    Option MessageT × Table
  | .error _ => (none, t)
  | .ok r => (if (place msg r.1).1 < 0 then none else some (place msg r.1).2, r.2)

theorem carryOut_called {t : Table} {call : Except Fault (Returned × Table)}
    (h : called tableGetTable alloc msg t = some call) :
    carryOut tableGetTable alloc msg t = replied msg t call := by
  unfold carryOut
  rw [invoke_called tableGetTable alloc msg t h]
  cases call <;> rfl

/-- What `carryOut` does depends on one bucket, and happens there. -/
theorem carryOut_on {key : CString} (about : requestKey msg = some key) (t : Table) :
    ((carryOut tableGetTable alloc msg t).2.size = t.size ∧
      ∀ j, j ≠ t.index key → (carryOut tableGetTable alloc msg t).2.bucket j = t.bucket j) ∧
    ∀ u, u.size = t.size → t.bucket (t.index key) = u.bucket (t.index key) →
      (carryOut tableGetTable alloc msg t).1 = (carryOut tableGetTable alloc msg u).1 ∧
      (carryOut tableGetTable alloc msg t).2.bucket (t.index key) =
        (carryOut tableGetTable alloc msg u).2.bucket (t.index key) := by
  obtain ⟨act, on⟩ := called_on tableGetTable alloc about
  rw [carryOut_called (on t)]
  constructor
  · cases call : onBucket act (t.index key) t with
    | error f => exact ⟨rfl, fun _ _ => rfl⟩
    | ok r =>
      obtain ⟨a, t'⟩ := r
      obtain ⟨list, list', bucket, _, rfl⟩ := onBucket_ok call
      refine ⟨rfl, fun j other => ?_⟩
      exact bucket_setBucket_other (bucket_ok bucket).1 other list'
  · intro u size same
    have index : u.index key = t.index key := by rw [Table.index, Table.index, size]
    rw [carryOut_called (on u), index]
    rcases onBucket_same act same with ⟨f, ht, hu⟩ | ⟨a, t', u', ht, hu, after⟩
    · rw [ht, hu]
      exact ⟨rfl, same⟩
    · rw [ht, hu]
      exact ⟨rfl, after⟩

theorem carryOut_off (off : requestKey msg = none) (t : Table) :
    (carryOut tableGetTable alloc msg t).2 = t := by
  cases h : called tableGetTable alloc msg t with
  | none =>
    obtain ⟨opcode, content⟩ := msg
    cases opcode with
    | other code => rfl
    | _ => cases h
  | some call =>
    rw [carryOut_called h]
    cases call with
    | error f => rfl
    | ok r => exact called_off off h

/-- Requests are about the bucket of their index alone, if about any. -/
theorem carryOut_local (ι : Type) (tableGetTable : Table → Option (List (Ptr Entry))) (n : Int) :
    Local (fun t => t.size = n) Table.bucket
      (fun asked : ι × MessageT × Alloc => requestIndex n asked.2.1)
      (fun asked t => carryOut tableGetTable asked.2.2 asked.2.1 t) where
  good := by
    intro asked t size
    cases about : requestKey asked.2.1 with
    | none => rw [carryOut_off about, size]
    | some key => rw [(carryOut_on about t).1.1, size]
  elsewhere := by
    rintro asked t i rfl other
    cases about : requestKey asked.2.1 with
    | none => rw [carryOut_off about]
    | some key =>
      refine (carryOut_on about t).1.2 i fun same => other ?_
      rw [requestIndex, about, same]
      rfl
  here := by
    rintro asked t u i rfl size place same
    obtain ⟨key, about, rfl⟩ := Option.map_eq_some_iff.mp place
    exact (carryOut_on about t).2 u size same

end Requests

section Orders

variable {ι : Type} {tableGetTable : Table → Option (List (Ptr Entry))} {t0 last : Table}
  {executed : List (Execution ι MessageT MessageT Alloc)}

def asked (e : Execution ι MessageT MessageT Alloc) : ι × MessageT × Alloc :=
  (e.client, e.request, e.choice)

/-- What was carried out on the list of an index. -/
def executedIn (n i : Int) (executed : List (Execution ι MessageT MessageT Alloc)) :
    List (Execution ι MessageT MessageT Alloc) :=
  executed.filter fun e => requestIndex n e.request = some i

def record (e : Execution ι MessageT MessageT Alloc) :
    (ι × MessageT × Alloc) × Option MessageT :=
  (asked e, e.answer)

theorem record_injective : Function.Injective (@record ι) := by
  intro e d same
  cases e
  cases d
  cases same
  rfl

theorem sequential_iff : Sequential (carryOut tableGetTable) t0 executed last ↔
    Performed (fun a : ι × MessageT × Alloc => carryOut tableGetTable a.2.2 a.2.1) t0
      (executed.map record) last := by
  constructor
  · intro sequential
    induction sequential with
    | none => exact .none
    | snoc before i r choice ih =>
      rw [List.map_append]
      exact ih.snoc (i, r, choice)
  · intro performed
    induction executed using List.reverseRecOn generalizing last with
    | nil =>
      generalize hall : ([] : List (Execution ι MessageT MessageT Alloc)).map record = all
        at performed
      cases performed with
      | none => exact .none
      | snoc => simp at hall
    | append_singleton earlier e ih =>
      rw [List.map_append] at performed
      generalize hall : earlier.map record ++ [e].map record = all at performed
      cases performed with
      | none => simp at hall
      | @snoc earlier' now before op =>
        obtain ⟨rfl, one⟩ := List.append_inj' hall rfl
        obtain ⟨i, r, choice⟩ := op
        have same : record e = record ⟨i, r, choice, (carryOut tableGetTable choice r now).1⟩ :=
          List.singleton_inj.mp one
        rw [record_injective same]
        exact (ih before).snoc i r choice

theorem performedAt_record (n i : Int) : performedAt
    (fun a : ι × MessageT × Alloc => requestIndex n a.2.1) i (executed.map record) =
      (executedIn n i executed).map record := by
  rw [performedAt, List.filter_map]
  rfl

end Orders

section Service

variable {ι : Type} [DecidableEq ι] {tableGetTable : Table → Option (List (Ptr Entry))}
  {requests requests' : ι → List MessageT} {t0 : Table} {s s' : State ι MessageT MessageT Table}
  {history history' : List (Event (State ι MessageT MessageT Table) (Action ι Alloc)
    (Shown ι MessageT MessageT Alloc))}

/-- A bucket is served as if its own requests were all, in every interleaving. -/
theorem served_alone (run : Run (step (carryOut tableGetTable)) (start requests t0) history s)
    (i : Int) : ∃ now, Sequential (carryOut tableGetTable) t0
      (executedIn t0.size i (executions (shownIn history))) now ∧
        now.bucket i = s.store.bucket i := by
  have performed := sequential_iff.mp (sequential_run run)
  obtain ⟨now, own, same⟩ := performed.alone (carryOut_local ι tableGetTable t0.size) rfl i
  rw [performedAt_record] at own
  exact ⟨now, sequential_iff.mpr own, same⟩

/-- Runs in which every bucket was asked the same in the same order, by the same clients
and with the same outcomes of `malloc`. -/
def AskedAlike (n : Int) (executed executed' : List (Execution ι MessageT MessageT Alloc)) :
    Prop :=
  ∀ i, (executedIn n i executed).map asked = (executedIn n i executed').map asked

theorem answered_alike
    (run : Run (step (carryOut tableGetTable)) (start requests t0) history s)
    (run' : Run (step (carryOut tableGetTable)) (start requests' t0) history' s')
    (alike : AskedAlike t0.size (executions (shownIn history)) (executions (shownIn history'))) :
    (∀ i, executedIn t0.size i (executions (shownIn history)) =
      executedIn t0.size i (executions (shownIn history'))) ∧ s.store = s'.store := by
  have first := sequential_iff.mp (sequential_run run)
  have second := sequential_iff.mp (sequential_run run')
  obtain ⟨results, stores⟩ := first.agree (carryOut_local ι tableGetTable t0.size) rfl
    (fun a b ha hb => table_ext (ha.trans hb.symm)) second (fun i => by
      rw [performedAt_record, performedAt_record, List.map_map, List.map_map]
      exact alike i)
  refine ⟨fun i => ?_, stores⟩
  have same := results i
  rw [performedAt_record, performedAt_record] at same
  exact record_injective.list_map same

/-- The only request of a client that is carried out is the only one read. -/
theorem executed_request (run : Run (step (carryOut tableGetTable)) (start requests t0) history s)
    {e : Execution ι MessageT MessageT Alloc} (he : e ∈ executions (shownIn history)) :
    executedBy e.client (shownIn history) = [e] ∧
      readBy e.client (shownIn history) = [e.request] := by
  have mine := mem_executedBy.mpr ⟨he, rfl⟩
  obtain ⟨short, first⟩ := executed_read run e.client
  obtain ⟨d, only⟩ : ∃ d, executedBy e.client (shownIn history) = [d] :=
    List.length_eq_one_iff.mp
      (le_antisymm (executed_once run e.client) (List.length_pos_of_mem mine))
  rw [only] at mine first ⊢
  cases List.mem_singleton.mp mine
  exact ⟨rfl, (first.eq_of_length_le short).symm⟩

def putB : MessageT := ⟨.OC_PUT, .entry (some ⟨20, ⟨some ⟨21, keyB⟩, some sampleData⟩⟩)⟩

def bothPut (last : Bool) : List MessageT := if last then [putB] else [putA]

/-- Both wait for the server, which takes `first` first. -/
def served (first : Bool) : List (Action Bool Alloc) :=
  [.connect false, .connect true, .request false, .request true, .accept first, .receive,
    .invoke ⟨some 2, some 3, some 4⟩, .send, .accept !first, .receive,
    .invoke ⟨some 2, some 3, some 4⟩, .send, .reply false, .reply true]

theorem both_orders : ∃ t0 history s history' s',
    tableCreate (some 0) (some 1) (fun _ => some 2) 5 = some t0 ∧ t0.size = 5 ∧
    Run (step (carryOut fun _ => none)) (start bothPut t0) history s ∧
    Run (step (carryOut fun _ => none)) (start bothPut t0) history' s' ∧
    executions (shownIn history) = [⟨false, putA, ⟨some 2, some 3, some 4⟩, some putA⟩,
      ⟨true, putB, ⟨some 2, some 3, some 4⟩, some putB⟩] ∧
    executions (shownIn history') = [⟨true, putB, ⟨some 2, some 3, some 4⟩, some putB⟩,
      ⟨false, putA, ⟨some 2, some 3, some 4⟩, some putA⟩] := by
  obtain ⟨t0, history, s, history', s', created, size, played, played', done, done'⟩ :
      ∃ t0 history s history' s',
      tableCreate (some 0) (some 1) (fun _ => some 2) 5 = some t0 ∧ t0.size = 5 ∧
      play (step (carryOut fun _ => none)) (served false) [] (start bothPut t0) =
        .ok (history, s) ∧
      play (step (carryOut fun _ => none)) (served true) [] (start bothPut t0) =
        .ok (history', s') ∧
      executions (shownIn history) = [⟨false, putA, ⟨some 2, some 3, some 4⟩, some putA⟩,
        ⟨true, putB, ⟨some 2, some 3, some 4⟩, some putB⟩] ∧
      executions (shownIn history') = [⟨true, putB, ⟨some 2, some 3, some 4⟩, some putB⟩,
        ⟨false, putA, ⟨some 2, some 3, some 4⟩, some putA⟩] :=
    ⟨_, _, _, _, _, rfl, rfl, rfl, rfl, rfl, rfl⟩
  exact ⟨t0, history, s, history', s', created, size, play_run _ .start played,
    play_run _ .start played', done, done'⟩

theorem served_alone_sample : ∃ t0 history s now,
    Run (step (carryOut fun _ => none)) (start bothPut t0) history s ∧
    (executions (shownIn history)).length = 2 ∧
    Sequential (carryOut fun _ => none) t0
      (executedIn t0.size 3 (executions (shownIn history))) now ∧
    now.bucket 3 = s.store.bucket 3 := by
  obtain ⟨t0, history, s, _, _, _, _, run, _, done, _⟩ := both_orders
  obtain ⟨now, own, same⟩ := served_alone run 3
  exact ⟨t0, history, s, now, run, by rw [done]; rfl, own, same⟩

end Service

end Independence
