import RemoteTable.PutEffects
import RemoteTable.ServiceMap

/-!
# Lookups of missing keys

A chain has a node from the first put into its bucket on, and a node without an
entry from the first removal on that finds its key; no later call takes either
away. A lookup that does not find its key walks over all nodes, so the calls
made so far decide whether it returns, and on the server whether it goes on.
-/

namespace Misses

open CStrings Memory Entries ListOps ListRuns ListShape PutEffects Tables TableRuns Runs
open Skeleton Serving Clients ServiceMap

/-- A node that holds no entry. -/
def Vacated (list : ListT) : Prop := ∃ n ∈ list.head, n.entry = none

section Chains

variable {list list' : ListT} {e : Ptr Entry} {k : CString} {c : Int}

theorem grown_effect (grown : Grown e list list') :
    list'.head ≠ [] ∧ (Vacated list' ↔ Vacated list) := by
  cases grown with
  | intro a chain => simp [Vacated, chain, or_and_right, exists_or]

theorem exchanged_effect (exchanged : Exchanged e list list') :
    list'.head ≠ [] ∧ (Vacated list' ↔ Vacated list) := by
  cases exchanged with
  | intro chain held same => simp [Vacated, chain, held, or_and_right, exists_or]

/-- An addition that does not fail leaves a node, and no addition fills a vacated one. -/
theorem added_cases {mem node : Option Nat} {key : Ptr CString} {value : Ptr Data}
    (add : listStep list (.add mem node key value) = .ok (.code c, list')) :
    (c < 0 ∧ list' = list) ∨ 0 ≤ c ∧ list'.head ≠ [] ∧ (Vacated list' ↔ Vacated list) := by
  cases listStep_cases add with
  | @added _ _ _ _ e create hk =>
    rcases listAdd_chain hk node list with hadd | ⟨_, hadd, grown⟩ | ⟨_, hadd, exchanged⟩
    · simp [hadd]
    · rw [hadd]
      exact Or.inr ⟨le_refl _, grown_effect grown⟩
    · rw [hadd]
      exact Or.inr ⟨zero_le_one, exchanged_effect exchanged⟩
  | refused create => exact Or.inl ⟨by decide, rfl⟩

/-- A removal that finds its key leaves a node without an entry, any other the chain. -/
theorem removed_cases (remove : listRemove list (some k) = .ok (c, list')) :
    list.head ≠ [] ∧ (c = 0 ∧ list'.head ≠ [] ∧ Vacated list' ∨ c ≠ 0 ∧ list' = list) := by
  have hlook := looked list k
  rw [remove] at hlook
  generalize listGet list (some k) = got at hlook
  cases hlook with
  | @hit pre n post e chain other entry key =>
    obtain ⟨m, hm, hnone⟩ := removeNode_vacates n post
    have hmem : m ∈ pre ++ (removeNode n post).2 := List.mem_append_right _ hm
    exact ⟨by simp [chain], Or.inl ⟨rfl, List.ne_nil_of_mem hmem, m, hmem, hnone⟩⟩
  | miss nonempty other => exact ⟨nonempty, Or.inr ⟨by decide, rfl⟩⟩

/-- Without its key on the chain a lookup passes all nodes. -/
theorem missed_iff (sound : Sound list) (absent : k ∉ list.keys) :
    (list.head ≠ [] ∧ ¬ Vacated list →
      listGet list (some k) = .ok none ∧ listRemove list (some k) = .ok (1, list)) ∧
    (¬ (list.head ≠ [] ∧ ¬ Vacated list) →
      listGet list (some k) = .error .nullPointer ∧
      listRemove list (some k) = .error .nullPointer) := by
  have hlook := looked list k
  generalize listGet list (some k) = got at hlook ⊢
  generalize listRemove list (some k) = removed at hlook ⊢
  cases hlook with
  | @hit pre n post e chain other entry key =>
    exfalso
    apply absent
    exact List.mem_filterMap.mpr ⟨n, by simp [chain], by simp [Node.key, entry, key]⟩
  | miss nonempty other =>
    have whole : ¬ Vacated list := by
      rintro ⟨n, hn, hnone⟩
      obtain ⟨_, hkey, _⟩ := other n hn
      rw [(sound.keyless_iff hn).mpr hnone] at hkey
      cases hkey
    exact ⟨fun _ => ⟨rfl, rfl⟩, fun h => absurd ⟨nonempty, whole⟩ h⟩
  | empty chain => simp [chain]
  | @blocked pre n post chain other keyless =>
    have hn : n ∈ list.head := by simp [chain]
    have vacated : Vacated list := ⟨n, hn, (sound.keyless_iff hn).mp keyless⟩
    simp [vacated]

end Chains

section Histories

variable {t0 t t' : Table} {k : CString} {history : List TableEvent}

/-- A put into the bucket of the key that did not fail. -/
def Fills (k : CString) (e : TableEvent) : Prop :=
  ∃ mem node key value c, e.op = .put mem node key value ∧ e.result = .code c ∧ 0 ≤ c ∧
    e.before.index k = e.before.index key.obj

/-- A removal in the bucket of the key that found its own key. -/
def Vacates (k : CString) (e : TableEvent) : Prop :=
  ∃ key, e.op = .remove key ∧ e.result = .code 0 ∧ e.before.index k = e.before.index key

/-- What a call does to the chain of a key. -/
theorem chain_step {op : TableOp} {r : TableResult} (range : InRange t k)
    (step : tableStep t op = .ok (r, t')) :
    ((t'.chain k).head ≠ [] ↔ Fills k ⟨t, op, r, t'⟩ ∨ (t.chain k).head ≠ []) ∧
    (Vacated (t'.chain k) ↔ Vacates k ⟨t, op, r, t'⟩ ∨ Vacated (t.chain k)) := by
  cases tableStep_cases step with
  | @put mem node key value c list range' add =>
    rw [chain_setChain range' range]
    by_cases same : t.index k = t.index key.obj
    · rw [if_pos same, chain_congr same]
      rcases added_cases add with ⟨negative, rfl⟩ | ⟨accepted, nonempty, vacated⟩
      · have refused : ¬ 0 ≤ c := not_le.mpr negative
        simp [Fills, Vacates, refused]
      · simp [Fills, Vacates, accepted, nonempty, vacated, same]
    · rw [if_neg same]
      simp [Fills, Vacates, same]
  | @remove key c list range' remove =>
    rw [chain_setChain range' range]
    by_cases same : t.index k = t.index key
    · rw [if_pos same, chain_congr same]
      obtain ⟨before, ⟨rfl, nonempty, vacated⟩ | ⟨missed, rfl⟩⟩ := removed_cases remove
      · simp [Fills, Vacates, before, nonempty, vacated, same]
      · simp [Fills, Vacates, missed]
    · rw [if_neg same]
      simp [Fills, Vacates, same]
  | get => simp [Fills, Vacates]
  | size => simp [Fills, Vacates]

/-- The chains show what was done in their buckets. -/
structure Records (history : List TableEvent) (t : Table) : Prop where
  sound : AllSound t
  filled : ∀ k, InRange t k → ((t.chain k).head ≠ [] ↔ ∃ e ∈ history, Fills k e)
  vacated : ∀ k, InRange t k → (Vacated (t.chain k) ↔ ∃ e ∈ history, Vacates k e)

theorem records_step {op : TableOp} {r : TableResult} (records : Records history t)
    (step : tableStep t op = .ok (r, t')) : Records (⟨t, op, r, t'⟩ :: history) t' := by
  have hsize : t'.size = t.size := by cases tableStep_cases step <;> rfl
  have range_of : ∀ k, InRange t' k → InRange t k := by
    intro k range
    rwa [InRange, Table.index, hsize] at range
  refine ⟨allSound_step records.sound step, ?_, ?_⟩
  · intro k range'
    have range := range_of k range'
    rw [(chain_step range step).1, records.filled k range, List.exists_mem_cons_iff]
  · intro k range'
    have range := range_of k range'
    rw [(chain_step range step).2, records.vacated k range, List.exists_mem_cons_iff]

theorem records_run {mem array : Option Nat} {each : Nat → Option Nat} {n : Int}
    (created : tableCreate mem array each n = some t0) (run : Run tableStep t0 history t) :
    Records history t := by
  induction run with
  | start =>
    refine ⟨created_sound created, ?_, ?_⟩
    · intro k range
      simp [created_chain created range, emptyList]
    · intro k range
      simp [created_chain created range, emptyList, Vacated]
  | next earlier last ih => exact records_step ih last

end Histories

section Service

variable {ι : Type} {tableGetTable : Table → Option (List (Ptr Entry))} {t0 now next : Table}
  {executed : List (Execution ι MessageT MessageT Alloc)} {k : CString}

/-- A put into the bucket of the key has been carried out. -/
def PutInto (t0 : Table) (k : CString)
    (executed : List (Execution ι MessageT MessageT Alloc)) : Prop :=
  ∃ e ∈ executed, ∃ p key value, e.request = ⟨.OC_PUT, .entry (some p)⟩ ∧
    p.obj = ⟨some key, some value⟩ ∧ t0.index k = t0.index key.obj

/-- A removal in the bucket of the key that finds its own key. -/
def Finds (t0 : Table) (k : CString) (e : Execution ι MessageT MessageT Alloc) (now : Table) :
    Prop :=
  ∃ key, e.request = ⟨.OC_DEL, .key (some key)⟩ ∧ t0.index k = t0.index key ∧
    key ∈ (now.chain key).keys

/-- Such a removal has been carried out. -/
def FoundIn (tableGetTable : Table → Option (List (Ptr Entry))) (t0 : Table) (k : CString)
    (executed : List (Execution ι MessageT MessageT Alloc)) : Prop :=
  ∃ before e after now, executed = before ++ e :: after ∧
    Sequential (carryOut tableGetTable) t0 before now ∧ Finds t0 k e now

theorem putInto_snoc (e : Execution ι MessageT MessageT Alloc) :
    PutInto t0 k (executed ++ [e]) ↔ PutInto t0 k [e] ∨ PutInto t0 k executed := by
  simp only [PutInto, List.mem_append, or_and_right, exists_or, or_comm]

theorem foundIn_snoc (e : Execution ι MessageT MessageT Alloc)
    (reached : Sequential (carryOut tableGetTable) t0 executed now) :
    FoundIn tableGetTable t0 k (executed ++ [e]) ↔
      Finds t0 k e now ∨ FoundIn tableGetTable t0 k executed := by
  constructor
  · rintro ⟨before, d, after, mid, split, reached', found⟩
    rcases List.eq_nil_or_concat after with rfl | ⟨after, f, rfl⟩
    · obtain ⟨rfl, same⟩ := List.append_inj' split rfl
      cases same
      rw [reached'.unique reached]
      exact Or.inl found
    · rw [List.concat_eq_append, ← List.cons_append, ← List.append_assoc] at split
      exact Or.inr ⟨before, d, after, mid, (List.append_inj' split rfl).1, reached', found⟩
  · rintro (found | ⟨before, d, after, mid, rfl, reached', found⟩)
    · exact ⟨executed, e, [], now, rfl, reached, found⟩
    · exact ⟨before, d, after ++ [e], mid, by simp, reached', found⟩

/-- The chains of the server's table show what was carried out. -/
structure Reflects (tableGetTable : Table → Option (List (Ptr Entry))) (t0 : Table)
    (executed : List (Execution ι MessageT MessageT Alloc)) (now : Table) : Prop where
  size : now.size = t0.size
  sound : AllSound now
  filled : ∀ k, InRange now k → ((now.chain k).head ≠ [] ↔ PutInto t0 k executed)
  vacated : ∀ k, InRange now k →
    (Vacated (now.chain k) ↔ FoundIn tableGetTable t0 k executed)

/-- A put that is answered has not failed. -/
theorem answered_put {alloc : Alloc} {p : Ptr Entry} {key : Ptr CString} {value : Ptr Data}
    {reply : MessageT} {c : Int} (made : p.obj = ⟨some key, some value⟩)
    (h : carryOut tableGetTable alloc ⟨.OC_PUT, .entry (some p)⟩ now = (some reply, next))
    (step : tableStep now (.put alloc.mem alloc.node key value) = .ok (.code c, next)) :
    0 ≤ c := by
  simp only [tableStep, bind_eq_ok_iff, pure_eq_ok, Except.ok.injEq, Prod.mk.injEq,
    TableResult.code.injEq] at step
  obtain ⟨⟨_, _⟩, hput, rfl, rfl⟩ := step
  by_contra negative
  have code := not_le.mp negative
  simp [carryOut, invoke, Content.entryMember, made, hput, code] at h

theorem removal_finds_iff {key : CString} {c : Int}
    (step : tableStep now (.remove key) = .ok (.code c, next)) :
    c = 0 ↔ key ∈ (now.chain key).keys := by
  cases tableStep_cases step with
  | remove range remove =>
    rcases listRemove_entries remove with ⟨rfl, _, erased⟩ | ⟨rfl, _, absent⟩
    · obtain ⟨old, hold, perm⟩ := erased.perm
      have found : key ∈ (now.chain key).keys := by
        rw [keys_eq]
        exact List.mem_filterMap.mpr ⟨old, perm.mem_iff.mpr List.mem_cons_self, hold⟩
      simp [found]
    · simp [absent]

theorem reflects_snoc {e : Execution ι MessageT MessageT Alloc} {reply : MessageT}
    (reflects : Reflects tableGetTable t0 executed now)
    (reached : Sequential (carryOut tableGetTable) t0 executed now)
    (h : carryOut tableGetTable e.choice e.request now = (some reply, next)) :
    Reflects tableGetTable t0 (executed ++ [e]) next := by
  have index_eq : ∀ k, now.index k = t0.index k := by
    intro k
    rw [Table.index, Table.index, reflects.size]
  -- a request that is a call of the table changes the chains as the call does
  have does : ∀ {op r}, tableStep now op = .ok (r, next) →
      (∀ k, PutInto t0 k [e] ↔ Fills k ⟨now, op, r, next⟩) →
      (∀ k, Finds t0 k e now ↔ Vacates k ⟨now, op, r, next⟩) →
      Reflects tableGetTable t0 (executed ++ [e]) next := by
    intro op r step fills vacates
    have hsize : next.size = now.size := by cases tableStep_cases step <;> rfl
    have range_of : ∀ k, InRange next k → InRange now k := by
      intro k range
      rwa [InRange, Table.index, hsize] at range
    refine ⟨hsize.trans reflects.size, allSound_step reflects.sound step, ?_, ?_⟩
    · intro k range'
      have range := range_of k range'
      rw [(chain_step range step).1, reflects.filled k range, putInto_snoc, fills]
    · intro k range'
      have range := range_of k range'
      rw [(chain_step range step).2, reflects.vacated k range, foundIn_snoc e reached, vacates]
  -- any other request leaves the table as it is
  have stays : next = now → (∀ k, ¬ PutInto t0 k [e]) → (∀ k, ¬ Finds t0 k e now) →
      Reflects tableGetTable t0 (executed ++ [e]) next := by
    rintro rfl fills vacates
    refine ⟨reflects.size, reflects.sound, ?_, ?_⟩
    · intro k range
      simp [reflects.filled k range, putInto_snoc, fills]
    · intro k range
      simp [reflects.vacated k range, foundIn_snoc e reached, vacates]
  obtain ⟨client, request, choice, answer⟩ := e
  have carried := carryOut_cases h
  cases carried with
  | @put p key value c next entry step =>
    have accepted := answered_put entry h step
    refine does step ?_ ?_
    · intro k
      simp [PutInto, Fills, entry, accepted, index_eq]
    · intro k
      simp [Finds, Vacates]
  | @remove key c next step =>
    refine does step ?_ ?_
    · intro k
      simp [PutInto, Fills]
    · intro k
      simp [Finds, Vacates, removal_finds_iff step, index_eq, and_comm]
  | get step => exact stays rfl (by simp [PutInto]) (by simp [Finds])
  | getNull => exact stays rfl (by simp [PutInto]) (by simp [Finds])
  | size => exact stays rfl (by simp [PutInto]) (by simp [Finds])
  | keys => exact stays rfl (by simp [PutInto]) (by simp [Finds])
  | entries => exact stays rfl (by simp [PutInto]) (by simp [Finds])

theorem reflects_run {mem array : Option Nat} {each : Nat → Option Nat} {n : Int}
    (created : tableCreate mem array each n = some t0)
    (reached : Sequential (carryOut tableGetTable) t0 executed now)
    (answered : ∀ e ∈ executed, e.answer ≠ none) :
    Reflects tableGetTable t0 executed now := by
  induction reached with
  | none =>
    refine ⟨rfl, created_sound created, ?_, ?_⟩
    · intro k range
      simp [created_chain created range, emptyList, PutInto]
    · intro k range
      simp [created_chain created range, emptyList, Vacated, FoundIn]
  | @snoc earlier now before i r choice ih =>
    have reflects := ih fun e he => answered e (List.mem_append_left _ he)
    obtain ⟨reply, hreply⟩ := Option.ne_none_iff_exists'.mp
      (answered _ (List.mem_append_right _ (List.mem_singleton_self _)))
    exact reflects_snoc reflects before (Prod.ext hreply rfl)

/-- The request looks a key up that the table does not hold. -/
structure LooksUp (now : Table) (k : CString) (msg : MessageT) : Prop where
  lookup : msg = ⟨.OC_GET, .key (some k)⟩ ∨ msg = ⟨.OC_DEL, .key (some k)⟩
  range : InRange now k
  absent : k ∉ (now.chain k).keys

theorem miss_carried_out
    (tableGetTable : Table → Option (List (Ptr Entry))) (alloc : Alloc) {msg : MessageT} (missing : LooksUp now k msg)
    (sound : AllSound now) :
    (carryOut tableGetTable alloc msg now).2 = now ∧
    ((carryOut tableGetTable alloc msg now).1 = none ↔
      ¬ ((now.chain k).head ≠ [] ∧ ¬ Vacated (now.chain k))) := by
  obtain ⟨lookup, range, absent⟩ := missing
  obtain ⟨returns, fails⟩ := missed_iff (sound _ (chain_mem range)) absent
  have hget := tableGet_eq range alloc.mem alloc.buffer
  have hremove := tableRemove_eq range
  by_cases whole : (now.chain k).head ≠ [] ∧ ¬ Vacated (now.chain k)
  · obtain ⟨get, remove⟩ := returns whole
    rw [get] at hget
    rw [remove, ok_bind, setChain_self range] at hremove
    rcases lookup with rfl | rfl
    · simp [carryOut, invoke, Content.keyMember, hget, whole]
    · simp [carryOut, invoke, Content.keyMember, hremove, whole]
  · obtain ⟨get, remove⟩ := fails whole
    rw [get] at hget
    rw [remove] at hremove
    rcases lookup with rfl | rfl
    · simp [carryOut, invoke, Content.keyMember, hget, whole]
    · simp [carryOut, invoke, Content.keyMember, hremove, whole]

variable [DecidableEq ι] {requests : ι → List MessageT} {s : State ι MessageT MessageT Table}
  {history : List (Event (State ι MessageT MessageT Table) (Action ι Alloc)
    (Shown ι MessageT MessageT Alloc))}

/-- With any clients and in every interleaving, the server that comes to a request for a
missing key survives it exactly if a put into its bucket has been carried out and no
removal there that found its key. -/
theorem miss_survived_iff {mem array : Option Nat} {each : Nat → Option Nat} {n : Int}
    (created : tableCreate mem array each n = some t0)
    (run : Run (step (carryOut tableGetTable)) (start requests t0) history s) {i : ι}
    {msg : MessageT} (invoking : s.server = .invoking i msg) (missing : LooksUp s.store k msg)
    (alloc : Alloc) :
    ∃ shown s', step (carryOut tableGetTable) s (.invoke alloc) = .ok (shown, s') ∧
      s'.store = s.store ∧
      (s'.server.running = true ↔ PutInto t0 k (executions (shownIn history)) ∧
        ¬ FoundIn tableGetTable t0 k (executions (shownIn history))) := by
  have running : s.server.running = true := by rw [invoking]; rfl
  have reflects := reflects_run created (sequential_run run) ((unanswered_last run).1 running)
  obtain ⟨same, ends⟩ := miss_carried_out tableGetTable alloc missing reflects.sound
  rw [reflects.filled k missing.range, reflects.vacated k missing.range] at ends
  refine ⟨_, _, by rw [step, invoking], same, ?_⟩
  cases answer : (carryOut tableGetTable alloc msg s.store).1 with
  | none =>
    have broken := ends.mp answer
    simpa [Phase.running] using broken
  | some b =>
    have kept := not_not.mp (mt ends.mpr (by simp [answer]))
    simpa [Phase.running] using kept

/-- The put of one client is carried out, then the other one asks for a key next to it. -/
theorem miss_survived_sample : ∃ t0 history s s',
    tableCreate (some 0) (some 1) (fun _ => some 2) 1 = some t0 ∧
    Run (step (carryOut fun _ => none))
      (start (fun last => if last then [⟨.OC_GET, .key (some keyB)⟩] else [putA]) t0) history s ∧
    step (carryOut fun _ => none) s (.invoke ⟨none, none, none⟩) =
      .ok (.executed true ⟨.OC_GET, .key (some keyB)⟩ ⟨none, none, none⟩
        (some ⟨.OC_GET, .data none⟩), s') ∧ s'.store = s.store ∧
    (s'.server.running = true ↔ PutInto t0 keyB (executions (shownIn history)) ∧
      ¬ FoundIn (fun _ => none) t0 keyB (executions (shownIn history))) := by
  obtain ⟨t0, history, s, s', created, played, invoking, range, absent, done⟩ :
      ∃ t0 history s s', tableCreate (some 0) (some 1) (fun _ => some 2) 1 = some t0 ∧
      play (step (carryOut fun _ => none))
        [.connect false, .connect true, .request true, .request false, .accept false, .receive,
          .invoke ⟨some 2, some 3, some 4⟩, .send, .accept true, .receive] []
        (start (fun last => if last then [⟨.OC_GET, .key (some keyB)⟩] else [putA]) t0) =
          .ok (history, s) ∧
      s.server = .invoking true ⟨.OC_GET, .key (some keyB)⟩ ∧ InRange s.store keyB ∧
      keyB ∉ (s.store.chain keyB).keys ∧
      step (carryOut fun _ => none) s (.invoke ⟨none, none, none⟩) =
        .ok (.executed true ⟨.OC_GET, .key (some keyB)⟩ ⟨none, none, none⟩
          (some ⟨.OC_GET, .data none⟩), s') :=
    ⟨_, _, _, _, rfl, rfl, rfl, by decide, by decide, rfl⟩
  have run := play_run _ .start played
  obtain ⟨_, s2, invoked, same, survives⟩ := miss_survived_iff created run invoking
    ⟨Or.inl rfl, range, absent⟩ ⟨none, none, none⟩
  cases done.symm.trans invoked
  exact ⟨t0, history, s, s', created, run, done, same, survives⟩

end Service

end Misses
