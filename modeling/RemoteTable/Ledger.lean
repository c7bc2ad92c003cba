import RemoteTable.Buckets
import RemoteTable.ListOrder
import RemoteTable.TableDestroy
import RemoteTable.TableRuns

/-!
# The ledger of a table's life

The store is the ledger: what is live in it was allocated and not released.
A table is created, filled and emptied by puts of new keys and values and by
removals, and destroyed. At every point the live blocks are those of the
table, those that failed puts left behind, and those from before.
-/

namespace Ledger

open CStrings Memory Entries ListOps ListMemory ListImage ListRuns ListOrder Ownership Tables
open TableMemory TableImage TableRuns TableDestroy Buckets Runs

/-- A put with the contents of the new key and value, or a removal with a pointer. -/
inductive Call where
  | put (mem node : Bool) (key : CString) (datasize : Int) (bytes : Option (List Byte))
  | remove (key : Option Nat)

def newKey (σ : Store) (key : CString) : Ptr CString := ⟨σ.next, key⟩

def allocKey (σ : Store) (key : CString) : Store := σ.alloc (.chars key)

def newValue (σ : Store) (datasize : Int) : Option (List Byte) → Ptr Data
  | none => ⟨σ.next, ⟨datasize, none⟩⟩
  | some bs => ⟨σ.next + 1, ⟨datasize, some ⟨σ.next, bs⟩⟩⟩

def allocValue (σ : Store) (datasize : Int) : Option (List Byte) → Store
  | none => σ.alloc (.data datasize none)
  | some bs => (σ.alloc (.bytes bs)).alloc (.data datasize (some σ.next))

/-- The store in which `table_put` runs. -/
def allocArgs (σ : Store) (key : CString) (datasize : Int) (bytes : Option (List Byte)) : Store :=
  allocValue (allocKey σ key) datasize bytes

def callStep (t : Nat) (σ : Store) : Call → Except Fault (Int × Store)
  | .put mem node key datasize bytes =>
    TableMemory.tablePut mem node (allocArgs σ key datasize bytes) (some t)
      (some (newKey σ key).addr) (some (newValue (allocKey σ key) datasize bytes).addr)
  | .remove key => TableMemory.tableRemove σ (some t) key

/-- `list_add` will stop at a node with this key. -/
def Holding (σ : Store) (t : Nat) (key : CString) : Prop :=
  ∃ L T F, L.table = t ∧ Represents σ L T F ∧ InRange T key ∧ Reached key (T.chain key)

/-- The entry of a put finds its memory: its own block, and a node unless it
takes the place of another entry. -/
def Places (t : Nat) (σ : Store) : Call → Prop
  | .put mem node key _ _ => mem = true ∧ (node = true ∨ Holding σ t key)
  | .remove _ => True

theorem allocArgs_tracked {R : Store → Image → Prop} (tracks : Tracks R) {σ : Store} {m : Image}
    (holds : R σ m) (key : CString) (datasize : Int) (bytes : Option (List Byte)) :
    R (allocArgs σ key datasize bytes)
      (keyImage (newKey σ key) + dataImage (newValue (allocKey σ key) datasize bytes) + m) := by
  cases bytes with
  | none =>
    refine tracks.congr (tracks.alloc _ (tracks.alloc _ holds)) ?_
    simp only [keyImage, newKey, newValue, allocKey, dataImage, optionImage, Option.map_none]
    abel
  | some bs =>
    refine tracks.congr (tracks.alloc _ (tracks.alloc _ (tracks.alloc _ holds))) ?_
    simp only [keyImage, newKey, newValue, allocKey, dataImage, optionImage, bytesImage,
      Option.map_some, Heap.alloc_next]
    abel

section Puts

variable {σ σ' : Store} {L : Layout} {T : Table} {F : Image} {mem node : Bool} {key : CString}
  {datasize : Int} {bytes : Option (List Byte)} {c : Int}

/-- The code of a put on values, in every table that the store represents. -/
theorem put_on_values (rep : Represents σ L T F) (range : InRange T key)
    (h : callStep L.table σ (.put mem node key datasize bytes) = .ok (c, σ')) :
    ∃ T', Tables.tablePut (if mem then some (allocArgs σ key datasize bytes).next else none)
      (if node then some ((allocArgs σ key datasize bytes).next + 1) else none) T
      (some (newKey σ key)) (some (newValue (allocKey σ key) datasize bytes)) = .ok (c, T') := by
  have owns : Owns (allocArgs σ key datasize bytes) (tableImage L T +
      (keyImage (newKey σ key) + dataImage (newValue (allocKey σ key) datasize bytes))) := by
    refine (allocArgs_tracked owns_tracks rep.owns.left key datasize bytes).congr ?_
    abel
  obtain ⟨_, hok⟩ := tablePut_image mem node ⟨rep.length_eq, owns⟩
  have range' : InRange T (newKey σ key).obj := range
  have hput := tablePut_eq range'
    (if mem then some (allocArgs σ key datasize bytes).next else none)
    (if node then some ((allocArgs σ key datasize bytes).next + 1) else none)
    (newValue (allocKey σ key) datasize bytes)
  obtain ⟨σ'', hcall, _⟩ := hok _ _ hput
  cases h.symm.trans hcall
  exact ⟨_, hput⟩

/-- A put is refused exactly when its entry does not find its memory. -/
theorem refused_iff {T' : Table} {mem node : Option Nat} {key : Ptr CString} {value : Ptr Data}
    (h : Tables.tablePut mem node T (some key) (some value) = .ok (c, T')) :
    c < 0 ↔ ¬ (mem ≠ none ∧ (node ≠ none ∨ Reached key.obj (T.chain key.obj))) := by
  by_cases range : InRange T key.obj
  · rw [tablePut_eq range] at h
    cases h
    cases create : Entries.entryCreate mem (some key) (some value) with
    | none =>
      have hmem : mem = none := by
        cases mem with
        | none => rfl
        | some a => simp [Entries.entryCreate] at create
      simp [ListOps.listAdd, hmem]
    | some e =>
      have hmem : mem ≠ none := by
        rintro rfl
        simp [Entries.entryCreate] at create
      rcases listAdd_code (created_key create) node (T.chain key.obj) with
        ⟨hcode, hreached⟩ | ⟨hcode, hnode, _⟩ | ⟨hcode, hnode, hreached⟩
      · simp [hcode, hmem, hreached]
      · simp [hcode, hmem, hnode]
      · obtain rfl := hnode
        simp [hcode, hreached]
  · rw [tablePut_out_of_range range] at h
    cases h

theorem not_refused_iff (rep : Represents σ L T F) (range : InRange T key)
    (h : callStep L.table σ (.put mem node key datasize bytes) = .ok (c, σ')) :
    ¬ c < 0 ↔ Places L.table σ (.put mem node key datasize bytes) := by
  have some_iff : ∀ (b : Bool) (a : Nat), (if b then some a else none) ≠ none ↔ b = true := by
    intro b a
    cases b <;> simp
  have accepted_iff : ∀ {L' : Layout} {T' : Table} {F' : Image}, Represents σ L' T' F' →
      InRange T' key → L'.table = L.table →
      (¬ c < 0 ↔ mem = true ∧ (node = true ∨ Reached key (T'.chain key))) := by
    intro L' T' F' rep' range' hL
    rw [← hL] at h
    obtain ⟨_, hput⟩ := put_on_values rep' range' h
    have hcode := refused_iff hput
    rw [some_iff, some_iff] at hcode
    rw [hcode, not_not]
    rfl
  constructor
  · intro accepted
    obtain ⟨hmem, hnode | hreached⟩ := (accepted_iff rep range rfl).mp accepted
    · exact ⟨hmem, Or.inl hnode⟩
    · exact ⟨hmem, Or.inr ⟨L, T, F, rfl, rep, range, hreached⟩⟩
  · rintro ⟨hmem, hnode | ⟨L', T', F', hL, rep', range', hreached⟩⟩
    · exact (accepted_iff rep range rfl).mpr ⟨hmem, Or.inl hnode⟩
    · exact (accepted_iff rep' range' hL).mpr ⟨hmem, Or.inr hreached⟩

end Puts

/-- The table, what was left behind and what was there before make up the store. -/
structure Standing (before : Image) (σ : Store) (L : Layout) (T : Table) (lost : Image) : Prop where
  same : L.lists.length = T.lists.length
  complete : AllComplete T
  pos : 0 < T.size
  exhausts : Exhausts σ (tableImage L T + (lost + before))

section Steps

variable {σ σ' : Store} {L : Layout} {T : Table} {before lost : Image} {c : Int}

theorem Standing.represents (standing : Standing before σ L T lost) :
    Represents σ L T (lost + before) := ⟨standing.same, standing.exhausts.owns⟩

theorem complete_step {T' : Table} {op : TableOp} {r : TableResult} (complete : AllComplete T)
    (step : tableStep T op = .ok (r, T')) : AllComplete T' :=
  holds_step (P := fun e => e.key ≠ none ∧ e.value ≠ none) complete (by simp) step

/-- A put is one step of the table on values, and leaves blocks behind exactly
when it is refused. -/
theorem put_step {mem node : Bool} {key : CString} {datasize : Int}
    {bytes : Option (List Byte)} (standing : Standing before σ L T lost)
    (h : callStep L.table σ (.put mem node key datasize bytes) = .ok (c, σ')) :
    ∃ op T' left, op.IsPut = true ∧ tableStep T op = .ok (.code c, T') ∧
      Standing before σ' L T' (left + lost) ∧ (left = 0 ↔ ¬ c < 0) ∧
      (¬ c < 0 ↔ Places L.table σ (.put mem node key datasize bytes)) := by
  have rep := standing.represents
  have holds := allocArgs_tracked exhausts_tracks standing.exhausts key datasize bytes
  have parts : Exhausts (allocArgs σ key datasize bytes) (tableImage L T +
      (keyImage (newKey σ key) + dataImage (newValue (allocKey σ key) datasize bytes) +
        (lost + before))) := by
    refine exhausts_tracks.congr holds ?_
    abel
  obtain ⟨hfault, hok⟩ := tablePut_tracked exhausts_tracks mem node standing.same
    (Or.inr standing.complete) parts
  by_cases range : InRange T key
  · have range' : InRange T (newKey σ key).obj := range
    obtain ⟨T', hput⟩ := put_on_values rep range h
    obtain ⟨rest, σ'', hrest, hcall, holds'⟩ := hok _ _ hput
    cases h.symm.trans hcall
    have hstep : tableStep T (.put (if mem then some (allocArgs σ key datasize bytes).next else none)
        (if node then some ((allocArgs σ key datasize bytes).next + 1) else none) (newKey σ key)
        (newValue (allocKey σ key) datasize bytes)) = .ok (.code c, T') := by
      rw [tableStep, hput, ok_bind, pure_eq_ok]
    refine ⟨_, T', refused c rest, rfl, hstep, ⟨?_, ?_, ?_, ?_⟩, ?_, not_refused_iff rep range h⟩
    · exact standing.same.trans (put_lists_length hput).symm
    · exact complete_step standing.complete hstep
    · rw [size_step hstep]
      exact standing.pos
    · refine exhausts_tracks.congr holds' ?_
      abel
    · simp [refused, hrest]
  · have hfails := hfault .outOfBounds (tablePut_out_of_range range _ _ _)
    cases h.symm.trans hfails

theorem put_standing {mem node : Bool} {key : CString} {datasize : Int}
    {bytes : Option (List Byte)} (standing : Standing before σ L T lost)
    (h : callStep L.table σ (.put mem node key datasize bytes) = .ok (c, σ')) :
    ∃ T' left, Standing before σ' L T' (left + lost) ∧ T'.size = T.size ∧
      (left = 0 ↔ Places L.table σ (.put mem node key datasize bytes)) := by
  obtain ⟨_, T', left, _, hstep, standing', hleft, hplaces⟩ := put_step standing h
  exact ⟨T', left, standing', size_step hstep, hleft.trans hplaces⟩

/-- A removal is a step of the table on values, unless it is refused. -/
theorem remove_step {key : Option Nat} (standing : Standing before σ L T lost)
    (h : callStep L.table σ (.remove key) = .ok (c, σ')) :
    ∃ T', Standing before σ' L T' lost ∧
      ((∃ k, tableStep T (.remove k) = .ok (.code c, T')) ∨ c = -1 ∧ T' = T ∧ σ' = σ) := by
  have rep := standing.represents
  cases key with
  | none =>
    cases h
    exact ⟨T, standing, Or.inr ⟨rfl, rfl, rfl⟩⟩
  | some key =>
    -- the bucket index was computed from the characters of the key
    obtain ⟨k, hkey⟩ : ∃ k, loadChars σ (some key) = .ok k := by
      have hpos : ¬ T.size ≤ 0 := not_le.mpr standing.pos
      simp only [callStep, TableMemory.tableRemove, loadTable_image rep, ok_bind,
        TableMemory.hashFunction, if_neg hpos] at h
      obtain ⟨_, hhash, _⟩ := (bind_eq_ok_iff _ _ _).mp h
      obtain ⟨k, hkey, _⟩ := (bind_eq_ok_iff _ _ _).mp hhash
      exact ⟨k, hkey⟩
    obtain ⟨hfault, hok⟩ := tableRemove_tracked exhausts_tracks standing.same
      (Or.inr standing.complete) standing.exhausts hkey
    cases hremove : Tables.tableRemove T (some k) with
    | error fault => cases h.symm.trans (hfault fault hremove)
    | ok r =>
      obtain ⟨c', T'⟩ := r
      obtain ⟨σ'', hcall, holds'⟩ := hok _ _ hremove
      cases h.symm.trans hcall
      have hstep : tableStep T (.remove k) = .ok (.code c, T') := by
        rw [tableStep, hremove, ok_bind, pure_eq_ok]
      refine ⟨T', ⟨?_, complete_step standing.complete hstep, ?_, holds'⟩, Or.inl ⟨k, hstep⟩⟩
      · exact standing.same.trans (remove_lists_length hremove).symm
      · rw [size_step hstep]
        exact standing.pos

theorem remove_standing {key : Option Nat} (standing : Standing before σ L T lost)
    (h : callStep L.table σ (.remove key) = .ok (c, σ')) :
    ∃ T', Standing before σ' L T' lost ∧ T'.size = T.size := by
  obtain ⟨T', standing', ⟨_, hstep⟩ | ⟨_, rfl, _⟩⟩ := remove_step standing h
  · exact ⟨T', standing', size_step hstep⟩
  · exact ⟨_, standing', rfl⟩

theorem call_standing {op : Call} (standing : Standing before σ L T lost)
    (h : callStep L.table σ op = .ok (c, σ')) :
    ∃ T' left, Standing before σ' L T' (left + lost) ∧ T'.size = T.size ∧
      (left = 0 ↔ Places L.table σ op) := by
  cases op with
  | put mem node key datasize bytes => exact put_standing standing h
  | remove key =>
    obtain ⟨T', standing', hsize⟩ := remove_standing standing h
    refine ⟨T', 0, ?_, hsize, by simp [Places]⟩
    rw [zero_add]
    exact standing'

end Steps

/-- Blocks are left behind in a run exactly when one of its puts is refused. -/
theorem run_standing {before : Image} {σ1 σ : Store} {L : Layout} {T1 : Table}
    {history : List (Event Store Call Int)} (start : Standing before σ1 L T1 0)
    (run : Run (callStep L.table) σ1 history σ) :
    ∃ T lost, Standing before σ L T lost ∧
      (lost = 0 ↔ ∀ e ∈ history, Places L.table e.before e.op) ∧ T.size = T1.size := by
  induction run with
  | start => exact ⟨T1, 0, start, by simp, rfl⟩
  | @next history s op c s' earlier last ih =>
    obtain ⟨T, lost, standing, hlost, hsize⟩ := ih
    obtain ⟨T', left, standing', hsize', hleft⟩ := call_standing standing last
    refine ⟨T', left + lost, standing', ?_, hsize'.trans hsize⟩
    rw [add_eq_zero, hleft, hlost, List.forall_mem_cons]

/-- Every list of the table has a node. -/
def Filled (σ : Store) (t : Nat) (n : Int) : Prop :=
  ∀ i : Nat, i < n → ∃ l size head, element σ t i = .ok (some l) ∧
    loadList σ (some l) = .ok (size, some head)

theorem filled_iff {σ : Store} {L : Layout} {T : Table} {F : Image} (rep : Represents σ L T F) :
    Filled σ L.table T.size ↔ ∀ list ∈ T.lists, list.head ≠ [] := by
  have loaded : ∀ i (hi : i < T.lists.length), ∃ l, element σ L.table i = .ok (some l) ∧
      loadList σ (some l) = .ok (T.lists[i].size, headAddr none T.lists[i].head) := by
    intro i hi
    obtain ⟨l, G, hl, hsplit, _⟩ := bucketsImage_split rep.length_eq hi
    have hle : listImage l T.lists[i] ≤ tableImage L T + F := by
      rw [tableImage, hsplit]
      exact (((Multiset.le_add_right _ _).trans (Multiset.le_add_left _ _)).trans
        (Multiset.le_add_left _ _)).trans (Multiset.le_add_right _ _)
    exact ⟨l, element_image rep hl, loadList_image rep.owns hle⟩
  have head_iff : ∀ nodes : List Node, (∃ a, headAddr none nodes = some a) ↔ nodes ≠ [] := by
    intro nodes
    cases nodes <;> simp
  constructor
  · intro filled list hlist
    obtain ⟨i, hi, rfl⟩ := List.getElem_of_mem hlist
    have hlt : (i : Int) < T.size := by
      have := T.length_eq
      omega
    obtain ⟨l, size, head, helement, hload⟩ := filled i hlt
    obtain ⟨l', helement', hload'⟩ := loaded i hi
    cases helement.symm.trans helement'
    rw [hload, Except.ok.injEq, Prod.mk.injEq] at hload'
    exact (head_iff _).mp ⟨head, hload'.2.symm⟩
  · intro nonempty i hlt
    have hi : i < T.lists.length := by
      rw [T.length_eq]
      omega
    obtain ⟨l, helement, hload⟩ := loaded i hi
    obtain ⟨a, ha⟩ := (head_iff _).mpr (nonempty _ (List.getElem_mem hi))
    exact ⟨l, _, a, helement, by rw [hload, ha]⟩

/-- `table_create` returns. Where it fails it leaves nothing exactly if it had
made no list. A table it made can be destroyed after every run of calls; no
block is released twice, and the store is as before exactly if every put found
its memory and no list of the table is empty. -/
theorem released_iff (mem array : Bool) (each : Nat → Bool) (σ0 : Store) {n : Int} (pos : 1 ≤ n) :
    ∃ p σ1, TableMemory.tableCreate mem array each σ0 n = .ok (p, σ1) ∧
      (p = none → (σ1.cell = σ0.cell ↔ mem = false ∨ array = false ∨ each 0 = false)) ∧
      ∀ t, p = some t → ∀ history σ, Run (callStep t) σ1 history σ →
        ∃ σ', tableDestroy σ (some t) = .ok (0, σ') ∧
          (σ'.cell = σ0.cell ↔
            (∀ e ∈ history, Places t e.before e.op) ∧ Filled σ t n) := by
  obtain ⟨before, whole⟩ := exists_exhausts σ0
  rcases tableCreate_tracked exhausts_tracks mem array each n whole with
    ⟨σ1, left, hcreate, holds, hleft⟩ | ⟨σ1, L, hcreate, same, holds⟩
  · refine ⟨none, σ1, hcreate, ?_, by simp⟩
    intro _
    rw [whole.restored_iff holds, hleft]
  · refine ⟨some L.table, σ1, hcreate, by simp, ?_⟩
    rintro t ⟨⟩ history σ run
    have start : Standing before σ1 L (emptyTable n) 0 := by
      have hpos : 0 < (emptyTable n).size := by
        simp only [emptyTable]
        omega
      refine ⟨same, ?_, hpos, by rw [zero_add]; exact holds⟩
      intro list hlist o ho
      obtain rfl := List.eq_of_mem_replicate hlist
      simp [ListT.entries, emptyList] at ho
    obtain ⟨T, lost, standing, hlost, hsize⟩ := run_standing start run
    obtain ⟨σ', hdestroy, left⟩ := tableDestroy_tracked exhausts_tracks standing.same
      (Or.inr standing.complete) standing.exhausts
    refine ⟨σ', hdestroy, ?_⟩
    have filled := filled_iff standing.represents
    rw [hsize] at filled
    have left' : Exhausts σ' (strandedLists L.lists T.lists + lost + before) :=
      exhausts_tracks.congr left (add_assoc _ _ _)
    rw [whole.restored_iff left', add_eq_zero, strandedLists_eq_zero_iff standing.same, hlost,
      ← filled]
    exact and_comm

def putA : Call := .put true true keyA 1 (some (keyA.map Subtype.val))

theorem released_sample : ∃ t σ1 history σ σ',
    TableMemory.tableCreate true true (fun _ => true) Heap.empty 1 = .ok (some t, σ1) ∧
      Run (callStep t) σ1 history σ ∧ history.reverse.map Event.result = [0, 1] ∧
      tableDestroy σ (some t) = .ok (0, σ') ∧
      (σ'.cell = Heap.empty.cell ↔
        (∀ e ∈ history, Places t e.before e.op) ∧ Filled σ t 1) := by
  obtain ⟨t, σ1, history, σ, created, played, codes⟩ : ∃ t σ1 history σ,
      TableMemory.tableCreate true true (fun _ => true) Heap.empty 1 = .ok (some t, σ1) ∧
      play (callStep t) [putA, putA] [] σ1 = .ok (history, σ) ∧
      history.reverse.map Event.result = [0, 1] :=
    ⟨_, _, _, _, rfl, rfl, rfl⟩
  have run := play_run _ .start played
  obtain ⟨p, σ1', created', _, destroyed⟩ :=
    released_iff true true (fun _ => true) Heap.empty (le_refl (1 : Int))
  cases created.symm.trans created'
  obtain ⟨σ', hdestroy, hiff⟩ := destroyed t rfl history σ run
  exact ⟨t, σ1, history, σ, σ', created, run, codes, hdestroy, hiff⟩

/-- The key "a" has the second of two lists; the first one stays when the table
goes, and when it is the second one that cannot be allocated. -/
theorem empty_list_kept :
    (∃ t σ1 history σ σ',
      TableMemory.tableCreate true true (fun _ => true) Heap.empty 2 = .ok (some t, σ1) ∧
        Run (callStep t) σ1 history σ ∧ history.reverse.map Event.result = [0] ∧
        tableDestroy σ (some t) = .ok (0, σ') ∧ σ'.cell 2 = some (.list 0 none)) ∧
    ∃ σ1, TableMemory.tableCreate true true (fun i => i == 0) Heap.empty 2 = .ok (none, σ1) ∧
      σ1.cell 2 = some (.list 0 none) := by
  refine ⟨?_, _, rfl, rfl⟩
  obtain ⟨t, σ1, history, σ, σ', created, played, codes, destroyed, kept⟩ : ∃ t σ1 history σ σ',
      TableMemory.tableCreate true true (fun _ => true) Heap.empty 2 = .ok (some t, σ1) ∧
      play (callStep t) [putA] [] σ1 = .ok (history, σ) ∧
      history.reverse.map Event.result = [0] ∧
      tableDestroy σ (some t) = .ok (0, σ') ∧ σ'.cell 2 = some (.list 0 none) :=
    ⟨_, _, _, _, _, rfl, rfl, rfl, rfl, rfl⟩
  exact ⟨t, σ1, history, σ, σ', created, play_run _ .start played, codes, destroyed, kept⟩

end Ledger
