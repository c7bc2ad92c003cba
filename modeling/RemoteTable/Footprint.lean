import RemoteTable.Ledger
import RemoteTable.PutEffects

/-!
# How many blocks a table holds

The calls of a table's life are told apart by their codes alone: a put that
returns 0 keeps its key, value and entry and one new node, one that returns 1
keeps them and releases another entry, a removal that returns 0 releases an
entry but no node. So the live blocks of each kind follow from the codes.
-/

namespace Footprint

open CStrings Memory Entries ListOps ListMemory ListImage ListRuns Ownership Tables TableMemory
open TableImage TableRuns Buckets Runs Ledger PutEffects

inductive Kind where
  | chars | bytes | data | entry | node | list | array | table
  deriving DecidableEq

def kindOf : Block → Kind
  | .chars _ => .chars
  | .bytes _ => .bytes
  | .data .. => .data
  | .entry .. => .entry
  | .node .. => .node
  | .list .. => .list
  | .array _ => .array
  | .table .. => .table

/-- The live blocks of a kind. -/
def live (k : Kind) (σ : Store) : Nat := count (fun b => kindOf b = k) σ

/-- The blocks of a kind in an image. -/
def blocks (k : Kind) (m : Image) : Nat := m.countP fun p => kindOf p.2 = k

/-- The blocks of a kind in an entry with its key and value. -/
def perEntry : Kind → Nat
  | .chars | .data | .entry => 1
  | _ => 0

section Images

variable {k : Kind}

@[simp] theorem blocks_zero : blocks k 0 = 0 := rfl

@[simp] theorem blocks_add (m m' : Image) : blocks k (m + m') = blocks k m + blocks k m' :=
  Multiset.countP_add _ _ _

@[simp] theorem blocks_singleton (p : Nat × Block) :
    blocks k {p} = if kindOf p.2 = k then 1 else 0 := by
  rw [blocks, ← Multiset.cons_zero, Multiset.countP_cons, Multiset.countP_zero, Nat.zero_add]

theorem live_eq {σ : Store} {m : Image} (exhausts : Exhausts σ m) : live k σ = blocks k m := by
  rw [live, exhausts.count_eq]
  simp only [blocks, decide_eq_true_eq]

theorem live_alloc (σ : Store) (b : Block) :
    live k (σ.alloc b) = live k σ + if kindOf b = k then 1 else 0 := by
  rw [live, count_alloc, live]
  simp only [decide_eq_true_eq]

variable (other : k ≠ .bytes)

include other

theorem blocks_dataImage (d : Ptr Data) : blocks k (dataImage d) = if k = .data then 1 else 0 := by
  have buffer : blocks k (optionImage bytesImage d.obj.data) = 0 := by
    cases d.obj.data with
    | none => rfl
    | some bs => simp [optionImage, bytesImage, kindOf, other.symm]
  rw [dataImage, blocks_add, buffer, blocks_singleton, Nat.add_zero]
  simp only [kindOf, eq_comm]

theorem blocks_entryImage {e : Ptr Entry} (complete : Complete e) :
    blocks k (entryImage e) = perEntry k := by
  obtain ⟨key, hkey⟩ := Option.ne_none_iff_exists'.mp complete.1
  obtain ⟨value, hvalue⟩ := Option.ne_none_iff_exists'.mp complete.2
  simp only [entryImage, hkey, hvalue, optionImage, keyImage, blocks_add, blocks_singleton,
    blocks_dataImage other]
  cases k <;> simp [kindOf, perEntry]

theorem blocks_chainImage (tail : Option Nat) (nodes : List Node)
    (complete : ∀ o ∈ nodes.filterMap Node.entry, Complete o) :
    blocks k (chainImage tail nodes) = (if k = .node then nodes.length else 0) +
      perEntry k * (nodes.countP fun n => n.entry.isSome) := by
  induction nodes with
  | nil => simp [chainImage]
  | cons n rest ih =>
    have hrest : ∀ o ∈ rest.filterMap Node.entry, Complete o := by
      intro o ho
      obtain ⟨m, hm, hentry⟩ := List.mem_filterMap.mp ho
      exact complete o (List.mem_filterMap.mpr ⟨m, List.mem_cons_of_mem n hm, hentry⟩)
    have hnode : blocks k (optionImage entryImage n.entry) =
        perEntry k * if n.entry.isSome then 1 else 0 := by
      cases hentry : n.entry with
      | none => simp [optionImage]
      | some o =>
        have ho := complete o (List.mem_filterMap.mpr ⟨n, List.mem_cons_self, hentry⟩)
        simp [optionImage, blocks_entryImage other ho]
    simp only [chainImage, blocks_add, blocks_singleton, hnode, ih hrest, List.countP_cons,
      List.length_cons, kindOf, Nat.mul_add, @eq_comm _ Kind.node k]
    split_ifs <;> omega

theorem blocks_bucketsImage {ls : List Nat} {lists : List ListT} (same : ls.length = lists.length)
    (complete : ∀ list ∈ lists, ∀ o ∈ list.entries, Complete o) :
    blocks k (bucketsImage ls lists) = (if k = .list then lists.length else 0) +
      ((if k = .node then (lists.map fun list => list.head.length).sum else 0) +
        perEntry k * (lists.map fun list => list.head.countP fun n => n.entry.isSome).sum) := by
  induction lists generalizing ls with
  | nil =>
    obtain rfl := List.length_eq_zero_iff.mp same
    simp [bucketsImage]
  | cons list lists ih =>
    obtain ⟨l, ls, rfl⟩ := List.exists_cons_of_length_pos (l := ls) (by simp [same])
    have hrest := ih (Nat.succ.inj same) fun list hlist =>
      complete list (List.mem_cons_of_mem _ hlist)
    have hlist := blocks_chainImage other none list.head (complete list List.mem_cons_self)
    simp only [bucketsImage, listImage, blocks_add, blocks_singleton, hrest, hlist, kindOf,
      List.map_cons, List.sum_cons, List.length_cons, Nat.mul_add, @eq_comm _ Kind.list k]
    split_ifs <;> omega

end Images

/-- The nodes of all chains. -/
def nodes (T : Table) : Nat := (T.lists.map fun list => list.head.length).sum

/-- What a table takes up besides its entries and their nodes. -/
def frame (k : Kind) (T : Table) : Nat :=
  match k with
  | .table | .array => 1
  | .list => T.lists.length
  | _ => 0

theorem blocks_tableImage {k : Kind} (other : k ≠ .bytes) {L : Layout} {T : Table}
    (same : L.lists.length = T.lists.length) (complete : AllComplete T) :
    blocks k (tableImage L T) =
      frame k T + ((if k = .node then nodes T else 0) + perEntry k * liveNodes T) := by
  simp only [tableImage, blocks_add, blocks_singleton, blocks_bucketsImage other same complete,
    kindOf, nodes, liveNodes]
  cases k <;> simp [frame]

section Nodes

/-- A sum over the chains changes with the chain that is exchanged. -/
theorem sum_setChain {T : Table} {key : CString} (range : InRange T key) (f : ListT → Nat)
    (list : ListT) : ((T.setChain key list).lists.map f).sum + f (T.chain key) =
      (T.lists.map f).sum + f list := by
  have hlt := range.lt_length
  have hlt' : (T.index key).toNat < (T.lists.map f).length := by simpa using hlt
  have split := List.sum_take_add_sum_drop (T.lists.map f) (T.index key).toNat
  rw [List.drop_eq_getElem_cons hlt', List.sum_cons] at split
  rw [Table.setChain, Table.setBucket, List.map_set, List.sum_set, if_pos hlt', ← split]
  simp [Table.chain, hlt]
  omega

theorem removed_length {list list' : ListT} {k : CString} {c : Int}
    (remove : listRemove list (some k) = .ok (c, list')) :
    list'.head.length = list.head.length := by
  have hlook := looked list k
  rw [remove] at hlook
  generalize listGet list (some k) = got at hlook
  cases hlook with
  | @hit pre n post e chain other entry key =>
    have up := congrArg List.length (removeNode_addrs n post)
    simp only [List.length_map, List.length_cons] at up
    simp [chain, up]
  | miss => rfl

/-- A put that returns 0 is the only call that changes the number of nodes. -/
theorem nodes_step {T T' : Table} {op : TableOp} {r : TableResult}
    (step : tableStep T op = .ok (r, T')) :
    nodes T' = nodes T + if op.IsPut && r.IsZero then 1 else 0 := by
  cases tableStep_cases step with
  | @put mem node key value c list range add =>
    have hsum := sum_setChain range (fun list => list.head.length) list
    simp only [nodes, TableOp.IsPut, TableResult.IsZero, Bool.true_and] at hsum ⊢
    cases listStep_cases add with
    | @added _ _ _ _ e create hk =>
      rcases listAdd_chain hk node (T.chain key.obj) with hadd | ⟨_, hadd, grown⟩ |
        ⟨_, hadd, exchanged⟩
      · simp only [hadd] at hsum ⊢
        simpa using hsum
      · cases grown with
        | @intro pre post a chain =>
          simp only [hadd, chain, List.length_append, List.length_cons] at hsum ⊢
          simp
          omega
      · cases exchanged with
        | @intro pre n post old chain held same =>
          simp only [hadd, chain, List.length_append, List.length_cons] at hsum ⊢
          simp
          omega
    | refused create => simpa using hsum
  | @remove key c list range remove =>
    have hsum := sum_setChain range (fun list => list.head.length) list
    rw [removed_length remove] at hsum
    simpa [nodes, TableOp.IsPut] using hsum
  | get => simp [TableOp.IsPut]
  | size => simp [TableOp.IsPut]

end Nodes

section Refusals

variable {σ σ' : Store} {c : Int}

theorem replaceEntry_code {current entry : Nat}
    (h : ListMemory.replaceEntry σ current entry = .ok (c, σ')) : c = 1 := by
  simp only [ListMemory.replaceEntry, bind_eq_ok_iff, pure_eq_ok, Except.ok.injEq,
    Prod.mk.injEq] at h
  obtain ⟨_, _, _, _, _, _, _, _, rfl, _⟩ := h
  rfl

theorem appendNode_refused {mem : Bool} {list current entry : Nat} {next : Option Nat}
    (h : ListMemory.appendNode mem σ list current entry next = .ok (c, σ')) (negative : c < 0) :
    σ' = σ := by
  cases mem with
  | false =>
    cases h
    rfl
  | true =>
    simp only [ListMemory.appendNode, malloc, bind_eq_ok_iff, pure_eq_ok, Except.ok.injEq,
      Prod.mk.injEq, if_true] at h
    obtain ⟨_, _, _, _, _, _, rfl, _⟩ := h
    exact absurd negative (lt_irrefl 0)

theorem pushNode_counts {l node : Nat} {size : Int} {next : Option Nat} {b : Block}
    (h : (do
      let σ1 ← (σ.alloc b).store l (.list size next)
      let σ2 ← countUp σ1 node
      pure (0, σ2) : Except Fault (Int × Store)) = .ok (c, σ')) : c = 0 := by
  simp only [bind_eq_ok_iff, pure_eq_ok, Except.ok.injEq, Prod.mk.injEq] at h
  obtain ⟨_, _, _, _, rfl, _⟩ := h
  rfl

/-- An addition that is refused has not written to the store. -/
theorem listAdd_refused {mem : Bool} {list entry : Option Nat}
    (h : ListMemory.listAdd mem σ list entry = .ok (c, σ')) (negative : c < 0) : σ' = σ := by
  have replaced : ∀ {current e : Nat}, ListMemory.replaceEntry σ current e = .ok (c, σ') →
      σ' = σ := by
    intro current e hreplace
    obtain rfl := replaceEntry_code hreplace
    exact absurd negative (by decide)
  cases list with
  | none =>
    cases h
    rfl
  | some l =>
    cases entry with
    | none =>
      cases h
      rfl
    | some e =>
      simp only [ListMemory.listAdd] at h
      obtain ⟨⟨size, head⟩, _, h⟩ := (bind_eq_ok_iff _ _ _).mp h
      cases head with
      | none =>
        cases mem with
        | false =>
          cases h
          rfl
        | true => exact absurd (pushNode_counts h) negative.ne
      | some head =>
        obtain ⟨_, _, h⟩ := (bind_eq_ok_iff _ _ _).mp h
        obtain ⟨comp, _, h⟩ := (bind_eq_ok_iff _ _ _).mp h
        split_ifs at h
        · exact replaced h
        · cases mem with
          | false =>
            cases h
            rfl
          | true => exact absurd (pushNode_counts h) negative.ne
        · obtain ⟨_, _, h⟩ := (bind_eq_ok_iff _ _ _).mp h
          obtain ⟨_, _, h⟩ := (bind_eq_ok_iff _ _ _).mp h
          split_ifs at h
          · exact replaced h
          · exact appendNode_refused h negative
          · exact appendNode_refused h negative
          · cases h
            rfl

theorem tablePut_refused {mem node : Bool} {t key value : Nat}
    (h : TableMemory.tablePut mem node σ (some t) (some key) (some value) = .ok (c, σ'))
    (negative : c < 0) :
    σ' = if mem then σ.alloc (.entry (some key) (some value)) else σ := by
  simp only [TableMemory.tablePut, bind_eq_ok_iff] at h
  obtain ⟨_, _, _, _, _, _, h⟩ := h
  rw [listAdd_refused h negative, ListMemory.entryCreate, malloc]
  split <;> rfl

end Refusals

theorem live_allocArgs {k : Kind} (other : k ≠ .bytes) (σ : Store) (key : CString)
    (datasize : Int) (bytes : Option (List Byte)) :
    live k (allocArgs σ key datasize bytes) =
      live k σ + ((if k = .chars then 1 else 0) + if k = .data then 1 else 0) := by
  cases bytes <;>
    simp only [allocArgs, allocValue, allocKey, live_alloc, kindOf] <;>
    cases k <;> first | exact absurd rfl other | simp

/-- A put that returned 0. -/
def inserts (op : Call) (c : Int) : Bool :=
  match op with
  | .put .. => c = 0
  | .remove _ => false

/-- A removal that returned 0. -/
def removes (op : Call) (c : Int) : Bool :=
  match op with
  | .put .. => false
  | .remove _ => c = 0

def refuses (op : Call) (c : Int) : Bool :=
  match op with
  | .put .. => c < 0
  | .remove _ => false

/-- A put whose entry was created and then not taken. -/
def dropsEntry (op : Call) (c : Int) : Bool :=
  match op with
  | .put mem .. => mem && c < 0
  | .remove _ => false

/-- A call that leaves a block of the kind behind. -/
def abandons (k : Kind) : Call → Int → Bool :=
  match k with
  | .chars | .data => refuses
  | .entry => dropsEntry
  | _ => fun _ _ => false

section Steps

variable {σ σ' : Store} {L : Layout} {T T' : Table} {before lost : Image} {c : Int}

theorem live_standing {k : Kind} (other : k ≠ .bytes) (standing : Standing before σ L T lost) :
    live k σ = frame k T + ((if k = .node then nodes T else 0) + perEntry k * liveNodes T) +
      (blocks k lost + blocks k before) := by
  rw [live_eq standing.exhausts, blocks_add, blocks_add,
    blocks_tableImage other standing.same standing.complete]

/-- A call that leaves nothing behind changes the blocks as it changes the table. -/
theorem live_step {k : Kind} (other : k ≠ .bytes) {op : TableOp}
    (standing : Standing before σ L T lost) (standing' : Standing before σ' L T' lost)
    (sound : AllSound T) (step : tableStep T op = .ok (.code c, T')) :
    live k σ' + perEntry k * (if op.IsRemove && (TableResult.code c).IsZero then 1 else 0) =
      live k σ + (perEntry k + if k = .node then 1 else 0) *
        (if op.IsPut && (TableResult.code c).IsZero then 1 else 0) := by
  have hnodes := nodes_step step
  have hsize := tableSize_step step
  rw [tableSize_eq_liveNodes sound, tableSize_eq_liveNodes (allSound_step sound step)] at hsize
  have hlists : T'.lists.length = T.lists.length := standing'.same.symm.trans standing.same
  have hframe : frame k T' = frame k T := by
    cases k <;> simp [frame, hlists]
  generalize (op.IsPut && (TableResult.code c).IsZero) = added at hnodes hsize ⊢
  generalize (op.IsRemove && (TableResult.code c).IsZero) = gone at hsize ⊢
  have balance : liveNodes T' + (if gone then 1 else 0) =
      liveNodes T + if added then 1 else 0 := by
    cases added <;> cases gone <;> simp at hsize ⊢ <;> omega
  have entries := congrArg (perEntry k * ·) balance
  simp only [Nat.mul_add] at entries
  rw [live_standing other standing, live_standing other standing', hframe, hnodes, Nat.add_mul]
  by_cases hk : k = .node
  · simp only [hk, if_true, one_mul] at entries ⊢
    omega
  · simp only [hk, if_false, zero_mul]
    omega

/-- A refused put leaves its key and value, and its entry if that was created. -/
theorem live_refused {k : Kind} (other : k ≠ .bytes) {t : Nat} {mem node : Bool} {key : CString}
    {datasize : Int} {bytes : Option (List Byte)} (negative : c < 0)
    (h : callStep t σ (.put mem node key datasize bytes) = .ok (c, σ')) :
    live k σ' = live k σ +
      if abandons k (.put mem node key datasize bytes) c then 1 else 0 := by
  have hargs := live_allocArgs other σ key datasize bytes
  rw [tablePut_refused h negative]
  cases mem with
  | false =>
    rw [if_neg Bool.false_ne_true, hargs]
    cases k <;> simp [abandons, refuses, dropsEntry, negative]
  | true =>
    rw [if_pos rfl, live_alloc, hargs]
    cases k <;> simp [abandons, refuses, dropsEntry, negative, kindOf]

/-- What one call does to the live blocks of a kind and to the size. -/
structure Accounted (σ σ' : Store) (T T' : Table) (op : Call) (c : Int) : Prop where
  live : ∀ k, k ≠ .bytes → live k σ' + perEntry k * (if removes op c then 1 else 0) =
    live k σ + (perEntry k + if k = .node then 1 else 0) * (if inserts op c then 1 else 0) +
      if abandons k op c then 1 else 0
  size : tableSize T' = tableSize T + (if inserts op c then 1 else 0) -
    (if removes op c then 1 else 0)

theorem call_accounted {op : Call} (standing : Standing before σ L T lost) (sound : AllSound T)
    (h : callStep L.table σ op = .ok (c, σ')) :
    ∃ T' lost', Standing before σ' L T' lost' ∧ AllSound T' ∧ T'.size = T.size ∧
      Accounted σ σ' T T' op c := by
  cases op with
  | put mem node key datasize bytes =>
    obtain ⟨op, T', left, hput, hstep, standing', hleft, _⟩ := put_step standing h
    have hremove : op.IsRemove = false := by
      cases op <;> simp_all [TableOp.IsPut, TableOp.IsRemove]
    have hsize := tableSize_step hstep
    simp only [hput, hremove, TableResult.IsZero, Bool.true_and, Bool.false_and] at hsize
    refine ⟨T', _, standing', allSound_step sound hstep, size_step hstep, ?_, ?_⟩
    · intro k other
      by_cases negative : c < 0
      · have hne : c ≠ 0 := by omega
        simp [live_refused other negative h, removes, inserts, hne]
      · obtain rfl := hleft.mpr negative
        rw [zero_add] at standing'
        have hlive := live_step other standing standing' sound hstep
        simp only [hput, hremove, TableResult.IsZero, Bool.true_and, Bool.false_and] at hlive
        have habandons : abandons k (.put mem node key datasize bytes) c = false := by
          cases k <;> simp [abandons, refuses, dropsEntry, negative]
        simpa [inserts, removes, habandons] using hlive
    · simpa [inserts, removes] using hsize
  | remove key =>
    obtain ⟨T', standing', ⟨k', hstep⟩ | ⟨rfl, rfl, rfl⟩⟩ := remove_step standing h
    · have hsize := tableSize_step hstep
      refine ⟨T', lost, standing', allSound_step sound hstep, size_step hstep, ?_, ?_⟩
      · intro k other
        have hlive := live_step other standing standing' sound hstep
        have habandons : abandons k (.remove key) c = false := by
          cases k <;> simp [abandons, refuses, dropsEntry]
        simpa [inserts, removes, habandons, TableOp.IsPut, TableOp.IsRemove,
          TableResult.IsZero] using hlive
      · simpa [inserts, removes, TableOp.IsPut, TableOp.IsRemove, TableResult.IsZero] using hsize
    · refine ⟨_, lost, standing, sound, rfl, ?_, ?_⟩
      · intro k _
        cases k <;> simp [inserts, removes, abandons, refuses, dropsEntry]
      · simp [inserts, removes]

end Steps

/-- The number of calls of a history that a predicate on calls and codes picks. -/
def calls (P : Call → Int → Bool) (history : List (Event Store Call Int)) : Nat :=
  history.countP fun e => P e.op e.result

theorem calls_cons (P : Call → Int → Bool) (e : Event Store Call Int)
    (history : List (Event Store Call Int)) :
    calls P (e :: history) = calls P history + if P e.op e.result then 1 else 0 :=
  List.countP_cons

theorem run_accounted {before : Image} {σ1 σ : Store} {L : Layout} {T1 : Table}
    {history : List (Event Store Call Int)} (start : Standing before σ1 L T1 0)
    (sound : AllSound T1) (run : Run (callStep L.table) σ1 history σ) :
    ∃ T lost, Standing before σ L T lost ∧ AllSound T ∧ T.size = T1.size ∧
      (∀ k, k ≠ .bytes → live k σ + perEntry k * calls removes history =
        live k σ1 + (perEntry k + if k = .node then 1 else 0) * calls inserts history +
          calls (abandons k) history) ∧
      tableSize T = tableSize T1 + calls inserts history - calls removes history := by
  induction run with
  | start => exact ⟨T1, 0, start, sound, rfl, by simp [calls], by simp [calls]⟩
  | @next history s op c s' earlier last ih =>
    obtain ⟨T, lost, standing, hsound, same, hlive, hsize⟩ := ih
    obtain ⟨T', lost', standing', hsound', same', accounted⟩ := call_accounted standing hsound last
    refine ⟨T', lost', standing', hsound', same'.trans same, ?_, ?_⟩
    · intro k other
      have hlast := accounted.live k other
      have hbefore := hlive k other
      simp only [calls_cons, Nat.mul_add] at hbefore ⊢
      omega
    · rw [accounted.size, hsize, calls_cons, calls_cons]
      push_cast
      omega

theorem emptyTable_sound (n : Int) : AllSound (emptyTable n) := by
  intro list hlist
  obtain rfl := List.eq_of_mem_replicate hlist
  exact emptyList_sound

/-- The table that was made is all that has come to the store. -/
theorem created_standing {mem array : Bool} {each : Nat → Bool} {σ0 σ1 : Store} {n : Int}
    {t : Nat} (pos : 1 ≤ n)
    (created : TableMemory.tableCreate mem array each σ0 n = .ok (some t, σ1)) :
    ∃ before L, Exhausts σ0 before ∧ L.table = t ∧ Standing before σ1 L (emptyTable n) 0 := by
  obtain ⟨before, whole⟩ := exists_exhausts σ0
  rcases tableCreate_tracked exhausts_tracks mem array each n whole with
    ⟨_, _, hcreate, _⟩ | ⟨_, L, hcreate, same, holds⟩
  · cases created.symm.trans hcreate
  · cases created.symm.trans hcreate
    refine ⟨before, L, whole, rfl, same, ?_, ?_, by rwa [zero_add]⟩
    · intro list hlist o ho
      obtain rfl := List.eq_of_mem_replicate hlist
      simp [ListT.entries, emptyList] at ho
    · simp only [emptyTable]
      omega

/-- The live blocks of every kind but the values' buffers follow from the codes
of the calls. Nodes are never released; the other blocks of an entry go with a
removal and stay with a refusal. -/
theorem blocks_follow_codes {mem array : Bool} {each : Nat → Bool} {σ0 σ1 σ : Store} {n : Int}
    {t : Nat} {history : List (Event Store Call Int)} (pos : 1 ≤ n)
    (created : TableMemory.tableCreate mem array each σ0 n = .ok (some t, σ1))
    (run : Run (callStep t) σ1 history σ) :
    live .node σ = live .node σ0 + calls inserts history ∧
    live .entry σ + calls removes history =
      live .entry σ0 + calls inserts history + calls dropsEntry history ∧
    live .chars σ + calls removes history =
      live .chars σ0 + calls inserts history + calls refuses history ∧
    live .data σ + calls removes history =
      live .data σ0 + calls inserts history + calls refuses history ∧
    live .list σ = live .list σ0 + n.toNat ∧ live .array σ = live .array σ0 + 1 ∧
    live .table σ = live .table σ0 + 1 ∧
    TableMemory.tableSize σ (some t) =
      .ok (calls inserts history - calls removes history) := by
  obtain ⟨before, L, whole, rfl, start⟩ := created_standing pos created
  have sound := emptyTable_sound n
  obtain ⟨T, lost, standing, _, _, hlive, hsize⟩ := run_accounted start sound run
  have hstart : ∀ k, k ≠ .bytes → live k σ1 = live k σ0 + frame k (emptyTable n) := by
    intro k other
    rw [live_standing other start, live_eq whole]
    simp [nodes, liveNodes, emptyTable, emptyList]
    omega
  have counted := fun k other => (hlive k other).trans (by rw [hstart k other])
  have none_abandoned : calls (fun _ _ => false) history = 0 := by simp [calls]
  refine ⟨?_, ?_, ?_, ?_, ?_, ?_, ?_, ?_⟩
  · simpa [perEntry, frame, abandons, none_abandoned] using counted .node (by decide)
  · simpa [perEntry, frame, abandons] using counted .entry (by decide)
  · simpa [perEntry, frame, abandons] using counted .chars (by decide)
  · simpa [perEntry, frame, abandons] using counted .data (by decide)
  · simpa [perEntry, frame, abandons, none_abandoned, emptyTable] using counted .list (by decide)
  · simpa [perEntry, frame, abandons, none_abandoned] using counted .array (by decide)
  · simpa [perEntry, frame, abandons, none_abandoned] using counted .table (by decide)
  · have rep : Represents σ L T 0 := by
      refine ⟨standing.same, standing.exhausts.owns.left.congr ?_⟩
      rw [add_zero]
    have hempty : tableSize (emptyTable n) = 0 := by
      rw [tableSize_eq_liveNodes sound]
      simp [liveNodes, emptyTable, emptyList]
    rw [tableSize_image rep, hsize, hempty, zero_add]

/-- The second put finds memory for its entry and none for a node. -/
theorem blocks_follow_codes_sample : ∃ t σ1 history σ,
    TableMemory.tableCreate true true (fun _ => true) Heap.empty 1 = .ok (some t, σ1) ∧
      Run (callStep t) σ1 history σ ∧ history.reverse.map Event.result = [0, -1] ∧
      live .node σ = live .node Heap.empty + calls inserts history ∧
      live .entry σ + calls removes history =
        live .entry Heap.empty + calls inserts history + calls dropsEntry history ∧
      live .node σ = 1 ∧ live .entry σ = 2 := by
  obtain ⟨t, σ1, history, σ, created, played, codes, hnode, hentry⟩ : ∃ t σ1 history σ,
      TableMemory.tableCreate true true (fun _ => true) Heap.empty 1 = .ok (some t, σ1) ∧
      play (callStep t) [putA, .put true false keyB 1 (some (keyB.map Subtype.val))] [] σ1 =
        .ok (history, σ) ∧
      history.reverse.map Event.result = [0, -1] ∧ live .node σ = 1 ∧ live .entry σ = 2 :=
    ⟨_, _, _, _, rfl, rfl, rfl, rfl, rfl⟩
  have run := play_run _ .start played
  have counts := blocks_follow_codes (le_refl 1) created run
  exact ⟨t, σ1, history, σ, created, run, codes, counts.1, counts.2.1, hnode, hentry⟩

end Footprint
