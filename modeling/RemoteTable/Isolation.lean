import RemoteTable.Erasure
import RemoteTable.TableImage

/-!
# What the caller of a table can do to it

On the store, calls alternate with steps of the caller on blocks of its own.
`table_put` keeps the caller's key and value themselves, so the caller may
hold pointers into the table. The results of the calls are a function of what
was passed to them as long as the caller leaves alone what the table reaches.
-/

namespace Isolation

open CStrings Memory Entries ListOps ListMemory ListImage Ownership Tables TableMemory TableImage
open TableRuns Erasure Runs

/-- A call with its arguments and the outcomes of its allocations, or a step of the caller. -/
inductive Op where
  | put (mem node : Bool) (key value : Nat)
  | remove (key : Nat)
  | get (mem buffer : Bool) (key : Nat)
  | size
  | alloc (b : Block)
  | write (a : Nat) (b : Block)
  | free (a : Nat)

inductive Result where
  | code (c : Int)
  | data (d : Option Nat)
  | done

abbrev StoreEvent := Event Store Op Result

def storeStep (t : Nat) (σ : Store) : Op → Except Fault (Result × Store)
  | .put mem node key value => do
    let r ← TableMemory.tablePut mem node σ (some t) (some key) (some value)
    pure (.code r.1, r.2)
  | .remove key => do
    let r ← TableMemory.tableRemove σ (some t) (some key)
    pure (.code r.1, r.2)
  | .get mem buffer key => do
    let r ← TableMemory.tableGet mem buffer σ (some t) (some key)
    pure (.data r.1, r.2)
  | .size => do
    let size ← TableMemory.tableSize σ (some t)
    pure (.code size, σ)
  | .alloc b => pure (.done, σ.alloc b)
  | .write a b => do
    let σ ← σ.store a b
    pure (.done, σ)
  | .free a => do
    let σ ← σ.free a
    pure (.done, σ)

section Contents

def readKey (σ : Store) (key : Nat) : Except Fault (Ptr CString) := do
  let k ← loadChars σ (some key)
  pure ⟨key, k⟩

def readData (σ : Store) (value : Nat) : Except Fault (Ptr Data) := do
  let (datasize, data) ← loadData σ (some value)
  match data with
  | none => pure ⟨value, ⟨datasize, none⟩⟩
  | some data => do
    let bs ← loadBytes σ (some data)
    pure ⟨value, ⟨datasize, some ⟨data, bs⟩⟩⟩

def outcome (ok : Bool) : Option Nat := if ok then some 0 else none

/-- What is passed to a call: the contents of its blocks. The caller's own steps pass nothing. -/
def call (σ : Store) : Op → Option (Except Fault TableOp)
  | .put mem node key value => some do
    let k ← readKey σ key
    let d ← readData σ value
    pure (.put (outcome mem) (outcome node) (eraseKey k) (eraseData d))
  | .remove key => some do
    let k ← readKey σ key
    pure (.remove k.obj)
  | .get mem buffer key => some do
    let k ← readKey σ key
    pure (.get (outcome mem) (outcome buffer) k.obj)
  | .size => some (pure .size)
  | _ => none

/-- What the caller sees of a result: a code, or the contents of the value returned. -/
def seen (σ : Store) : Result → Option (Except Fault TableResult)
  | .code c => some (pure (.code c))
  | .data none => some (pure (.data none))
  | .data (some d) => some do
    let d ← readData σ d
    pure (.data (some (eraseData d)))
  | .done => none

def calls (history : List StoreEvent) : List (Except Fault TableOp) :=
  history.filterMap fun e => call e.before e.op

def results (history : List StoreEvent) : List (Except Fault TableResult) :=
  history.filterMap fun e => seen e.after e.result

variable {σ : Store} {m : Image}

theorem loadChars_cell {a : Nat} {k : CString} (h : loadChars σ (some a) = .ok k) :
    σ.cell a = some (.chars k) := by
  cases live : σ.cell a with
  | none => simp [loadChars, Heap.load_dead live] at h
  | some b =>
    cases b <;> simp [loadChars, Heap.load_live live] at h
    rw [h]

theorem loadBytes_cell {a : Nat} {bs : List Byte} (h : loadBytes σ (some a) = .ok bs) :
    σ.cell a = some (.bytes bs) := by
  cases live : σ.cell a with
  | none => simp [loadBytes, Heap.load_dead live] at h
  | some b =>
    cases b <;> simp [loadBytes, Heap.load_live live] at h
    rw [h]

theorem loadData_cell {a : Nat} {r : Int × Option Nat} (h : loadData σ (some a) = .ok r) :
    σ.cell a = some (.data r.1 r.2) := by
  cases live : σ.cell a with
  | none => simp [loadData, Heap.load_dead live] at h
  | some b =>
    cases b <;> simp [loadData, Heap.load_live live] at h
    rw [← h]

theorem readKey_owns {key : Nat} {k : Ptr CString} (h : readKey σ key = .ok k) :
    k.addr = key ∧ Owns σ (keyImage k) := by
  obtain ⟨s, hload, hk⟩ := (bind_eq_ok_iff _ _ _).mp h
  cases hk
  exact ⟨rfl, .single (loadChars_cell hload)⟩

theorem readData_owns {value : Nat} {d : Ptr Data} (h : readData σ value = .ok d) :
    d.addr = value ∧ Owns σ (dataImage d) := by
  obtain ⟨⟨datasize, data⟩, hload, hd⟩ := (bind_eq_ok_iff _ _ _).mp h
  have live := loadData_cell hload
  cases data with
  | none =>
    cases hd
    refine ⟨rfl, ?_⟩
    simpa [dataImage, optionImage] using Owns.single live
  | some buffer =>
    obtain ⟨bs, hbytes, hd⟩ := (bind_eq_ok_iff _ _ _).mp hd
    cases hd
    have live' := loadBytes_cell hbytes
    refine ⟨rfl, (Owns.single live).add (.single live') ?_⟩
    intro p hp
    rw [Multiset.mem_singleton.mp hp, Multiset.map_singleton, Multiset.mem_singleton]
    rintro rfl
    rw [live] at live'
    cases live'

theorem readData_image (owns : Owns σ m) {d : Ptr Data} (h : dataImage d ≤ m) :
    readData σ d.addr = .ok d := by
  obtain ⟨a, datasize, data⟩ := d
  simp only [readData, loadData_image owns h, ok_bind]
  cases data with
  | none => rfl
  | some b =>
    have hb : bytesImage b ≤ m := (Multiset.le_add_left _ _).trans h
    simp only [Option.map_some, loadBytes_image owns hb, ok_bind]
    rfl

/-- A key and a value are different blocks. -/
theorem arguments_owned {key value : Nat} {k : Ptr CString} {d : Ptr Data}
    (hkey : readKey σ key = .ok k) (hdata : readData σ value = .ok d) :
    Owns σ (keyImage k + dataImage d) := by
  have ownk := (readKey_owns hkey).2
  have ownd := (readData_owns hdata).2
  refine ownk.add ownd ?_
  have hk : σ.cell k.addr = some (.chars k.obj) := ownk.cell (by simp [keyImage])
  intro p hp
  rw [keyImage, Multiset.map_singleton, Multiset.mem_singleton]
  intro same
  have hp' := ownd.live p hp
  rw [same, hk, Option.some.injEq] at hp'
  rcases Multiset.mem_add.mp hp with hp | hp
  · rw [Multiset.mem_singleton.mp hp] at hp'
    cases hp'
  · cases hd : d.obj.data with
    | none => simp [hd, optionImage] at hp
    | some b =>
      simp only [hd, optionImage, bytesImage, Multiset.mem_singleton] at hp
      rw [hp] at hp'
      cases hp'

end Contents

section Reach

def pointers : Block → List Nat
  | .chars _ | .bytes _ => []
  | .data _ data => data.toList
  | .entry key value => key.toList ++ value.toList
  | .node entry next => entry.toList ++ next.toList
  | .list _ head => head.toList
  | .array lists => lists.filterMap id
  | .table lists _ => lists.toList

/-- The caller leaves alone what the table reaches, and passes to `table_put`
blocks that the table does not reach. -/
def Respects (t : Nat) (σ : Store) : Op → Prop
  | .put _ _ key value => ∃ k d, readKey σ key = .ok k ∧ readData σ value = .ok d ∧
      ∀ p ∈ keyImage k + dataImage d, ¬ Reaches pointers σ t p.1
  | .remove key | .get _ _ key => ∃ k, readKey σ key = .ok k
  | .size | .alloc _ => True
  | .write a _ | .free a => ¬ Reaches pointers σ t a

variable {σ : Store} {t : Nat} {m m' : Image}

def Reached (σ : Store) (t : Nat) (m : Image) : Prop := ∀ p ∈ m, Reaches pointers σ t p.1

theorem reached_add_iff : Reached σ t (m + m') ↔ Reached σ t m ∧ Reached σ t m' := by
  simp only [Reached, Multiset.mem_add, or_imp, forall_and]

theorem reached_single_iff {a : Nat} {b : Block} :
    Reached σ t {(a, b)} ↔ Reaches pointers σ t a := by
  simp [Reached]

theorem reached_option {α : Type} {image : α → Image} {o : Option α}
    (h : ∀ a, o = some a → Reached σ t (image a)) : Reached σ t (optionImage image o) := by
  cases o with
  | none => simp [optionImage, Reached]
  | some a => exact h a rfl

theorem dataImage_reached {d : Ptr Data} (owns : Owns σ (dataImage d))
    (h : Reaches pointers σ t d.addr) : Reached σ t (dataImage d) := by
  have live := owns.cell (a := d.addr) (b := .data d.obj.datasize (d.obj.data.map Ptr.addr))
    (by simp [dataImage])
  refine reached_add_iff.mpr ⟨reached_single_iff.mpr h, reached_option ?_⟩
  intro b hb
  exact reached_single_iff.mpr (h.follow live (by simp [pointers, hb]))

theorem entryImage_reached {e : Ptr Entry} (owns : Owns σ (entryImage e))
    (h : Reaches pointers σ t e.addr) : Reached σ t (entryImage e) := by
  have live := owns.cell (a := e.addr)
    (b := .entry (e.obj.key.map Ptr.addr) (e.obj.value.map Ptr.addr)) (by simp [entryImage])
  refine reached_add_iff.mpr ⟨reached_single_iff.mpr h, reached_add_iff.mpr ⟨?_, ?_⟩⟩
  · apply reached_option
    intro k hk
    exact reached_single_iff.mpr (h.follow live (by simp [pointers, hk]))
  · apply reached_option
    intro d hd
    have ownd : Owns σ (dataImage d) := by
      have hright := owns.right.right
      rwa [hd] at hright
    exact dataImage_reached ownd (h.follow live (by simp [pointers, hd]))

theorem chainImage_reached {nodes : List Node} (owns : Owns σ (chainImage none nodes))
    (h : ∀ a, headAddr none nodes = some a → Reaches pointers σ t a) :
    Reached σ t (chainImage none nodes) := by
  induction nodes with
  | nil => simp [chainImage, Reached]
  | cons n rest ih =>
    have hn := h n.addr rfl
    have live := owns.cell (a := n.addr)
      (b := .node (n.entry.map Ptr.addr) (headAddr none rest)) (by simp [chainImage])
    refine reached_add_iff.mpr ⟨reached_single_iff.mpr hn, reached_add_iff.mpr ⟨?_, ?_⟩⟩
    · apply reached_option
      intro e he
      have owne : Owns σ (entryImage e) := by
        have hentry := owns.right.left
        rwa [he] at hentry
      exact entryImage_reached owne (hn.follow live (by simp [pointers, he]))
    · apply ih owns.right.right
      intro a ha
      exact hn.follow live (by simp [pointers, ha])

theorem bucketsImage_reached {ls : List Nat} {lists : List ListT}
    (owns : Owns σ (bucketsImage ls lists)) (h : ∀ l ∈ ls, Reaches pointers σ t l) :
    Reached σ t (bucketsImage ls lists) := by
  induction ls generalizing lists with
  | nil => simp [bucketsImage, Reached]
  | cons l ls ih =>
    cases lists with
    | nil => simp [bucketsImage, Reached]
    | cons list lists =>
      rw [List.forall_mem_cons] at h
      have live := owns.cell (a := l) (b := .list list.size (headAddr none list.head))
        (by simp [bucketsImage, listImage])
      refine reached_add_iff.mpr ⟨reached_add_iff.mpr ⟨reached_single_iff.mpr h.1, ?_⟩,
        ih owns.right h.2⟩
      apply chainImage_reached owns.left.right
      intro a ha
      exact h.1.follow live (by simp [pointers, ha])

/-- The table reaches every block of its image. -/
theorem tableImage_reached {L : Layout} {T : Table} {F : Image} (rep : Represents σ L T F) :
    Reached σ L.table (tableImage L T) := by
  have owns := rep.owns.left
  have start : Reaches pointers σ L.table L.table := .root
  have array : Reaches pointers σ L.table L.array :=
    start.follow (owns.cell (b := .table (some L.array) T.size) (by simp [tableImage]))
      (by simp [pointers])
  have live := owns.cell (a := L.array) (b := .array (L.lists.map some)) (by simp [tableImage])
  refine reached_add_iff.mpr ⟨reached_single_iff.mpr start,
    reached_add_iff.mpr ⟨reached_single_iff.mpr array, ?_⟩⟩
  apply bucketsImage_reached owns.right.right
  intro l hl
  exact array.follow live (by simpa [pointers] using hl)

theorem unreached_not_mem {L : Layout} {T : Table} {F : Image} (rep : Represents σ L T F) {a : Nat}
    (h : ¬ Reaches pointers σ L.table a) : a ∉ (tableImage L T).map Prod.fst := by
  intro ha
  obtain ⟨p, hp, rfl⟩ := Multiset.mem_map.mp ha
  exact h (tableImage_reached rep p hp)

theorem unreached_of_closed {a : Nat} (reach : List Nat) (start : t ∈ reach)
    (closed : ∀ a ∈ reach, ∀ b ∈ σ.cell a, ∀ p ∈ pointers b, p ∈ reach) (out : a ∉ reach) :
    ¬ Reaches pointers σ t a := by
  intro reached
  exact out (reached.within start fun a b ha hb => closed a ha b hb)

end Reach

section Refinement

variable {σ σ' : Store} {L : Layout} {T : Table}

/-- On the store the call faults with, or returns and leaves, what it does on values. -/
def Refines (L : Layout) (T : Table) (σ : Store) (op : Op) (vop : TableOp) : Prop :=
  (∀ fault, tableStep T vop = .error fault → storeStep L.table σ op = .error fault) ∧
  ∀ a T', tableStep T vop = .ok (a, T') → ∃ r σ', storeStep L.table σ op = .ok (r, σ') ∧
    seen σ' r = some (.ok (eraseResult a)) ∧ Represents σ' L T' 0

theorem put_refines (mem node : Bool) {key value : Nat} {k : Ptr CString} {d : Ptr Data}
    (rep : Represents σ L T 0) (hkey : readKey σ key = .ok k) (hdata : readData σ value = .ok d)
    (unreached : ∀ p ∈ keyImage k + dataImage d, ¬ Reaches pointers σ L.table p.1) :
    Refines L T σ (.put mem node key value)
      (.put (if mem then some σ.next else none) (if node then some (σ.next + 1) else none) k d) := by
  have owns : Owns σ (tableImage L T + (keyImage k + dataImage d)) := by
    apply rep.owns.left.add (arguments_owned hkey hdata)
    intro p hp
    exact unreached_not_mem rep (unreached p hp)
  obtain ⟨hfault, hok⟩ := tablePut_image mem node ⟨rep.length_eq, owns⟩
  obtain rfl := (readKey_owns hkey).1
  obtain rfl := (readData_owns hdata).1
  constructor
  · intro fault h
    have hvalue := (bind_pure_eq_error_iff _ _ _).mp h
    exact (bind_pure_eq_error_iff _ _ _).mpr (hfault fault hvalue)
  · intro a T' h
    obtain ⟨⟨c, T''⟩, hvalue, hr⟩ := (bind_eq_ok_iff _ _ _).mp h
    cases hr
    obtain ⟨σ', hput, rep'⟩ := hok c T'' hvalue
    refine ⟨.code c, σ', ?_, rfl, rep'⟩
    rw [storeStep, hput, ok_bind]
    rfl

theorem remove_refines {key : Nat} {k : Ptr CString} (rep : Represents σ L T 0)
    (hkey : readKey σ key = .ok k) : Refines L T σ (.remove key) (.remove k.obj) := by
  obtain ⟨s, hload, hk⟩ := (bind_eq_ok_iff _ _ _).mp hkey
  cases hk
  obtain ⟨hfault, hok⟩ := tableRemove_image rep hload
  constructor
  · intro fault h
    have hvalue := (bind_pure_eq_error_iff _ _ _).mp h
    exact (bind_pure_eq_error_iff _ _ _).mpr (hfault fault hvalue)
  · intro a T' h
    obtain ⟨⟨c, T''⟩, hvalue, hr⟩ := (bind_eq_ok_iff _ _ _).mp h
    cases hr
    obtain ⟨σ', hremove, rep'⟩ := hok c T'' hvalue
    refine ⟨.code c, σ', ?_, rfl, rep'⟩
    rw [storeStep, hremove, ok_bind]
    rfl

theorem get_refines (mem buffer : Bool) {key : Nat} {k : Ptr CString} (rep : Represents σ L T 0)
    (hkey : readKey σ key = .ok k) :
    Refines L T σ (.get mem buffer key)
      (.get (if mem then some σ.next else none) (if buffer then some (σ.next + 1) else none) k.obj) := by
  obtain ⟨s, hload, hk⟩ := (bind_eq_ok_iff _ _ _).mp hkey
  cases hk
  obtain ⟨hfault, hok⟩ := tableGet_image mem buffer rep hload
  constructor
  · intro fault h
    have hvalue := (bind_pure_eq_error_iff _ _ _).mp h
    exact (bind_pure_eq_error_iff _ _ _).mpr (hfault fault hvalue)
  · intro a T' h
    obtain ⟨d, hvalue, hr⟩ := (bind_eq_ok_iff _ _ _).mp h
    cases hr
    obtain ⟨σ', hget, rep'⟩ := hok d hvalue
    refine ⟨.data (d.map Ptr.addr), σ', ?_, ?_, rep'.length_eq, rep'.owns.mono ?_⟩
    · rw [storeStep, hget, ok_bind]
      rfl
    · cases d with
      | none => rfl
      | some d =>
        have hread := readData_image rep'.owns (d := d) (Multiset.le_add_left _ _)
        simp only [seen, Option.map_some, hread, ok_bind]
        rfl
    · rw [add_zero]
      exact Multiset.le_add_right _ _

theorem size_refines (rep : Represents σ L T 0) : Refines L T σ .size .size := by
  constructor
  · intro fault h
    cases h
  · intro a T' h
    cases h
    refine ⟨.code (Tables.tableSize T), σ, ?_, rfl, rep⟩
    rw [storeStep, tableSize_image rep, ok_bind]
    rfl

theorem eraseAddr_given (ok : Bool) (a : Nat) :
    eraseAddr (if ok then some a else none) = outcome ok := by
  cases ok <;> rfl

/-- A call that respects the table is a call on values. -/
theorem call_refines {op : Op} {c : Except Fault TableOp} (rep : Represents σ L T 0)
    (respects : Respects L.table σ op) (passed : call σ op = some c) :
    ∃ vop, c = .ok (eraseOp vop) ∧ Refines L T σ op vop := by
  cases op with
  | put mem node key value =>
    obtain ⟨k, d, hkey, hdata, unreached⟩ := respects
    refine ⟨_, ?_, put_refines mem node rep hkey hdata unreached⟩
    simp only [call, hkey, hdata, ok_bind, Option.some.injEq] at passed
    rw [← passed, eraseOp, eraseAddr_given, eraseAddr_given]
    rfl
  | remove key =>
    obtain ⟨k, hkey⟩ := respects
    refine ⟨_, ?_, remove_refines rep hkey⟩
    simp only [call, hkey, ok_bind, Option.some.injEq] at passed
    rw [← passed]
    rfl
  | get mem buffer key =>
    obtain ⟨k, hkey⟩ := respects
    refine ⟨_, ?_, get_refines mem buffer rep hkey⟩
    simp only [call, hkey, ok_bind, Option.some.injEq] at passed
    rw [← passed, eraseOp, eraseAddr_given, eraseAddr_given]
    rfl
  | size =>
    cases passed
    exact ⟨.size, rfl, size_refines rep⟩
  | alloc b => cases passed
  | write a b => cases passed
  | free a => cases passed

/-- The caller's own steps keep the table. -/
theorem caller_keeps {op : Op} {r : Result} (rep : Represents σ L T 0)
    (respects : Respects L.table σ op) (own : call σ op = none)
    (step : storeStep L.table σ op = .ok (r, σ')) :
    seen σ' r = none ∧ Represents σ' L T 0 := by
  cases op with
  | put => cases own
  | remove => cases own
  | get => cases own
  | size => cases own
  | alloc b =>
    cases step
    exact ⟨rfl, rep.length_eq, (rep.owns.alloc b).right⟩
  | write a b =>
    obtain ⟨σ1, hstore, hr⟩ := (bind_eq_ok_iff _ _ _).mp step
    cases hr
    obtain ⟨old, rfl⟩ := Heap.store_eq_ok hstore
    refine ⟨rfl, rep.length_eq, rep.owns.set ?_ old (some b)⟩
    simpa using unreached_not_mem rep respects
  | free a =>
    obtain ⟨σ1, hfree, hr⟩ := (bind_eq_ok_iff _ _ _).mp step
    cases hr
    obtain ⟨old, rfl⟩ := Heap.free_eq_ok hfree
    refine ⟨rfl, rep.length_eq, rep.owns.set ?_ old none⟩
    simpa using unreached_not_mem rep respects

end Refinement

section Runs

/-- What a call returns in a store: a fault, or what the caller sees. -/
def answer (t : Nat) (σ : Store) (op : Op) : Except Fault (Option (Except Fault TableResult)) := do
  let r ← storeStep t σ op
  pure (seen r.2 r.1)

/-- The answers of the code on values to calls, latest first. -/
def answers (start : Table) : List (Except Fault TableOp) →
    Except Fault (List (Except Fault TableResult) × Table)
  | [] => pure ([], start)
  | c :: earlier => do
    let (rs, T) ← answers start earlier
    let op ← c
    let (r, T) ← tableStep T op
    pure (pure r :: rs, T)

variable {σ σ' : Store} {L : Layout} {T : Table}

/-- The answer to a call depends on the contents of the table and what was passed. -/
theorem answer_eq {op : Op} {c : Except Fault TableOp} (rep : Represents σ L T 0)
    (respects : Respects L.table σ op) (passed : call σ op = some c) :
    answer L.table σ op = (do let r ← c >>= tableStep (eraseTable T); pure (some (pure r.1))) := by
  obtain ⟨vop, rfl, hfault, hok⟩ := call_refines rep respects passed
  rw [ok_bind, tableStep_erase]
  cases hvalue : tableStep T vop with
  | error fault =>
    rw [answer, hfault fault hvalue]
    rfl
  | ok out =>
    obtain ⟨r, σ', hstep, hseen, _⟩ := hok out.1 out.2 hvalue
    rw [answer, hstep, ok_bind, hseen]
    rfl

theorem step_answers {op : Op} {r : Result} (rep : Represents σ L T 0)
    (respects : Respects L.table σ op) (step : storeStep L.table σ op = .ok (r, σ')) :
    ∃ T', Represents σ' L T' 0 ∧
      ((call σ op = none ∧ seen σ' r = none ∧ T' = T) ∨
        ∃ c a, call σ op = some (.ok c) ∧ seen σ' r = some (.ok a) ∧
          tableStep (eraseTable T) c = .ok (a, eraseTable T')) := by
  cases passed : call σ op with
  | none =>
    obtain ⟨hseen, rep'⟩ := caller_keeps rep respects passed step
    exact ⟨T, rep', Or.inl ⟨rfl, hseen, rfl⟩⟩
  | some c =>
    obtain ⟨vop, rfl, hfault, hok⟩ := call_refines rep respects passed
    cases hvalue : tableStep T vop with
    | error fault =>
      rw [hfault fault hvalue] at step
      cases step
    | ok out =>
      obtain ⟨r', σ'', hstep, hseen, rep'⟩ := hok out.1 out.2 hvalue
      rw [hstep, Except.ok.injEq, Prod.mk.injEq] at step
      obtain ⟨rfl, rfl⟩ := step
      refine ⟨out.2, rep', Or.inr ⟨eraseOp vop, eraseResult out.1, rfl, hseen, ?_⟩⟩
      rw [tableStep_erase, hvalue]
      rfl

theorem emptyTable_erase (n : Int) : eraseTable (emptyTable n) = emptyTable n := by
  simp [eraseTable, emptyTable, eraseList, emptyList]

/-- A run whose steps respect the table answers as the code on values does. -/
theorem run_answers {n : Int} {σ0 : Store} {history : List StoreEvent}
    (start : Represents σ0 L (emptyTable n) 0) (run : Run (storeStep L.table) σ0 history σ)
    (respects : ∀ e ∈ history, Respects L.table e.before e.op) :
    ∃ T, Represents σ L T 0 ∧
      answers (emptyTable n) (calls history) = .ok (results history, eraseTable T) := by
  refine (run.simulation (Respects L.table) (fun history σ => ∃ T, Represents σ L T 0 ∧
    answers (emptyTable n) (calls history) = .ok (results history, eraseTable T))
    (fun _ _ => True) ⟨emptyTable n, start, ?_⟩ ?_ respects).2
  · rw [emptyTable_erase]
    rfl
  · rintro history σ op r σ' ⟨T, rep, sofar⟩ hop step
    refine ⟨trivial, ?_⟩
    obtain ⟨T', rep', ⟨hcall, hseen, rfl⟩ | ⟨c, a, hcall, hseen, hstep⟩⟩ :=
      step_answers rep hop step
    · refine ⟨T', rep', ?_⟩
      simp only [calls, results, List.filterMap_cons, hcall, hseen]
      exact sofar
    · refine ⟨T', rep', ?_⟩
      simp only [calls, results] at sofar
      simp only [calls, results, List.filterMap_cons, hcall, hseen, answers, sofar, ok_bind, hstep,
        pure_eq_ok]

/-- Two callers that issue the same calls and leave alone what their tables
reach see the same results, and the next call they both issue answers, or
faults, alike. -/
theorem results_isolated {mem mem' array array' : Bool} {each each' : Nat → Bool} {n : Int}
    {σ0 σ0' σ1 σ1' σ σ' : Store} {t t' : Nat} {history history' : List StoreEvent}
    (created : TableMemory.tableCreate mem array each σ0 n = .ok (some t, σ1))
    (created' : TableMemory.tableCreate mem' array' each' σ0' n = .ok (some t', σ1'))
    (run : Run (storeStep t) σ1 history σ) (run' : Run (storeStep t') σ1' history' σ')
    (respects : ∀ e ∈ history, Respects t e.before e.op)
    (respects' : ∀ e ∈ history', Respects t' e.before e.op)
    (same : calls history = calls history') :
    results history = results history' ∧
      ∀ op op' c, Respects t σ op → Respects t' σ' op' → call σ op = some c →
        call σ' op' = some c → answer t σ op = answer t' σ' op' := by
  obtain ⟨L, rfl, start⟩ := tableCreate_image created
  obtain ⟨L', rfl, start'⟩ := tableCreate_image created'
  obtain ⟨T, rep, hanswers⟩ := run_answers start run respects
  obtain ⟨T', rep', hanswers'⟩ := run_answers start' run' respects'
  rw [same, hanswers', Except.ok.injEq, Prod.mk.injEq] at hanswers
  obtain ⟨hresults, htable⟩ := hanswers
  refine ⟨hresults.symm, ?_⟩
  intro op op' c hop hop' passed passed'
  rw [answer_eq rep hop passed, answer_eq rep' hop' passed', htable]

/-- A key with a value, the key once more, and a put of them. -/
def sampleOps : List Op :=
  [.alloc (.chars keyA), .alloc (.bytes [⟨8, by decide⟩]), .alloc (.data 1 (some 4)),
    .alloc (.chars keyA), .put true true 3 5]

def keyKept : List Op := sampleOps ++ [.get true true 6]

/-- The copy that `table_get` returned is overwritten. -/
def copyWritten : List Op := keyKept ++ [.write 9 (.data 0 none)]

/-- The key passed to `table_put` is overwritten. -/
def keyWritten : List Op := sampleOps ++ [.write 3 (.chars keyB), .get true true 6]

theorem results_isolated_sample : ∃ t σ0 history σ history' σ',
    TableMemory.tableCreate true true (fun _ => true) Heap.empty 1 = .ok (some t, σ0) ∧
      Run (storeStep t) σ0 history σ ∧ Run (storeStep t) σ0 history' σ' ∧
      history.reverse.map Event.op = keyKept ∧ history'.reverse.map Event.op = copyWritten ∧
      results history = results history' ∧ answer t σ .size = answer t σ' .size := by
  obtain ⟨t, σ0, history, σ, history', σ', created, played, played', hops, hops', same, respects,
      respects'⟩ : ∃ t σ0 history σ history' σ',
      TableMemory.tableCreate true true (fun _ => true) Heap.empty 1 = .ok (some t, σ0) ∧
      play (storeStep t) keyKept [] σ0 = .ok (history, σ) ∧
      play (storeStep t) copyWritten [] σ0 = .ok (history', σ') ∧
      history.reverse.map Event.op = keyKept ∧ history'.reverse.map Event.op = copyWritten ∧
      calls history = calls history' ∧ (∀ e ∈ history, Respects t e.before e.op) ∧
      ∀ e ∈ history', Respects t e.before e.op := by
    refine ⟨_, _, _, _, _, _, rfl, rfl, rfl, rfl, rfl, rfl, ?_, ?_⟩
    · simp only [List.forall_mem_cons]
      refine ⟨⟨_, rfl⟩, ⟨_, _, rfl, rfl, ?_⟩, trivial, trivial, trivial, trivial, by simp⟩
      intro p hp
      apply unreached_of_closed [0, 1, 2] (by decide) (by decide)
      revert p
      decide
    · simp only [List.forall_mem_cons]
      -- the table reaches its list, node, entry, key and value, but not the copy
      refine ⟨unreached_of_closed [0, 1, 2, 8, 7, 3, 5, 4] (by decide) (by decide) (by decide),
        ⟨_, rfl⟩, ⟨_, _, rfl, rfl, ?_⟩, trivial, trivial, trivial, trivial, by simp⟩
      intro p hp
      apply unreached_of_closed [0, 1, 2] (by decide) (by decide)
      revert p
      decide
  have run := play_run _ .start played
  have run' := play_run _ .start played'
  have h := results_isolated created created run run' respects respects' same
  exact ⟨t, σ0, history, σ, history', σ', created, run, run', hops, hops', h.1,
    h.2 .size .size _ trivial trivial rfl rfl⟩

/-- The table holds the caller's key: overwritten with "b" it is not found as "a". -/
theorem stored_key_shared : ∃ t σ0 history σ history' σ',
    TableMemory.tableCreate true true (fun _ => true) Heap.empty 1 = .ok (some t, σ0) ∧
      Run (storeStep t) σ0 history σ ∧ Run (storeStep t) σ0 history' σ' ∧
      history.reverse.map Event.op = keyKept ∧ history'.reverse.map Event.op = keyWritten ∧
      calls history = calls history' ∧ results history ≠ results history' := by
  obtain ⟨t, σ0, history, σ, history', σ', created, played, played', hops, hops', same, found,
      missed⟩ : ∃ t σ0 history σ history' σ',
      TableMemory.tableCreate true true (fun _ => true) Heap.empty 1 = .ok (some t, σ0) ∧
      play (storeStep t) keyKept [] σ0 = .ok (history, σ) ∧
      play (storeStep t) keyWritten [] σ0 = .ok (history', σ') ∧
      history.reverse.map Event.op = keyKept ∧ history'.reverse.map Event.op = keyWritten ∧
      calls history = calls history' ∧
      results history =
        [.ok (.data (some ⟨0, ⟨1, some ⟨0, [⟨8, by decide⟩]⟩⟩⟩)), .ok (.code 0)] ∧
      results history' = [.ok (.data none), .ok (.code 0)] :=
    ⟨_, _, _, _, _, _, rfl, rfl, rfl, rfl, rfl, rfl, rfl, rfl⟩
  refine ⟨t, σ0, history, σ, history', σ', created, play_run _ .start played,
    play_run _ .start played', hops, hops', same, ?_⟩
  rw [found, missed]
  simp

end Runs

end Isolation
