import RemoteTable.Erasure

/-!
# The skeleton of `table_skel.c`

`invoke` runs the table function a request asks for and answers in the request
itself: either by what it returns or by the member of the union that it sets.
`table_get_table` is not part of the program and is a parameter; results of
`malloc` are parameters as everywhere.
-/

namespace Skeleton

open CStrings Memory Entries ListOps ListRuns Tables Erasure

inductive Opcode where
  | OC_PUT
  | OC_GET
  | OC_DEL
  | OC_SIZE
  | OC_GETKEYS
  | OC_GETTABLE
  | other (code : Int)
  deriving DecidableEq

/-- The union `content`, by the member last written. -/
inductive Content where
  | entry (e : Option (Ptr Entry))
  | key (k : Option CString)
  | data (d : Option (Ptr Data))
  | result (c : Int)
  | keys (ks : Option (List CString))
  | table (es : Option (List (Ptr Entry)))
  | unset
  deriving DecidableEq

structure MessageT where
  opcode : Opcode
  content : Content
  deriving DecidableEq

def Content.entryMember : Content → Except Fault (Ptr Entry)
  | .entry (some e) => .ok e
  | .entry none => .error .nullPointer
  | _ => .error .badBlock

def Content.keyMember : Content → Except Fault (Option CString)
  | .key k => .ok k
  | _ => .error .badBlock

/-- What `malloc` returns in a call: for the entry, its node and a copy's bytes. -/
structure Alloc where
  mem : Option Nat
  node : Option Nat
  buffer : Option Nat

def tableGetKeys (_table : Table) : Option (List CString) := none

structure Invoked where
  code : Int
  msg : Option MessageT
  table : Option Table

/-- What a table function returned. -/
inductive Returned where
  | code (c : Int)
  | data (d : Option (Ptr Data))
  | count (c : Int)
  | keys (ks : Option (List CString))
  | entries (es : Option (List (Ptr Entry)))
  deriving DecidableEq

section Unchanged

variable {t : Table}

theorem setChain_self {key : CString} (range : InRange t key) :
    t.setChain key (t.chain key) = t := by
  have hlt := range.lt_length
  obtain ⟨size, lists, hlen⟩ := t
  simp only [Table.setChain, Table.setBucket, Table.chain, Table.mk.injEq, true_and]
  simp only at hlt
  simp [List.getD, hlt]

theorem tablePut_failed {mem node : Option Nat} {key : Option (Ptr CString)}
    {value : Option (Ptr Data)} {r : Int × Table}
    (h : tablePut mem node t key value = .ok r) (failed : r.1 < 0) : r.2 = t := by
  match key, value with
  | none, _ =>
    cases h
    rfl
  | some _, none =>
    cases h
    rfl
  | some key, some value =>
    by_cases range : InRange t key.obj
    · rw [tablePut_eq range] at h
      cases h
      cases create : entryCreate mem (some key) (some value) with
      | none => exact setChain_self range
      | some e =>
        rw [create] at failed
        rcases listAdd_entries (created_key create) node (t.chain key.obj) with
          ⟨list, hadd, _⟩ | ⟨list, hadd, _⟩ | ⟨hadd, _⟩
        · simp [hadd] at failed
        · simp [hadd] at failed
        · simp only [hadd]
          exact setChain_self range
    · rw [tablePut_out_of_range range] at h
      cases h

theorem tableRemove_failed {key : Option CString} {r : Int × Table}
    (h : tableRemove t key = .ok r) (failed : r.1 < 0) : r.2 = t := by
  cases key with
  | none =>
    cases h
    rfl
  | some key =>
    by_cases range : InRange t key
    · rw [tableRemove_eq range] at h
      obtain ⟨⟨code, list⟩, hremove, h⟩ := (bind_eq_ok_iff _ _ _).mp h
      cases h
      have hcode : code < 0 := failed
      rcases listRemove_entries hremove with ⟨rfl, _⟩ | ⟨rfl, _⟩ <;> omega
    · rw [tableRemove_out_of_range range] at h
      cases h

end Unchanged

section Invoke

variable (tableGetTable : Table → Option (List (Ptr Entry)))

def invoke (alloc : Alloc) (msg : Option MessageT) (table : Option Table) :
    Except Fault Invoked :=
  match msg, table with
  | some msg, some table => match msg.opcode with
    | .OC_PUT => do
      let e ← msg.content.entryMember
      let r ← tablePut alloc.mem alloc.node table e.obj.key e.obj.value
      pure ⟨r.1, some msg, some r.2⟩
    | .OC_GET => do
      let key ← msg.content.keyMember
      let d ← tableGet alloc.mem alloc.buffer table key
      pure ⟨0, some { msg with content := .data d }, some table⟩
    | .OC_DEL => do
      let key ← msg.content.keyMember
      let r ← tableRemove table key
      pure ⟨r.1, some msg, some r.2⟩
    | .OC_SIZE => .ok ⟨0, some { msg with content := .result (tableSize table) }, some table⟩
    | .OC_GETKEYS => .ok ⟨0, some { msg with content := .keys (tableGetKeys table) }, some table⟩
    | .OC_GETTABLE =>
      .ok ⟨0, some { msg with content := .table (tableGetTable table) }, some table⟩
    | .other _ => .ok ⟨-1, some msg, some table⟩
  | _, _ => .ok ⟨-1, msg, table⟩

/-- The table function a request asks for. -/
def called (alloc : Alloc) (msg : MessageT) (table : Table) :
    Option (Except Fault (Returned × Table)) :=
  match msg.opcode with
  | .OC_PUT => some do
    let e ← msg.content.entryMember
    let r ← tablePut alloc.mem alloc.node table e.obj.key e.obj.value
    pure (.code r.1, r.2)
  | .OC_GET => some do
    let key ← msg.content.keyMember
    let d ← tableGet alloc.mem alloc.buffer table key
    pure (.data d, table)
  | .OC_DEL => some do
    let key ← msg.content.keyMember
    let r ← tableRemove table key
    pure (.code r.1, r.2)
  | .OC_SIZE => some (.ok (.count (tableSize table), table))
  | .OC_GETKEYS => some (.ok (.keys (tableGetKeys table), table))
  | .OC_GETTABLE => some (.ok (.entries (tableGetTable table), table))
  | .other _ => none

/-- Where `invoke` puts what the table function returned. -/
def place (msg : MessageT) : Returned → Int × MessageT
  | .code c => (c, msg)
  | .data d => (0, { msg with content := .data d })
  | .count c => (0, { msg with content := .result c })
  | .keys ks => (0, { msg with content := .keys ks })
  | .entries es => (0, { msg with content := .table es })

/-- `invoke` calls one table function and places its result. -/
theorem invoke_called (alloc : Alloc) (msg : MessageT) (table : Table)
    {call : Except Fault (Returned × Table)}
    (hcall : called tableGetTable alloc msg table = some call) :
    invoke tableGetTable alloc (some msg) (some table) = (do
      let r ← call
      pure ⟨(place msg r.1).1, some (place msg r.1).2, some r.2⟩) := by
  obtain ⟨opcode, content⟩ := msg
  cases opcode with
  | OC_PUT =>
    cases hcall
    simp only [invoke]
    cases content.entryMember with
    | error e => rfl
    | ok e =>
      simp only [ok_bind]
      cases tablePut alloc.mem alloc.node table e.obj.key e.obj.value <;> rfl
  | OC_GET =>
    cases hcall
    simp only [invoke]
    cases content.keyMember with
    | error e => rfl
    | ok key =>
      simp only [ok_bind]
      cases tableGet alloc.mem alloc.buffer table key <;> rfl
  | OC_DEL =>
    cases hcall
    simp only [invoke]
    cases content.keyMember with
    | error e => rfl
    | ok key =>
      simp only [ok_bind]
      cases tableRemove table key <;> rfl
  | OC_SIZE =>
    cases hcall
    rfl
  | OC_GETKEYS =>
    cases hcall
    rfl
  | OC_GETTABLE =>
    cases hcall
    rfl
  | other c => cases hcall

variable {tableGetTable : Table → Option (List (Ptr Entry))} {alloc : Alloc} {msg : MessageT}

/-- Whatever a call of `invoke` that returns can have done. -/
theorem invoke_cases {table : Option Table} {d : Invoked}
    (h : invoke tableGetTable alloc (some msg) table = .ok d) :
    ((table = none ∨ ∃ code, msg.opcode = .other code) ∧ d = ⟨-1, some msg, table⟩) ∨
    ∃ t r, table = some t ∧ called tableGetTable alloc msg t = some (.ok r) ∧
      d = ⟨(place msg r.1).1, some (place msg r.1).2, some r.2⟩ := by
  cases table with
  | none =>
    cases h
    exact Or.inl ⟨Or.inl rfl, rfl⟩
  | some t =>
    cases hcall : called tableGetTable alloc msg t with
    | none =>
      obtain ⟨opcode, content⟩ := msg
      cases opcode with
      | other code =>
        cases h
        exact Or.inl ⟨Or.inr ⟨code, rfl⟩, rfl⟩
      | _ => cases hcall
    | some call =>
      rw [invoke_called tableGetTable alloc msg t hcall] at h
      obtain ⟨r, rfl, h⟩ := (bind_eq_ok_iff _ _ _).mp h
      cases h
      exact Or.inr ⟨t, r, rfl, hcall, rfl⟩

theorem put_returned {content : Content} {t t' : Table} {r : Returned}
    (h : called tableGetTable alloc ⟨.OC_PUT, content⟩ t = some (.ok (r, t'))) :
    ∃ e c, content = .entry (some e) ∧ r = .code c ∧
      tablePut alloc.mem alloc.node t e.obj.key e.obj.value = .ok (c, t') := by
  obtain ⟨e, hentry, h⟩ := (bind_eq_ok_iff _ _ _).mp (Option.some.inj h)
  obtain ⟨⟨c, t''⟩, hput, h⟩ := (bind_eq_ok_iff _ _ _).mp h
  cases h
  refine ⟨e, c, ?_, rfl, hput⟩
  match content with
  | .entry (some e) =>
    cases hentry
    rfl

theorem remove_returned {content : Content} {t t' : Table} {r : Returned}
    (h : called tableGetTable alloc ⟨.OC_DEL, content⟩ t = some (.ok (r, t'))) :
    ∃ key c, content = .key key ∧ r = .code c ∧ tableRemove t key = .ok (c, t') := by
  obtain ⟨key, hkey, h⟩ := (bind_eq_ok_iff _ _ _).mp (Option.some.inj h)
  obtain ⟨⟨c, t''⟩, hremove, h⟩ := (bind_eq_ok_iff _ _ _).mp h
  cases h
  refine ⟨key, c, ?_, rfl, hremove⟩
  match content with
  | .key key =>
    cases hkey
    rfl

theorem get_returned {content : Content} {t t' : Table} {r : Returned}
    (h : called tableGetTable alloc ⟨.OC_GET, content⟩ t = some (.ok (r, t'))) :
    ∃ key d, content = .key key ∧ r = .data d ∧ t' = t ∧
      tableGet alloc.mem alloc.buffer t key = .ok d := by
  obtain ⟨key, hkey, h⟩ := (bind_eq_ok_iff _ _ _).mp (Option.some.inj h)
  obtain ⟨d, hget, h⟩ := (bind_eq_ok_iff _ _ _).mp h
  cases h
  refine ⟨key, d, ?_, rfl, rfl, hget⟩
  match content with
  | .key key =>
    cases hkey
    rfl

/-- A table function that fails has changed nothing. -/
theorem called_failed {t t' : Table} {r : Returned}
    (h : called tableGetTable alloc msg t = some (.ok (r, t'))) (failed : (place msg r).1 < 0) :
    t' = t := by
  obtain ⟨opcode, content⟩ := msg
  cases opcode with
  | OC_PUT =>
    obtain ⟨e, c, _, rfl, hput⟩ := put_returned h
    exact tablePut_failed hput failed
  | OC_DEL =>
    obtain ⟨key, c, _, rfl, hremove⟩ := remove_returned h
    exact tableRemove_failed hremove failed
  | OC_GET =>
    obtain ⟨key, d, _, _, same, _⟩ := get_returned h
    exact same
  | OC_SIZE =>
    cases h
    rfl
  | OC_GETKEYS =>
    cases h
    rfl
  | OC_GETTABLE =>
    cases h
    rfl
  | other code => cases h

/-- When `invoke` returns -1 the message and the table are as they were. -/
theorem invoke_failed {table : Option Table} {d : Invoked}
    (h : invoke tableGetTable alloc (some msg) table = .ok d) (failed : d.code < 0) :
    d.table = table := by
  rcases invoke_cases h with ⟨_, rfl⟩ | ⟨t, r, rfl, hcall, rfl⟩
  · rfl
  · exact congrArg some (called_failed hcall failed)

end Invoke

end Skeleton
