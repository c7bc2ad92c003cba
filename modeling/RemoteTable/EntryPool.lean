import RemoteTable.KeyArrays

/-!
# Entries in the hands of a caller

All of `data.c` and `entry.c` on the explicit store, called in any order on any
number of entries: made, copied, exchanged, compared, looked at and destroyed. An
entry is its key and its value and nothing else: no call sees or changes another
entry, whatever was copied from where. What is never released are the arguments
of refused calls and the copies that came out with a part missing.
-/

namespace EntryPool

open CStrings Memory Entries ListMemory ListImage Ownership Runs KeyArrays

def dataCreate (mem : Bool) (σ : Store) (size : Int) (data : Option Nat) : Option Nat × Store :=
  if size ≤ 0 ∨ data = none then (none, σ) else malloc mem σ (.data size data)

def dataReplace (σ : Store) (data : Option Nat) (newSize : Int) (newData : Option Nat) :
    Except Fault (Int × Store) :=
  match data with
  | none => throw .nullPointer
  | some data => do
    let (_, old) ← loadData σ (some data)
    let σ ← match old with
      | none => pure σ
      | some old => σ.free old
    let σ ← σ.store data (.data newSize newData)
    let (datasize, kept) ← loadData σ (some data)
    pure (if datasize = newSize ∧ kept = newData then 0 else -1, σ)

/-- The flags are those of `malloc` for the entry, of `strdup` and of the two
allocations of `data_dup`. -/
def entryDup (mem dup dataMem buffer : Bool) (σ : Store) (entry : Option Nat) :
    Except Fault (Option Nat × Store) :=
  match entry with
  | none => pure (none, σ)
  | some entry => match malloc mem σ (.entry none none) with
    | (none, σ) => pure (none, σ)
    | (some entry2, σ) => do
      let (key, _) ← loadEntry σ (some entry)
      let s ← loadChars σ key
      let (copy, σ) := malloc dup σ (.chars s)
      let σ ← σ.store entry2 (.entry copy none)
      let (_, value) ← loadEntry σ (some entry)
      let (data, σ) ← ListMemory.dataDup dataMem buffer σ value
      let σ ← σ.store entry2 (.entry copy data)
      pure (some entry2, σ)

def entryReplace (σ : Store) (entry newKey newValue : Option Nat) : Except Fault (Int × Store) :=
  match entry with
  | none => pure (-1, σ)
  | some entry => do
    let (key, value) ← loadEntry σ (some entry)
    match key, value, newKey, newValue with
    | some key, some value, some newKey, some newValue => do
      let σ ← σ.free key
      let σ ← σ.store entry (.entry (some newKey) (some value))
      let (_, σ) ← dataDestroy σ (some value)
      let σ ← σ.store entry (.entry (some newKey) (some newValue))
      pure (0, σ)
    | _, _, _, _ => pure (-1, σ)

/-- What a caller can read from an entry. -/
structure Content where
  key : Option CString
  value : Option (Int × Option (List Byte))
  deriving DecidableEq

/-- A caller's calls. Keys and buffers are allocated for the call; `i` and `j` are
places among the pointers the caller has, NULL being passed for places beyond them. -/
inductive Call where
  | create (dataMem mem : Bool) (key : CString) (size : Int) (bytes : Option (List Byte))
  | dup (mem dup dataMem buffer : Bool) (i : Nat)
  | replace (dataMem : Bool) (i : Nat) (key : CString) (size : Int) (bytes : Option (List Byte))
  | refill (i : Nat) (size : Int) (bytes : Option (List Byte))
  | compare (i j : Nat)
  | read (i : Nat)
  | destroy (i : Nat)

/-- A new pointer shows which of its fields are not NULL. -/
inductive Answer where
  | entry (parts : Option (Bool × Bool))
  | code (c : Int)
  | shown (c : Content)
  deriving DecidableEq

structure Pool where
  store : Store
  entries : List Nat

def newBuffer (σ : Store) : Option (List Byte) → Option Nat × Store
  | none => (none, σ)
  | some bytes => malloc true σ (.bytes bytes)

def newData (mem : Bool) (σ : Store) (size : Int) (bytes : Option (List Byte)) :
    Option Nat × Store :=
  dataCreate mem (newBuffer σ bytes).2 size (newBuffer σ bytes).1

def readKey (σ : Store) : Option Nat → Except Fault (Option CString)
  | none => pure none
  | some key => do
    let k ← loadChars σ (some key)
    pure (some k)

def readBuffer (σ : Store) : Option Nat → Except Fault (Option (List Byte))
  | none => pure none
  | some data => do
    let bytes ← loadBytes σ (some data)
    pure (some bytes)

def readValue (σ : Store) : Option Nat → Except Fault (Option (Int × Option (List Byte)))
  | none => pure none
  | some value => do
    let (datasize, data) ← loadData σ (some value)
    let bytes ← readBuffer σ data
    pure (some (datasize, bytes))

def poolStep (s : Pool) : Call → Except Fault (Answer × Pool)
  | .create dataMem mem key size bytes =>
    let data := newData dataMem (s.store.alloc (.chars key)) size bytes
    let entry := ListMemory.entryCreate mem data.2 (some s.store.next) data.1
    .ok (.entry (entry.1.map fun _ => (true, true)), ⟨entry.2, s.entries ++ entry.1.toList⟩)
  | .dup mem dup dataMem buffer i => do
    let r ← entryDup mem dup dataMem buffer s.store s.entries[i]?
    match r.1 with
    | none => pure (.entry none, ⟨r.2, s.entries⟩)
    | some entry => do
      let fields ← loadEntry r.2 (some entry)
      pure (.entry (some (fields.1.isSome, fields.2.isSome)), ⟨r.2, s.entries ++ [entry]⟩)
  | .replace dataMem i key size bytes => do
    let data := newData dataMem (s.store.alloc (.chars key)) size bytes
    let r ← entryReplace data.2 s.entries[i]? (some s.store.next) data.1
    pure (.code r.1, ⟨r.2, s.entries⟩)
  | .refill i size bytes => do
    -- data_replace(entry->value, size, buffer)
    let fields ← loadEntry s.store s.entries[i]?
    let buffer := newBuffer s.store bytes
    let r ← dataReplace buffer.2 fields.2 size buffer.1
    pure (.code r.1, ⟨r.2, s.entries⟩)
  | .compare i j => do
    let c ← ListMemory.entryCompare s.store s.entries[i]? s.entries[j]?
    pure (.code c, s)
  | .read i => do
    let fields ← loadEntry s.store s.entries[i]?
    let key ← readKey s.store fields.1
    let value ← readValue s.store fields.2
    pure (.shown ⟨key, value⟩, s)
  | .destroy i => do
    let r ← ListMemory.entryDestroy s.store s.entries[i]?
    -- the caller forgets the pointer to an entry that is gone
    pure (.code r.1, ⟨r.2, if r.1 = 0 then s.entries.eraseIdx i else s.entries⟩)

section Contents

/-- The value that `data_create` makes, if it makes one. -/
def freshValue (mem : Bool) (size : Int) (bytes : Option (List Byte)) :
    Option (Int × Option (List Byte)) :=
  if 0 < size ∧ bytes.isSome ∧ mem then some (size, bytes) else none

def copyValue (mem buffer : Bool) (value : Option (Int × Option (List Byte))) :
    Except Fault (Option (Int × Option (List Byte))) :=
  match value with
  | some (size, some bytes) =>
    if size ≤ 0 ∨ ¬ (mem ∧ buffer) then .ok none
    else if size ≤ bytes.length then .ok (some (size, some (bytes.take size.toNat)))
    else .error .outOfBounds
  | _ => .ok none

def copyContent (dup dataMem buffer : Bool) (c : Content) : Except Fault Content :=
  match c.key with
  | none => .error .nullPointer
  | some k => (copyValue dataMem buffer c.value).map fun value =>
      ⟨if dup then some k else none, value⟩

def Content.whole (c : Content) : Bool := c.key.isSome && c.value.isSome

def compareContents (c c' : Option Content) : Int :=
  ((c.bind Content.key).bind fun k => (c'.bind Content.key).map fun k' =>
    let result := strcmp k k'
    if result = 0 then 0 else if result > 0 then 1 else -1).getD (-2)

/-- The same calls on a list of contents, without pointers and without sharing. -/
def contentStep (cs : List Content) : Call → Except Fault (Answer × List Content)
  | .create dataMem mem key size bytes =>
    match mem, freshValue dataMem size bytes with
    | true, some value => .ok (.entry (some (true, true)), cs ++ [⟨some key, some value⟩])
    | _, _ => .ok (.entry none, cs)
  | .dup mem dup dataMem buffer i =>
    match mem, cs[i]? with
    | true, some c => (copyContent dup dataMem buffer c).map fun copy =>
        (.entry (some (copy.key.isSome, copy.value.isSome)), cs ++ [copy])
    | _, _ => .ok (.entry none, cs)
  | .replace dataMem i key size bytes =>
    match cs[i]?, freshValue dataMem size bytes with
    | some c, some value =>
      if c.whole then .ok (.code 0, cs.set i ⟨some key, some value⟩) else .ok (.code (-1), cs)
    | _, _ => .ok (.code (-1), cs)
  | .refill i size bytes =>
    match cs[i]? with
    | none => .error .nullPointer
    | some c =>
      if c.value = none then .error .nullPointer
      else .ok (.code 0, cs.set i ⟨c.key, some (size, bytes)⟩)
  | .compare i j => .ok (.code (compareContents cs[i]? cs[j]?), cs)
  | .read i =>
    match cs[i]? with
    | none => .error .nullPointer
    | some c => .ok (.shown c, cs)
  | .destroy i =>
    match cs[i]? with
    | none => .ok (.code (-1), cs)
    | some c => if c.whole then .ok (.code 0, cs.eraseIdx i) else .ok (.code (-1), cs)

end Contents

def dataContent (d : Ptr Data) : Int × Option (List Byte) :=
  (d.obj.datasize, d.obj.data.map Ptr.obj)

def content (e : Ptr Entry) : Content := ⟨e.obj.key.map Ptr.obj, e.obj.value.map dataContent⟩

theorem whole_iff (e : Ptr Entry) : (content e).whole = true ↔ Complete e := by
  simp [content, Content.whole, Complete, Option.isSome_iff_ne_none]

section Functions

variable {R : Store → Image → Prop} (tracks : Tracks R) {σ : Store} {F : Image}

include tracks

theorem newBuffer_image (bytes : Option (List Byte)) (holds : R σ F) :
    ∃ (b : Option (Ptr (List Byte))) (σ' : Store), newBuffer σ bytes = (b.map Ptr.addr, σ') ∧
      b.map Ptr.obj = bytes ∧ R σ' (optionImage bytesImage b + F) := by
  cases bytes with
  | none => exact ⟨none, σ, rfl, rfl, tracks.congr holds (zero_add F)⟩
  | some bytes => exact ⟨some ⟨σ.next, bytes⟩, _, rfl, rfl, tracks.alloc (.bytes bytes) holds⟩

/-- A value made of a new buffer. A buffer without value stays with the caller. -/
theorem newData_image (mem : Bool) (size : Int) (bytes : Option (List Byte)) (holds : R σ F) :
    ∃ (d : Option (Ptr Data)) (rest : Image) (σ' : Store),
      newData mem σ size bytes = (d.map Ptr.addr, σ') ∧
      d.map dataContent = freshValue mem size bytes ∧ (d.isSome → rest = 0) ∧
      R σ' (optionImage dataImage d + (rest + F)) := by
  obtain ⟨b, σ1, hbuffer, rfl, holds1⟩ := newBuffer_image tracks bytes holds
  simp only [newData, hbuffer, dataCreate]
  have kept : R σ1 (optionImage dataImage none + (optionImage bytesImage b + F)) := by
    simpa [optionImage] using holds1
  cases b with
  | none => exact ⟨none, 0, σ1, by simp, by simp [freshValue], by simp, kept⟩
  | some b =>
    by_cases pos : 0 < size
    · cases mem with
      | false =>
        exact ⟨none, bytesImage b, σ1, by simp [malloc], by simp [freshValue], by simp, kept⟩
      | true =>
        refine ⟨some ⟨σ1.next, ⟨size, some b⟩⟩, 0, σ1.alloc (.data size (some b.addr)),
          ?_, ?_, ?_, ?_⟩
        · simp [malloc, pos]
        · simp [freshValue, pos, dataContent]
        · exact fun _ => rfl
        · refine tracks.congr (tracks.alloc (.data size (some b.addr)) holds1) ?_
          simp only [optionImage, dataImage, Option.map_some]
          abel
    · exact ⟨none, bytesImage b, σ1, by simp [not_lt.mp pos], by simp [freshValue, pos],
        by simp, kept⟩

theorem dataReplace_image {d : Ptr Data} {b : Option (Ptr (List Byte))} (size : Int)
    (holds : R σ (dataImage d + (optionImage bytesImage b + F))) :
    ∃ σ', dataReplace σ (some d.addr) size (b.map Ptr.addr) = .ok (0, σ') ∧
      R σ' (dataImage ⟨d.addr, ⟨size, b⟩⟩ + F) := by
  have hload := loadData_image (tracks.owns holds) (Multiset.le_add_right _ _)
  have stored : ∀ {σ1 : Store},
      R σ1 ({(d.addr, .data d.obj.datasize (d.obj.data.map Ptr.addr))} +
        (optionImage bytesImage b + F)) →
      ∃ σ', σ1.store d.addr (.data size (b.map Ptr.addr)) = .ok σ' ∧
        loadData σ' (some d.addr) = .ok (size, b.map Ptr.addr) ∧
        R σ' (dataImage ⟨d.addr, ⟨size, b⟩⟩ + F) := by
    intro σ1 holds1
    obtain ⟨σ', hstore, holds', _⟩ := tracks.store (.data size (b.map Ptr.addr)) holds1
    have whole : R σ' (dataImage ⟨d.addr, ⟨size, b⟩⟩ + F) := by
      refine tracks.congr holds' ?_
      simp only [dataImage]
      abel
    exact ⟨σ', hstore, loadData_image (tracks.owns whole) (Multiset.le_add_right _ _), whole⟩
  cases hdata : d.obj.data with
  | none =>
    have parts : R σ ({(d.addr, .data d.obj.datasize (d.obj.data.map Ptr.addr))} +
        (optionImage bytesImage b + F)) := by
      refine tracks.congr holds ?_
      simp [dataImage, hdata, optionImage]
    obtain ⟨σ', hstore, hback, holds'⟩ := stored parts
    refine ⟨σ', ?_, holds'⟩
    simp [dataReplace, hload, hdata, hstore, hback]
  | some old =>
    have parts : R σ ({(old.addr, .bytes old.obj)} +
        ({(d.addr, .data d.obj.datasize (d.obj.data.map Ptr.addr))} +
          (optionImage bytesImage b + F))) := by
      refine tracks.congr holds ?_
      simp only [dataImage, hdata, optionImage, bytesImage, Option.map_some]
      abel
    obtain ⟨σ1, hfree, holds1, _⟩ := tracks.free parts
    obtain ⟨σ', hstore, hback, holds'⟩ := stored holds1
    refine ⟨σ', ?_, holds'⟩
    simp [dataReplace, hload, hdata, hfree, hstore, hback]

/-- `entry_replace` takes the new key and the new value, or leaves everything alone. -/
theorem entryReplace_image {e : Ptr Entry} {k : Ptr CString} {d : Option (Ptr Data)}
    (holds : R σ (entryImage e + (keyImage k + (optionImage dataImage d + F)))) :
    (Complete e → d ≠ none → ∃ σ',
      entryReplace σ (some e.addr) (some k.addr) (d.map Ptr.addr) = .ok (0, σ') ∧
      R σ' (entryImage ⟨e.addr, ⟨some k, d⟩⟩ + F)) ∧
    (¬ (Complete e ∧ d ≠ none) →
      entryReplace σ (some e.addr) (some k.addr) (d.map Ptr.addr) = .ok (-1, σ)) := by
  have hload := loadEntry_image (tracks.owns holds) (Multiset.le_add_right _ _)
  constructor
  · rintro ⟨hkey, hvalue⟩ hdata
    obtain ⟨key, hkey⟩ := Option.ne_none_iff_exists'.mp hkey
    obtain ⟨value, hvalue⟩ := Option.ne_none_iff_exists'.mp hvalue
    obtain ⟨d, rfl⟩ := Option.ne_none_iff_exists'.mp hdata
    have parts : R σ ({(key.addr, .chars key.obj)} +
        ({(e.addr, .entry (some key.addr) (some value.addr))} +
          (dataImage value + (keyImage k + (dataImage d + F))))) := by
      refine tracks.congr holds ?_
      simp only [entryImage, hkey, hvalue, optionImage, keyImage, Option.map_some]
      abel
    obtain ⟨σ1, hfree, holds1, _⟩ := tracks.free parts
    obtain ⟨σ2, hstore2, holds2, _⟩ := tracks.store (.entry (some k.addr) (some value.addr)) holds1
    have values : R σ2 (dataImage value +
        ({(e.addr, .entry (some k.addr) (some value.addr))} +
          (keyImage k + (dataImage d + F)))) := by
      refine tracks.congr holds2 ?_
      abel
    obtain ⟨σ3, hdestroy, holds3, _⟩ := dataDestroy_image tracks values
    obtain ⟨σ4, hstore4, holds4, _⟩ := tracks.store (.entry (some k.addr) (some d.addr)) holds3
    refine ⟨σ4, ?_, tracks.congr holds4 ?_⟩
    · simp [entryReplace, hload, hkey, hvalue, hfree, hstore2, hdestroy, hstore4]
    · simp only [entryImage, optionImage, Option.map_some]
      abel
  · intro missing
    simp only [entryReplace, hload, ok_bind]
    cases hkey : e.obj.key with
    | none => rfl
    | some key =>
      cases hvalue : e.obj.value with
      | none => rfl
      | some value =>
        cases d with
        | none => rfl
        | some d => exact absurd ⟨⟨by simp [hkey], by simp [hvalue]⟩, by simp⟩ missing

theorem entryDestroy_complete {e : Ptr Entry} (complete : Complete e)
    (holds : R σ (entryImage e + F)) :
    ∃ σ', ListMemory.entryDestroy σ (some e.addr) = .ok (0, σ') ∧ R σ' F := by
  have hload := loadEntry_image (tracks.owns holds) (Multiset.le_add_right _ _)
  obtain ⟨key, hkey⟩ := Option.ne_none_iff_exists'.mp complete.1
  obtain ⟨value, hvalue⟩ := Option.ne_none_iff_exists'.mp complete.2
  obtain ⟨c, σ', hcall, holds', _⟩ := @entryDestroy_image R tracks σ F (some e)
    (Or.inr fun _ h => Option.some.inj h ▸ complete) holds
  have code : c = 0 := by
    simp only [ListMemory.entryDestroy, Option.map_some, hload, hkey, hvalue, ok_bind,
      bind_eq_ok_iff _ _ (c, σ')] at hcall
    obtain ⟨_, _, _, _, _, _, _, _, last⟩ := hcall
    cases last
    rfl
  exact ⟨σ', by rw [← code]; exact hcall, holds'⟩

/-- An entry with a part missing is not released. -/
theorem entryDestroy_incomplete {e : Ptr Entry} (missing : ¬ Complete e)
    (holds : R σ (entryImage e + F)) :
    ListMemory.entryDestroy σ (some e.addr) = .ok (-1, σ) := by
  have hload := loadEntry_image (tracks.owns holds) (Multiset.le_add_right _ _)
  simp only [ListMemory.entryDestroy, hload, ok_bind]
  cases hkey : e.obj.key with
  | none => rfl
  | some key =>
    cases hvalue : e.obj.value with
    | none => rfl
    | some value => exact absurd ⟨by simp [hkey], by simp [hvalue]⟩ missing

end Functions

theorem dataDup_content (mem buffer : Bool) (a b : Nat) (d : Option (Ptr Data)) :
    (Entries.dataDup (if mem then some a else none) (if buffer then some b else none) d).map
      (Option.map dataContent) = copyValue mem buffer (d.map dataContent) := by
  cases d with
  | none => rfl
  | some d =>
    cases hdata : d.obj.data with
    | none =>
      simp only [Entries.dataDup, hdata, Option.map_some, dataContent, Option.map_none, copyValue]
      split_ifs <;> rfl
    | some block =>
      simp only [Entries.dataDup, hdata, Option.map_some, dataContent, copyValue]
      by_cases hsize : d.obj.datasize ≤ 0
      · simp [hsize, Except.map]
      · cases mem <;> cases buffer <;> simp only [hsize, if_true, if_false] <;> try rfl
        simp only [and_self, not_true_eq_false, or_self, if_false]
        split_ifs <;> rfl

section Copies

variable {R : Store → Image → Prop} (tracks : Tracks R) {σ : Store} {F : Image}

include tracks

/-- The copy of an entry shares no block with it. -/
theorem entryDup_image {e : Ptr Entry} (mem dup dataMem buffer : Bool) (holds : R σ F)
    (he : entryImage e ≤ F) :
    (mem = false → entryDup mem dup dataMem buffer σ (some e.addr) = .ok (none, σ)) ∧
    (mem = true → ∀ fault, copyContent dup dataMem buffer (content e) = .error fault →
      entryDup mem dup dataMem buffer σ (some e.addr) = .error fault) ∧
    (mem = true → ∀ c, copyContent dup dataMem buffer (content e) = .ok c → ∃ copy σ',
      entryDup mem dup dataMem buffer σ (some e.addr) = .ok (some copy.addr, σ') ∧
      content copy = c ∧ R σ' (entryImage copy + F)) := by
  refine ⟨by rintro rfl; rfl, ?_⟩
  suffices h : mem = true → (∀ fault, copyContent dup dataMem buffer (content e) = .error fault →
      entryDup mem dup dataMem buffer σ (some e.addr) = .error fault) ∧
    ∀ c, copyContent dup dataMem buffer (content e) = .ok c → ∃ copy σ',
      entryDup mem dup dataMem buffer σ (some e.addr) = .ok (some copy.addr, σ') ∧
      content copy = c ∧ R σ' (entryImage copy + F) from ⟨fun hm => (h hm).1, fun hm => (h hm).2⟩
  rintro rfl
  have holds1 := tracks.alloc (.entry none none) holds
  have hload := loadEntry_image (tracks.owns holds1) (he.trans (Multiset.le_add_left _ _))
  cases hkey : e.obj.key with
  | none =>
    have hcopy : copyContent dup dataMem buffer (content e) = .error .nullPointer := by
      simp [copyContent, content, hkey]
    rw [hcopy]
    refine ⟨?_, by simp⟩
    rintro fault ⟨⟩
    simp [entryDup, malloc, hload, hkey, loadChars, Heap.load]
  | some k =>
    have hk : keyImage k ≤ F := by
      refine le_trans ?_ he
      simp only [entryImage, hkey, optionImage]
      exact (Multiset.le_add_right _ _).trans (Multiset.le_add_left _ _)
    have hchars := loadChars_image (tracks.owns holds1) (hk.trans (Multiset.le_add_left _ _))
    obtain ⟨key, σ2, hstrdup, hcopy, holds2⟩ := strdup_image tracks dup k.obj holds1
    have parts : R σ2 ({(σ.next, .entry none none)} + (optionImage keyImage key + F)) := by
      refine tracks.congr holds2 ?_
      abel
    obtain ⟨σ3, hstore3, holds3, _⟩ := tracks.store (.entry (key.map Ptr.addr) none) parts
    have below : F ≤ {(σ.next, Block.entry (key.map Ptr.addr) none)} +
        (optionImage keyImage key + F) :=
      (Multiset.le_add_left _ _).trans (Multiset.le_add_left _ _)
    have hagain := loadEntry_image (tracks.owns holds3) (he.trans below)
    have hvalue : optionImage dataImage e.obj.value ≤ F :=
      ((Multiset.le_add_left _ _).trans (Multiset.le_add_left _ _)).trans he
    obtain ⟨hfault, hok⟩ := dataDup_image tracks dataMem buffer holds3 (hvalue.trans below)
    have new : malloc true σ (.entry none none) = (some σ.next, σ.alloc (.entry none none)) := rfl
    have starts : entryDup true dup dataMem buffer σ (some e.addr) = (do
        let r ← ListMemory.dataDup dataMem buffer σ3 (e.obj.value.map Ptr.addr)
        let σ' ← r.2.store σ.next (.entry (key.map Ptr.addr) r.1)
        pure (some σ.next, σ')) := by
      simp only [entryDup, new, hload, hkey, Option.map_some, hchars, hstrdup, hstore3, hagain,
        ok_bind]
    have same := dataDup_content dataMem buffer σ3.next (σ3.next + 1) e.obj.value
    have expands : copyContent dup dataMem buffer (content e) =
        (copyValue dataMem buffer (e.obj.value.map dataContent)).map fun value =>
          ⟨key.map Ptr.obj, value⟩ := by
      rw [hcopy]
      simp [copyContent, content, hkey]
    rw [expands, ← same]
    cases hdup : Entries.dataDup (if dataMem then some σ3.next else none)
        (if buffer then some (σ3.next + 1) else none) e.obj.value with
    | error fault =>
      refine ⟨?_, by simp [Except.map]⟩
      rintro _ ⟨⟩
      rw [starts, hfault fault hdup]
      rfl
    | ok value =>
      obtain ⟨σ4, hcall, holds4⟩ := hok value hdup
      have entries : R σ4 ({(σ.next, .entry (key.map Ptr.addr) none)} +
          (optionImage dataImage value + (optionImage keyImage key + F))) := by
        refine tracks.congr holds4 ?_
        abel
      obtain ⟨σ5, hstore5, holds5, _⟩ :=
        tracks.store (.entry (key.map Ptr.addr) (value.map Ptr.addr)) entries
      refine ⟨by simp [Except.map], ?_⟩
      rintro c ⟨⟩
      refine ⟨⟨σ.next, ⟨key, value⟩⟩, σ5, ?_, rfl, tracks.congr holds5 ?_⟩
      · simp only [starts, hcall, hstore5, ok_bind, pure_eq_ok]
      · simp only [entryImage]
        abel

end Copies

section Reads

variable {σ : Store} {m : Image} (owns : Owns σ m)

include owns

theorem readKey_image {k : Option (Ptr CString)} (h : optionImage keyImage k ≤ m) :
    readKey σ (k.map Ptr.addr) = .ok (k.map Ptr.obj) := by
  cases k with
  | none => rfl
  | some k => simp only [readKey, Option.map_some, loadChars_image owns h, ok_bind, pure_eq_ok]

theorem readValue_image {d : Option (Ptr Data)} (h : optionImage dataImage d ≤ m) :
    readValue σ (d.map Ptr.addr) = .ok (d.map dataContent) := by
  cases d with
  | none => rfl
  | some d =>
    simp only [readValue, Option.map_some, loadData_image owns h, ok_bind, dataContent]
    cases hdata : d.obj.data with
    | none => rfl
    | some b =>
      have hbytes : bytesImage b ≤ m := by
        refine le_trans ?_ h
        simp only [optionImage, dataImage, hdata]
        exact Multiset.le_add_left _ _
      simp only [readBuffer, Option.map_some, loadBytes_image owns hbytes, ok_bind, pure_eq_ok]

end Reads

/-- The caller's entries, and what else is in the store. -/
structure Describes (s : Pool) (es : List (Ptr Entry)) (F : Image) : Prop where
  handles : s.entries = es.map Ptr.addr
  exhausts : Exhausts s.store ((es.map entryImage).sum + F)

/-- What the caller allocated for the call is part of an entry now. -/
def Taken : Call → Answer → Prop
  | .create .., answer => answer ≠ .entry none
  | .replace .., answer => answer = .code 0
  | _, _ => True

/-- The call does on the store what it does on the contents. -/
structure Agrees (s : Pool) (es : List (Ptr Entry)) (F : Image) (call : Call) : Prop where
  fails : ∀ fault, contentStep (es.map content) call = .error fault →
    poolStep s call = .error fault
  returns : ∀ answer cs, contentStep (es.map content) call = .ok (answer, cs) →
    ∃ s' es' lost, poolStep s call = .ok (answer, s') ∧ Describes s' es' (lost + F) ∧
      es'.map content = cs ∧ (lost = 0 ↔ Taken call answer)

section Steps

variable {s : Pool} {es : List (Ptr Entry)} {F : Image} {call : Call}

theorem agrees_error (fault : Fault) (h : contentStep (es.map content) call = .error fault)
    (h' : poolStep s call = .error fault) : Agrees s es F call where
  fails := by
    rintro _ same
    rw [h] at same
    cases same
    exact h'
  returns := by simp [h]

theorem agrees_ok (answer : Answer) {cs : List Content} {s' : Pool} {es' : List (Ptr Entry)}
    {lost : Image} (h : contentStep (es.map content) call = .ok (answer, cs))
    (h' : poolStep s call = .ok (answer, s')) (rep : Describes s' es' (lost + F))
    (same : es'.map content = cs) (taken : lost = 0 ↔ Taken call answer) :
    Agrees s es F call where
  fails := by simp [h]
  returns := by
    rintro _ _ again
    rw [h] at again
    cases again
    exact ⟨s', es', lost, h', rep, same, taken⟩

theorem agrees_same (rep : Describes s es F) (answer : Answer)
    (h : contentStep (es.map content) call = .ok (answer, es.map content))
    (h' : poolStep s call = .ok (answer, s)) (taken : Taken call answer) : Agrees s es F call :=
  agrees_ok answer h h' (by rwa [zero_add] : Describes s es (0 + F)) rfl
    ⟨fun _ => taken, fun _ => rfl⟩

theorem handle_at (rep : Describes s es F) (i : Nat) :
    s.entries[i]? = (es[i]?).map Ptr.addr := by
  rw [rep.handles, List.getElem?_map]

theorem content_at (es : List (Ptr Entry)) (i : Nat) :
    (es.map content)[i]? = (es[i]?).map content := List.getElem?_map

theorem split_at {α : Type} {xs : List α} {i : Nat} {x : α} (at_i : xs[i]? = some x) :
    ∃ pre post, xs = pre ++ x :: post ∧ pre.length = i := by
  obtain ⟨hi, rfl⟩ := List.getElem?_eq_some_iff.mp at_i
  exact ⟨xs.take i, xs.drop (i + 1), by simp, by simp; omega⟩

theorem sum_split (pre post : List (Ptr Entry)) (e : Ptr Entry) :
    ((pre ++ e :: post).map entryImage).sum =
      entryImage e + ((pre ++ post).map entryImage).sum := by
  simp only [List.map_append, List.map_cons, List.sum_append, List.sum_cons]
  abel

theorem eraseIdx_middle {α : Type} (pre post : List α) (x : α) :
    (pre ++ x :: post).eraseIdx pre.length = pre ++ post := by
  rw [List.eraseIdx_append_of_length_le le_rfl, Nat.sub_self, List.eraseIdx_cons_zero]

theorem entry_le {i : Nat} {e : Ptr Entry} (at_i : es[i]? = some e) :
    entryImage e ≤ (es.map entryImage).sum + F := by
  obtain ⟨pre, post, rfl, _⟩ := split_at at_i
  rw [sum_split, add_assoc]
  exact Multiset.le_add_right _ _

theorem destroy_agrees (rep : Describes s es F) (i : Nat) : Agrees s es F (.destroy i) := by
  cases at_i : es[i]? with
  | none =>
    refine agrees_same rep (.code (-1)) ?_ ?_ trivial
    · simp [contentStep, at_i]
    · simp [poolStep, handle_at rep, at_i, ListMemory.entryDestroy]
  | some e =>
    obtain ⟨pre, post, rfl, rfl⟩ := split_at at_i
    have parts : Exhausts s.store (entryImage e + (((pre ++ post).map entryImage).sum + F)) := by
      have h := rep.exhausts
      rwa [sum_split, add_assoc] at h
    by_cases complete : Complete e
    · obtain ⟨σ', hdestroy, holds'⟩ := entryDestroy_complete exhausts_tracks complete parts
      have contents : ((pre ++ e :: post).map content).eraseIdx pre.length =
          (pre ++ post).map content := by
        rw [List.eraseIdx_map, eraseIdx_middle]
      have handles : s.entries.eraseIdx pre.length = (pre ++ post).map Ptr.addr := by
        rw [rep.handles, List.eraseIdx_map, eraseIdx_middle]
      have left : Describes ⟨σ', s.entries.eraseIdx pre.length⟩ (pre ++ post) (0 + F) :=
        ⟨handles, by rwa [zero_add]⟩
      refine agrees_ok (.code 0) ?_ ?_ left contents.symm ⟨fun _ => trivial, fun _ => rfl⟩
      · simp only [contentStep, content_at, at_i, Option.map_some, (whole_iff e).mpr complete,
          if_true]
      · simp only [poolStep, handle_at rep, at_i, Option.map_some, hdestroy, ok_bind, pure_eq_ok,
          if_true]
    · have hdestroy := entryDestroy_incomplete exhausts_tracks complete parts
      refine agrees_same rep (.code (-1)) ?_ ?_ trivial
      · simp [contentStep, mt (whole_iff e).mp complete]
      · simp only [poolStep, handle_at rep, at_i, Option.map_some, hdestroy, ok_bind, pure_eq_ok]
        rfl

theorem compare_agrees (rep : Describes s es F) (i j : Nat) : Agrees s es F (.compare i j) := by
  have below : ∀ k : Nat, optionImage entryImage es[k]? ≤ (es.map entryImage).sum + F := by
    intro k
    cases at_k : es[k]? with
    | none => exact Multiset.zero_le _
    | some e => exact entry_le at_k
  have keys : ∀ k : Nat, ((es[k]?).map content).bind Content.key = entryKey es[k]? := by
    intro k
    cases es[k]? <;> rfl
  have same : compareContents (es.map content)[i]? (es.map content)[j]? =
      Entries.entryCompare es[i]? es[j]? := by
    rw [content_at, content_at, compareContents, Entries.entryCompare, keys, keys]
    cases entryKey es[i]? <;> cases entryKey es[j]? <;> rfl
  have compared : ListMemory.entryCompare s.store s.entries[i]? s.entries[j]? =
      .ok (Entries.entryCompare es[i]? es[j]?) := by
    rw [handle_at rep, handle_at rep]
    cases at_j : es[j]? with
    | none =>
      cases es[i]? <;> simp [ListMemory.entryCompare, Entries.entryCompare]
    | some e => exact entryCompare_image rep.exhausts.owns (below i) (entry_le at_j)
  refine agrees_same rep (.code (Entries.entryCompare es[i]? es[j]?)) ?_ ?_ trivial
  · rw [contentStep, same]
  · rw [poolStep, compared]
    rfl

theorem read_agrees (rep : Describes s es F) (i : Nat) : Agrees s es F (.read i) := by
  cases at_i : es[i]? with
  | none =>
    refine agrees_error .nullPointer ?_ ?_
    · simp [contentStep, at_i]
    · simp [poolStep, handle_at rep, at_i, loadEntry, Heap.load]
  | some e =>
    have hle := entry_le (F := F) at_i
    have owns := rep.exhausts.owns
    have hload := loadEntry_image owns hle
    have parts := (Multiset.le_add_left _ _).trans hle
    have hkey := readKey_image owns ((Multiset.le_add_right _ _).trans parts)
    have hvalue := readValue_image owns ((Multiset.le_add_left _ _).trans parts)
    refine agrees_same rep (.shown (content e)) ?_ ?_ trivial
    · simp [contentStep, at_i]
    · simp only [poolStep, handle_at rep, at_i, Option.map_some, hload, hkey, hvalue, ok_bind,
        pure_eq_ok, content]

/-- The entry at a place is exchanged for another one at the same address. -/
theorem exchanged {pre post : List (Ptr Entry)} {e : Ptr Entry} {x : Entry} {σ : Store}
    (handles : s.entries = (pre ++ e :: post).map Ptr.addr)
    (holds : Exhausts σ (entryImage ⟨e.addr, x⟩ + (((pre ++ post).map entryImage).sum + F))) :
    Describes ⟨σ, s.entries⟩ (pre ++ ⟨e.addr, x⟩ :: post) (0 + F) ∧
      ((pre ++ e :: post).map content).set pre.length (content ⟨e.addr, x⟩) =
        (pre ++ ⟨e.addr, x⟩ :: post).map content := by
  refine ⟨⟨by simp [handles], ?_⟩, ?_⟩
  · rwa [sum_split, zero_add, add_assoc]
  · rw [← List.map_set, List.set_append_right _ _ le_rfl, Nat.sub_self, List.set_cons_zero]

theorem refill_agrees (rep : Describes s es F) (i : Nat) (size : Int)
    (bytes : Option (List Byte)) : Agrees s es F (.refill i size bytes) := by
  cases at_i : es[i]? with
  | none =>
    refine agrees_error .nullPointer ?_ ?_
    · simp [contentStep, at_i]
    · simp [poolStep, handle_at rep, at_i, loadEntry, Heap.load]
  | some e =>
    have hload := loadEntry_image rep.exhausts.owns (entry_le (F := F) at_i)
    cases hvalue : e.obj.value with
    | none =>
      refine agrees_error .nullPointer ?_ ?_
      · simp [contentStep, at_i, content, hvalue]
      · simp [poolStep, handle_at rep, at_i, hload, hvalue, dataReplace]
    | some d =>
      obtain ⟨pre, post, rfl, rfl⟩ := split_at at_i
      obtain ⟨b, σ1, hbuffer, rfl, holds1⟩ := newBuffer_image exhausts_tracks bytes rep.exhausts
      have parts : Exhausts σ1 (dataImage d + (optionImage bytesImage b +
          ({(e.addr, .entry (e.obj.key.map Ptr.addr) (some d.addr))} +
            (optionImage keyImage e.obj.key + (((pre ++ post).map entryImage).sum + F))))) := by
        refine exhausts_tracks.congr holds1 ?_
        simp only [sum_split, entryImage, hvalue, optionImage, Option.map_some]
        abel
      obtain ⟨σ2, hreplace, holds2⟩ := dataReplace_image exhausts_tracks size parts
      have whole : Exhausts σ2 (entryImage ⟨e.addr, ⟨e.obj.key, some ⟨d.addr, ⟨size, b⟩⟩⟩⟩ +
          (((pre ++ post).map entryImage).sum + F)) := by
        refine exhausts_tracks.congr holds2 ?_
        simp only [entryImage, optionImage, Option.map_some]
        abel
      obtain ⟨left, contents⟩ := exchanged rep.handles whole
      refine agrees_ok (.code 0) ?_ ?_ left contents.symm ⟨fun _ => trivial, fun _ => rfl⟩
      · simp only [contentStep, content_at, at_i, Option.map_some]
        simp [content, hvalue, dataContent]
      · simp only [poolStep, handle_at rep, at_i, Option.map_some, hload, hvalue, hbuffer, hreplace,
          ok_bind, pure_eq_ok]

theorem create_agrees (rep : Describes s es F) (dataMem mem : Bool) (key : CString) (size : Int)
    (bytes : Option (List Byte)) : Agrees s es F (.create dataMem mem key size bytes) := by
  obtain ⟨d, rest, σ1, hdata, hfresh, hrest, holds1⟩ := newData_image exhausts_tracks dataMem size
    bytes (exhausts_tracks.alloc (.chars key) rep.exhausts)
  have refused : (mem = true → d = none) →
      Agrees s es F (.create dataMem mem key size bytes) := by
    intro missing
    have hentry :
        ListMemory.entryCreate mem σ1 (some s.store.next) (d.map Ptr.addr) = (none, σ1) := by
      cases mem with
      | true => rw [missing rfl]; rfl
      | false => cases d <;> rfl
    have lost : Describes ⟨σ1, s.entries⟩ es
        (({(s.store.next, .chars key)} + (optionImage dataImage d + rest)) + F) := by
      refine ⟨rep.handles, exhausts_tracks.congr holds1 ?_⟩
      abel
    refine agrees_ok (.entry none) ?_ ?_ lost rfl ?_
    · cases mem with
      | true => simp [contentStep, ← hfresh, missing rfl]
      | false => simp [contentStep]
    · simp only [poolStep, hdata, hentry]
      simp
    · simp [Taken]
  cases mem with
  | false => exact refused (by simp)
  | true =>
    cases d with
    | none => exact refused fun _ => rfl
    | some d =>
      let e : Ptr Entry := ⟨σ1.next, ⟨some ⟨s.store.next, key⟩, some d⟩⟩
      have new : Describes ⟨σ1.alloc (.entry (some s.store.next) (some d.addr)),
          s.entries ++ [σ1.next]⟩ (es ++ [e]) (0 + F) := by
        refine ⟨by simp [rep.handles, e], ?_⟩
        refine exhausts_tracks.congr (exhausts_tracks.alloc _ holds1) ?_
        rw [hrest rfl]
        simp only [List.map_append, List.map_cons, List.map_nil, List.sum_append, List.sum_cons,
          List.sum_nil, entryImage, optionImage, keyImage, Option.map_some, e]
        abel
      have contents : (es ++ [e]).map content =
          es.map content ++ [⟨some key, some (dataContent d)⟩] := by
        simp [content, e]
      refine agrees_ok (.entry (some (true, true))) ?_ ?_ new contents ?_
      · simp [contentStep, ← hfresh]
      · simp only [poolStep, hdata, Option.map_some, ListMemory.entryCreate, malloc, if_true]
        rfl
      · simp [Taken]

theorem replace_agrees (rep : Describes s es F) (dataMem : Bool) (i : Nat) (key : CString)
    (size : Int) (bytes : Option (List Byte)) :
    Agrees s es F (.replace dataMem i key size bytes) := by
  obtain ⟨d, rest, σ1, hdata, hfresh, hrest, holds1⟩ := newData_image exhausts_tracks dataMem size
    bytes (exhausts_tracks.alloc (.chars key) rep.exhausts)
  have refused : contentStep (es.map content) (.replace dataMem i key size bytes) =
        .ok (.code (-1), es.map content) →
      entryReplace σ1 s.entries[i]? (some s.store.next) (d.map Ptr.addr) = .ok (-1, σ1) →
      Agrees s es F (.replace dataMem i key size bytes) := by
    intro hcontent hreplace
    have lost : Describes ⟨σ1, s.entries⟩ es
        (({(s.store.next, .chars key)} + (optionImage dataImage d + rest)) + F) := by
      refine ⟨rep.handles, exhausts_tracks.congr holds1 ?_⟩
      abel
    refine agrees_ok (.code (-1)) hcontent ?_ lost rfl ?_
    · simp only [poolStep, hdata, hreplace, ok_bind, pure_eq_ok]
    · simp [Taken]
  cases at_i : es[i]? with
  | none =>
    refine refused ?_ ?_
    · simp [contentStep, at_i]
    · simp [handle_at rep, at_i, entryReplace]
  | some e =>
    obtain ⟨pre, post, rfl, rfl⟩ := split_at at_i
    have parts : Exhausts σ1 (entryImage e + (keyImage ⟨s.store.next, key⟩ +
        (optionImage dataImage d + (rest + (((pre ++ post).map entryImage).sum + F))))) := by
      refine exhausts_tracks.congr holds1 ?_
      simp only [sum_split, keyImage]
      abel
    obtain ⟨takes, leaves⟩ := entryReplace_image exhausts_tracks parts
    by_cases good : Complete e ∧ d ≠ none
    · obtain ⟨complete, hd⟩ := good
      obtain ⟨σ2, hreplace, holds2⟩ := takes complete hd
      obtain ⟨d, rfl⟩ := Option.ne_none_iff_exists'.mp hd
      rw [hrest rfl, zero_add] at holds2
      obtain ⟨left, contents⟩ := exchanged rep.handles holds2
      refine agrees_ok (.code 0) ?_ ?_ left contents.symm ⟨fun _ => rfl, fun _ => rfl⟩
      · rw [contentStep, ← hfresh, content_at, at_i]
        simp only [Option.map_some, (whole_iff e).mpr complete, if_true]
        rfl
      · simp only [poolStep, hdata, handle_at rep, at_i, Option.map_some] at hreplace ⊢
        rw [hreplace]
        rfl
    · have hreplace := leaves good
      refine refused ?_ ?_
      · rw [contentStep, ← hfresh, content_at, at_i]
        cases d with
        | none => rfl
        | some d =>
          have missing : (content e).whole = false := by
            rw [Bool.eq_false_iff]
            exact fun whole => good ⟨(whole_iff e).mp whole, by simp⟩
          simp [missing]
      · rw [handle_at rep, at_i]
        exact hreplace

theorem dup_agrees (rep : Describes s es F) (mem dup dataMem buffer : Bool) (i : Nat) :
    Agrees s es F (.dup mem dup dataMem buffer i) := by
  cases at_i : es[i]? with
  | none =>
    refine agrees_same rep (.entry none) ?_ ?_ trivial
    · cases mem <;> simp [contentStep, at_i]
    · simp [poolStep, handle_at rep, at_i, entryDup]
  | some e =>
    obtain ⟨fails, stops, copies⟩ := entryDup_image exhausts_tracks mem dup dataMem buffer
      rep.exhausts (entry_le at_i)
    cases mem with
    | false =>
      refine agrees_same rep (.entry none) ?_ ?_ trivial
      · simp [contentStep]
      · simp [poolStep, handle_at rep, at_i, fails rfl]
    | true =>
      cases hcopy : copyContent dup dataMem buffer (content e) with
      | error fault =>
        refine agrees_error fault ?_ ?_
        · simp [contentStep, at_i, hcopy, Except.map]
        · simp [poolStep, handle_at rep, at_i, stops rfl fault hcopy]
      | ok c =>
        obtain ⟨copy, σ', hdup, rfl, holds'⟩ := copies rfl c hcopy
        have hfields := loadEntry_image holds'.owns (Multiset.le_add_right _ _)
        have new : Describes ⟨σ', s.entries ++ [copy.addr]⟩ (es ++ [copy]) (0 + F) := by
          refine ⟨by simp [rep.handles], exhausts_tracks.congr holds' ?_⟩
          simp only [List.map_append, List.map_cons, List.map_nil, List.sum_append, List.sum_cons,
            List.sum_nil]
          abel
        have contents : (es ++ [copy]).map content = es.map content ++ [content copy] := by simp
        refine agrees_ok (.entry (some ((content copy).key.isSome, (content copy).value.isSome)))
          ?_ ?_ new contents ⟨fun _ => trivial, fun _ => rfl⟩
        · simp [contentStep, at_i, hcopy, Except.map]
        · simp [poolStep, handle_at rep, at_i, hdup, hfields, content]

/-- Every call does on the store what it does on the contents. -/
theorem poolStep_agrees (rep : Describes s es F) (call : Call) : Agrees s es F call := by
  cases call with
  | create dataMem mem key size bytes => exact create_agrees rep dataMem mem key size bytes
  | dup mem dup dataMem buffer i => exact dup_agrees rep mem dup dataMem buffer i
  | replace dataMem i key size bytes => exact replace_agrees rep dataMem i key size bytes
  | refill i size bytes => exact refill_agrees rep i size bytes
  | compare i j => exact compare_agrees rep i j
  | read i => exact read_agrees rep i
  | destroy i => exact destroy_agrees rep i

end Steps

/-- A caller that begins without entries cannot tell the entries of the store from a
list of contents: whatever calls it makes, and whichever allocations fail, all that it
is told is the same, and so is the fault that ends the run, if one does. -/
theorem pool_like_contents (σ0 : Store) (calls : List Call) :
    trace poolStep calls ⟨σ0, []⟩ = trace contentStep calls [] := by
  refine trace_eq (fun s cs => ∃ es F, Describes s es F ∧ es.map content = cs) ?_ calls ?_
  · rintro s _ call ⟨es, F, rep, rfl⟩
    have agrees := poolStep_agrees rep call
    refine ⟨agrees.fails, ?_⟩
    intro answer cs h
    obtain ⟨s', es', lost, hstep, rep', same, _⟩ := agrees.returns answer cs h
    exact ⟨s', hstep, es', _, rep', same⟩
  · obtain ⟨F, exhausts⟩ := exists_exhausts σ0
    exact ⟨[], F, ⟨rfl, by simpa using exhausts⟩, rfl⟩

/-- The caller destroys what it still has, from the last entry to the first. -/
def destroyAll (σ : Store) : List Nat → Except Fault Store
  | [] => pure σ
  | entry :: entries => do
    let σ ← destroyAll σ entries
    let r ← ListMemory.entryDestroy σ (some entry)
    pure r.2

/-- No copy came out with a part missing. -/
def CopiedWhole : Call → Answer → Prop
  | .dup .., answer => answer = .entry none ∨ answer = .entry (some (true, true))
  | _, _ => True

/-- The call leaves nothing behind that no later call can release. -/
def Clean (call : Call) (answer : Answer) : Prop := Taken call answer ∧ CopiedWhole call answer

section Releases

variable {s : Pool} {es : List (Ptr Entry)} {F : Image} {call : Call} {answer : Answer}

/-- Entries without a part stay in the store. -/
def leftovers (es : List (Ptr Entry)) : Image :=
  ((es.filter fun e => !(content e).whole).map entryImage).sum

theorem destroyAll_image {σ : Store} (es : List (Ptr Entry)) {F : Image}
    (holds : Exhausts σ ((es.map entryImage).sum + F)) :
    ∃ σ', destroyAll σ (es.map Ptr.addr) = .ok σ' ∧ Exhausts σ' (leftovers es + F) := by
  induction es generalizing F with
  | nil => exact ⟨σ, rfl, holds⟩
  | cons e es ih =>
    have parts : Exhausts σ ((es.map entryImage).sum + (entryImage e + F)) := by
      refine exhausts_tracks.congr holds ?_
      rw [List.map_cons, List.sum_cons]
      abel
    obtain ⟨σ1, hrest, holds1⟩ := ih parts
    have last : Exhausts σ1 (entryImage e + (leftovers es + F)) := by
      refine exhausts_tracks.congr holds1 ?_
      abel
    by_cases complete : Complete e
    · obtain ⟨σ2, hdestroy, holds2⟩ := entryDestroy_complete exhausts_tracks complete last
      refine ⟨σ2, ?_, ?_⟩
      · simp only [List.map_cons, destroyAll, hrest, hdestroy, ok_bind, pure_eq_ok]
      · simpa [leftovers, (whole_iff e).mpr complete] using holds2
    · have hdestroy := entryDestroy_incomplete exhausts_tracks complete last
      refine ⟨σ1, ?_, ?_⟩
      · simp only [List.map_cons, destroyAll, hrest, hdestroy, ok_bind, pure_eq_ok]
      · have missing : (content e).whole = false := by
          rw [Bool.eq_false_iff]
          exact mt (whole_iff e).mp complete
        refine exhausts_tracks.congr last ?_
        simp only [leftovers, missing, List.filter_cons, Bool.not_false, if_true, List.map_cons,
          List.sum_cons]
        abel

theorem leftovers_eq_zero_iff (es : List (Ptr Entry)) :
    leftovers es = 0 ↔ ∀ c ∈ es.map content, c.whole = true := by
  induction es with
  | nil => simp [leftovers]
  | cons e es ih =>
    cases whole : (content e).whole with
    | true => simpa [leftovers, whole] using ih
    | false => simp [leftovers, whole, entryImage]

def AllWhole (cs : List Content) : Prop := ∀ c ∈ cs, c.whole = true

theorem set_whole {cs : List Content} {i : Nat} {c x : Content} (at_i : cs[i]? = some c)
    (same : x.whole = c.whole) : AllWhole (cs.set i x) ↔ AllWhole cs := by
  obtain ⟨pre, post, rfl, rfl⟩ := split_at at_i
  rw [List.set_append_right _ _ le_rfl, Nat.sub_self, List.set_cons_zero]
  simp only [AllWhole, List.mem_append, List.mem_cons, or_imp, forall_and, forall_eq, same]

theorem erase_whole {cs : List Content} {i : Nat} {c : Content} (at_i : cs[i]? = some c)
    (whole : c.whole = true) : AllWhole (cs.eraseIdx i) ↔ AllWhole cs := by
  obtain ⟨pre, post, rfl, rfl⟩ := split_at at_i
  rw [eraseIdx_middle]
  simp [AllWhole, or_imp, forall_and, whole]

theorem append_whole (cs : List Content) (c : Content) :
    AllWhole (cs ++ [c]) ↔ AllWhole cs ∧ c.whole = true := by
  simp [AllWhole, or_imp, forall_and]

/-- Only a copy can be without a part, and nothing repairs it. -/
theorem contentStep_whole {cs cs' : List Content} (h : contentStep cs call = .ok (answer, cs')) :
    AllWhole cs' ↔ AllWhole cs ∧ CopiedWhole call answer := by
  cases call with
  | create dataMem mem key size bytes =>
    simp only [contentStep] at h
    split at h
    · cases h
      rw [append_whole]
      simp [CopiedWhole, Content.whole]
    · cases h
      simp [CopiedWhole]
  | dup mem dup dataMem buffer i =>
    simp only [contentStep] at h
    split at h
    · rename_i c _
      cases hcopy : copyContent dup dataMem buffer c with
      | error fault => simp [hcopy, Except.map] at h
      | ok copy =>
        rw [hcopy] at h
        cases h
        rw [append_whole]
        simp [CopiedWhole, Content.whole]
    · cases h
      simp [CopiedWhole]
  | replace dataMem i key size bytes =>
    simp only [contentStep] at h
    split at h
    · rename_i c value at_i _
      split_ifs at h with whole
      · cases h
        have same : (⟨some key, some value⟩ : Content).whole = c.whole := whole.symm
        rw [set_whole at_i same]
        simp [CopiedWhole]
      · cases h
        simp [CopiedWhole]
    · cases h
      simp [CopiedWhole]
  | refill i size bytes =>
    simp only [contentStep] at h
    split at h
    · cases h
    · rename_i c at_i
      split_ifs at h with missing
      cases h
      have same : (⟨c.key, some (size, bytes)⟩ : Content).whole = c.whole := by
        simp [Content.whole, Option.isSome_iff_ne_none.mpr missing]
      rw [set_whole at_i same]
      simp [CopiedWhole]
  | compare i j =>
    cases h
    simp [CopiedWhole]
  | read i =>
    simp only [contentStep] at h
    split at h <;> cases h
    simp [CopiedWhole]
  | destroy i =>
    simp only [contentStep] at h
    split at h
    · cases h
      simp [CopiedWhole]
    · rename_i c at_i
      split_ifs at h with whole
      · cases h
        rw [erase_whole at_i whole]
        simp [CopiedWhole]
      · cases h
        simp [CopiedWhole]

/-- What a run leaves: the caller's entries, and the blocks no pointer is left to. -/
theorem pool_run {σ0 : Store} {history : List (Event Pool Call Answer)}
    (run : Run poolStep ⟨σ0, []⟩ history s) (exhausts : Exhausts σ0 F) :
    ∃ es lost, Describes s es (lost + F) ∧
      (lost = 0 ↔ ∀ e ∈ history, Taken e.op e.result) ∧
      (AllWhole (es.map content) ↔ ∀ e ∈ history, CopiedWhole e.op e.result) := by
  induction run with
  | start => exact ⟨[], 0, ⟨rfl, by simpa using exhausts⟩, by simp, by simp [AllWhole]⟩
  | @next history s call answer s' earlier last ih =>
    obtain ⟨es, lost, rep, hlost, hwhole⟩ := ih
    have agrees := poolStep_agrees rep call
    cases hcontent : contentStep (es.map content) call with
    | error fault =>
      rw [agrees.fails fault hcontent] at last
      cases last
    | ok out =>
      obtain ⟨answer', cs⟩ := out
      obtain ⟨s'', es', lost', hstep, rep', rfl, taken⟩ := agrees.returns answer' cs hcontent
      rw [hstep] at last
      cases last
      refine ⟨es', lost' + lost, ⟨rep'.handles, by rw [add_assoc]; exact rep'.exhausts⟩, ?_, ?_⟩
      · rw [add_eq_zero, taken, hlost]
        simp only [List.mem_cons, forall_eq_or_imp]
      · rw [contentStep_whole hcontent, hwhole, and_comm]
        simp only [List.mem_cons, forall_eq_or_imp]

end Releases

/-- Whatever calls a caller has made, destroying all entries it still has makes no invalid
access, and the store is then as before exactly if no call left anything behind. -/
theorem pool_released_iff {σ0 : Store} {history : List (Event Pool Call Answer)} {s : Pool}
    (run : Run poolStep ⟨σ0, []⟩ history s) :
    ∃ σ, destroyAll s.store s.entries = .ok σ ∧
      (σ.cell = σ0.cell ↔ ∀ e ∈ history, Clean e.op e.result) := by
  obtain ⟨F, exhausts⟩ := exists_exhausts σ0
  obtain ⟨es, lost, rep, hlost, hwhole⟩ := pool_run run exhausts
  obtain ⟨σ, hdestroy, left⟩ := destroyAll_image es rep.exhausts
  rw [← rep.handles] at hdestroy
  refine ⟨σ, hdestroy, ?_⟩
  rw [← add_assoc] at left
  rw [exhausts.restored_iff left, add_eq_zero, leftovers_eq_zero_iff, hlost]
  have parts : AllWhole (es.map content) ↔ ∀ e ∈ history, CopiedWhole e.op e.result := hwhole
  rw [AllWhole] at parts
  rw [parts]
  simp only [Clean, forall_and]
  exact and_comm

/-- An entry is made, and a copy of it that gets no key. -/
theorem pool_released_sample : ∃ history s σ,
    Run poolStep ⟨Heap.empty, []⟩ history s ∧ history.length = 2 ∧
      destroyAll s.store s.entries = .ok σ ∧ σ.cell ≠ Heap.empty.cell := by
  obtain ⟨history, s, played, two, e, mem, op, result⟩ : ∃ history s,
      play poolStep [.create true true keyA 1 (some (keyA.map Subtype.val)),
        .dup true false true true 0] [] ⟨Heap.empty, []⟩ = .ok (history, s) ∧
      history.length = 2 ∧ ∃ e ∈ history, e.op = .dup true false true true 0 ∧
        e.result = .entry (some (false, true)) :=
    ⟨_, _, rfl, rfl, _, List.mem_cons_self, rfl, rfl⟩
  have run := play_run _ .start played
  obtain ⟨σ, hdestroy, restored⟩ := pool_released_iff run
  refine ⟨history, s, σ, run, two, hdestroy, ?_⟩
  intro same
  have clean := (restored.mp same e mem).2
  rw [op, result] at clean
  exact absurd clean (by simp [CopiedWhole])

end EntryPool
