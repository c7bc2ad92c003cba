import RemoteTable.ListImage
import RemoteTable.TableMemory

/-!
# The table on the store refines the table on values

The image of a table is its own block, the array of buckets and the images of
the lists. The addresses of table, array and list blocks never change; they
are the layout. A call on the store of the image of a table returns what the
call on the value returns and leaves the image of its result.
-/

namespace TableImage

open CStrings Memory Entries ListOps ListMemory ListImage Ownership Tables TableMemory

structure Layout where
  table : Nat
  array : Nat
  lists : List Nat

def bucketsImage : List Nat → List ListT → Image
  | l :: ls, list :: lists => listImage l list + bucketsImage ls lists
  | _, _ => 0

def tableImage (L : Layout) (T : Table) : Image :=
  {(L.table, .table (some L.array) T.size)} +
    ({(L.array, .array (L.lists.map some))} + bucketsImage L.lists T.lists)

/-- The store holds the table, and `F` besides. -/
structure Represents (σ : Store) (L : Layout) (T : Table) (F : Image) : Prop where
  length_eq : L.lists.length = T.lists.length
  owns : Owns σ (tableImage L T + F)

/-- One bucket and the rest, which does not depend on it. -/
theorem bucketsImage_split {ls : List Nat} {lists : List ListT} (same : ls.length = lists.length)
    {i : Nat} (hi : i < lists.length) : ∃ l R, ls[i]? = some l ∧
      bucketsImage ls lists = listImage l lists[i] + R ∧
      ∀ list, bucketsImage ls (lists.set i list) = listImage l list + R := by
  induction lists generalizing ls i with
  | nil => cases hi
  | cons first lists ih =>
    cases ls with
    | nil => cases same
    | cons l ls =>
      cases i with
      | zero => exact ⟨l, bucketsImage ls lists, rfl, rfl, fun _ => rfl⟩
      | succ i =>
        obtain ⟨l', R, hl', hsplit, hset⟩ :=
          ih (Nat.succ.inj same) (Nat.lt_of_succ_lt_succ hi)
        refine ⟨l', listImage l first + R, hl', ?_, ?_⟩
        · rw [bucketsImage, hsplit]
          simp only [List.getElem_cons_succ]
          abel
        · intro list
          rw [List.set_cons_succ, bucketsImage, hset]
          abel

theorem index_image {σ : Store} {T : Table} {k : CString} {key : Nat} (hkey : loadChars σ (some key) = .ok k) :
    TableMemory.hashFunction σ (some key) T.size = .ok (T.index k) := by
  by_cases hsize : T.size ≤ 0
  · simp [TableMemory.hashFunction, Table.index, Tables.hashFunction, hsize]
  · simp only [TableMemory.hashFunction, if_neg hsize, hkey, ok_bind, pure_eq_ok, Table.index]

section Reads

variable {σ : Store} {L : Layout} {T : Table} {F : Image} {k : CString} (rep : Represents σ L T F)

include rep

theorem loadTable_image : loadTable σ (some L.table) = .ok (some L.array, T.size) := by
  have hload := rep.owns.load (a := L.table) (b := .table (some L.array) T.size)
    (by simp [tableImage])
  simp [loadTable, hload]

theorem loadArray_image : loadArray σ (some L.array) = .ok (L.lists.map some) := by
  have hload := rep.owns.load (a := L.array) (b := .array (L.lists.map some))
    (by simp [tableImage])
  simp [loadArray, hload]

theorem element_image {i : Nat} {l : Nat} (hl : L.lists[i]? = some l) :
    element σ L.table i = .ok (some l) := by
  simp only [element, loadTable_image rep, loadArray_image rep, ok_bind, Int.natCast_nonneg,
    if_true, Int.toNat_natCast, List.getElem?_map, hl, Option.map_some, pure_eq_ok]

theorem element_out_of_range (h : ¬ InRange T k) :
    element σ L.table (T.index k) = .error .outOfBounds := by
  simp only [element, loadTable_image rep, loadArray_image rep, ok_bind]
  by_cases hlo : 0 ≤ T.index k
  · have hhi : ¬ T.index k < T.size := fun hhi => h ⟨hlo, hhi⟩
    have hle : (L.lists.map some).length ≤ (T.index k).toNat := by
      rw [List.length_map, rep.length_eq, T.length_eq]
      omega
    simp [hlo, List.getElem?_eq_none hle]
  · simp [hlo]

/-- The bucket of a key, its address and the rest of the image. -/
theorem chain_image (range : InRange T k) : ∃ l R, element σ L.table (T.index k) = .ok (some l) ∧
    tableImage L T = listImage l (T.chain k) + R ∧
    ∀ list, tableImage L (T.setChain k list) = listImage l list + R := by
  have hlt := range.lt_length
  obtain ⟨l, R, hl, hsplit, hset⟩ := bucketsImage_split rep.length_eq hlt
  have hchain : T.lists[(T.index k).toNat] = T.chain k := by
    simp [Table.chain, hlt]
  have helement := element_image rep hl
  rw [Int.toNat_of_nonneg range.1] at helement
  refine ⟨l, {(L.table, .table (some L.array) T.size)} +
    {(L.array, .array (L.lists.map some))} + R, helement, ?_, ?_⟩
  · rw [tableImage, hsplit, hchain]
    abel
  · intro list
    have hlists : (T.setChain k list).lists = T.lists.set (T.index k).toNat list := rfl
    rw [tableImage, hlists, hset, Table.setChain_size]
    abel

end Reads

section Calls

variable {σ : Store} {L : Layout} {T : Table} {k : CString}

/-- All entries of the table have a key and a value. -/
def AllComplete (T : Table) : Prop := ∀ list ∈ T.lists, ∀ o ∈ list.entries, Complete o

theorem complete_chain {P : Prop} (fits : P ∨ AllComplete T) (range : InRange T k) :
    P ∨ ∀ o ∈ (T.chain k).entries, Complete o := by
  refine fits.imp_right fun complete => complete (T.chain k) ?_
  have hlt := range.lt_length
  simp [Table.chain, hlt]

section Tracked

variable {R : Store → Image → Prop} (tracks : Tracks R) {F : Image}

include tracks

/-- `table_put` takes over the key and the value, or leaves `rest` behind. -/
theorem tablePut_tracked (mem node : Bool) {key : Ptr CString} {value : Ptr Data}
    (same : L.lists.length = T.lists.length) (fits : Forgets R ∨ AllComplete T)
    (holds : R σ (tableImage L T + (keyImage key + dataImage value + F))) :
    (∀ fault, Tables.tablePut (if mem then some σ.next else none)
        (if node then some (σ.next + 1) else none) T (some key) (some value) = .error fault →
      TableMemory.tablePut mem node σ (some L.table) (some key.addr) (some value.addr) =
        .error fault) ∧
    ∀ c T', Tables.tablePut (if mem then some σ.next else none)
        (if node then some (σ.next + 1) else none) T (some key) (some value) = .ok (c, T') →
      ∃ rest σ', rest ≠ 0 ∧
        TableMemory.tablePut mem node σ (some L.table) (some key.addr) (some value.addr) =
          .ok (c, σ') ∧
        R σ' (tableImage L T' + (refused c rest + F)) := by
  have rep : Represents σ L T (keyImage key + dataImage value + F) := ⟨same, tracks.owns holds⟩
  have hkey : loadChars σ (some key.addr) = .ok key.obj :=
    loadChars_image rep.owns (((Multiset.le_add_right _ _).trans (Multiset.le_add_right _ _)).trans
      (Multiset.le_add_left _ _))
  simp only [TableMemory.tablePut, loadTable_image rep, ok_bind, index_image hkey]
  cases mem with
  | false =>
    simp only [ListMemory.entryCreate, malloc]
    by_cases range : InRange T key.obj
    · obtain ⟨l, G, helement, himage, hset⟩ := chain_image rep range
      rw [tablePut_eq range]
      refine ⟨by simp, ?_⟩
      rintro c T' ⟨⟩
      refine ⟨keyImage key + dataImage value, σ, by simp [keyImage],
        by simp [helement, ListMemory.listAdd, ListOps.listAdd, Entries.entryCreate], ?_⟩
      rw [hset]
      simpa [ListOps.listAdd, Entries.entryCreate, himage] using holds
    · rw [tablePut_out_of_range range]
      simp [element_out_of_range rep range]
  | true =>
    have holds1 : R (σ.alloc (.entry (some key.addr) (some value.addr)))
        (tableImage L T + (entryImage ⟨σ.next, ⟨some key, some value⟩⟩ + F)) := by
      refine tracks.congr (tracks.alloc _ holds) ?_
      simp only [entryImage, optionImage, Option.map_some]
      abel
    have rep1 : Represents (σ.alloc (.entry (some key.addr) (some value.addr))) L T
        (entryImage ⟨σ.next, ⟨some key, some value⟩⟩ + F) := ⟨same, tracks.owns holds1⟩
    simp only [ListMemory.entryCreate, malloc, if_true]
    by_cases range : InRange T key.obj
    · obtain ⟨l, G, helement, himage, hset⟩ := chain_image rep1 range
      have parts : R (σ.alloc (.entry (some key.addr) (some value.addr)))
          (listImage l (T.chain key.obj) + entryImage ⟨σ.next, ⟨some key, some value⟩⟩ +
            (G + F)) := by
        refine tracks.congr holds1 ?_
        rw [himage]
        abel
      obtain ⟨c, list', σ', hvalue, hadd, holds'⟩ :=
        listAdd_image tracks node (complete_chain fits range) parts
      have hcreate : Entries.entryCreate (some σ.next) (some key) (some value) =
          some ⟨σ.next, ⟨some key, some value⟩⟩ := rfl
      simp only [Heap.alloc_next] at hvalue
      rw [tablePut_eq range, hcreate, hvalue]
      refine ⟨by simp, ?_⟩
      rintro c T' ⟨⟩
      refine ⟨entryImage ⟨σ.next, ⟨some key, some value⟩⟩, σ', by simp [entryImage], ?_, ?_⟩
      · simp only [helement, ok_bind]
        exact hadd
      · refine tracks.congr holds' ?_
        rw [hset]
        abel
    · rw [tablePut_out_of_range range]
      simp [element_out_of_range rep1 range]

theorem tableRemove_tracked {key : Nat} (same : L.lists.length = T.lists.length)
    (fits : Forgets R ∨ AllComplete T) (holds : R σ (tableImage L T + F))
    (hkey : loadChars σ (some key) = .ok k) :
    (∀ fault, Tables.tableRemove T (some k) = .error fault →
      TableMemory.tableRemove σ (some L.table) (some key) = .error fault) ∧
    ∀ c T', Tables.tableRemove T (some k) = .ok (c, T') →
      ∃ σ', TableMemory.tableRemove σ (some L.table) (some key) = .ok (c, σ') ∧
        R σ' (tableImage L T' + F) := by
  have rep : Represents σ L T F := ⟨same, tracks.owns holds⟩
  simp only [TableMemory.tableRemove, loadTable_image rep, ok_bind, index_image hkey]
  by_cases range : InRange T k
  · obtain ⟨l, G, helement, himage, hset⟩ := chain_image rep range
    have parts : R σ (listImage l (T.chain k) + (G + F)) := by
      refine tracks.congr holds ?_
      rw [himage, add_assoc]
    obtain ⟨hfault, hok⟩ := listRemove_image tracks (complete_chain fits range) parts hkey
    rw [tableRemove_eq range]
    simp only [helement, ok_bind]
    constructor
    · intro fault h
      exact hfault fault ((bind_pure_eq_error_iff _ _ _).mp h)
    · intro c T' h
      obtain ⟨⟨c', list'⟩, hremove, hr⟩ := (bind_eq_ok_iff _ _ _).mp h
      cases hr
      obtain ⟨σ', hcall, holds'⟩ := hok _ _ hremove
      refine ⟨σ', hcall, tracks.congr holds' ?_⟩
      rw [hset, add_assoc]
  · rw [tableRemove_out_of_range range]
    simp [element_out_of_range rep range]

end Tracked

theorem put_lists_length {c : Int} {T' : Table} {mem node : Option Nat} {key : Ptr CString}
    {value : Ptr Data} (h : Tables.tablePut mem node T (some key) (some value) = .ok (c, T')) :
    T'.lists.length = T.lists.length := by
  by_cases range : InRange T key.obj
  · rw [tablePut_eq range] at h
    cases h
    exact List.length_set ..
  · rw [tablePut_out_of_range range] at h
    cases h

theorem remove_lists_length {c : Int} {T' : Table}
    (h : Tables.tableRemove T (some k) = .ok (c, T')) : T'.lists.length = T.lists.length := by
  by_cases range : InRange T k
  · rw [tableRemove_eq range] at h
    obtain ⟨r, _, hr⟩ := (bind_eq_ok_iff _ _ _).mp h
    cases hr
    exact List.length_set ..
  · rw [tableRemove_out_of_range range] at h
    cases h

theorem tablePut_image (mem node : Bool) {key : Ptr CString} {value : Ptr Data}
    (rep : Represents σ L T (keyImage key + dataImage value)) :
    (∀ fault, Tables.tablePut (if mem then some σ.next else none)
        (if node then some (σ.next + 1) else none) T (some key) (some value) = .error fault →
      TableMemory.tablePut mem node σ (some L.table) (some key.addr) (some value.addr) =
        .error fault) ∧
    ∀ c T', Tables.tablePut (if mem then some σ.next else none)
        (if node then some (σ.next + 1) else none) T (some key) (some value) = .ok (c, T') →
      ∃ σ', TableMemory.tablePut mem node σ (some L.table) (some key.addr) (some value.addr) =
        .ok (c, σ') ∧ Represents σ' L T' 0 := by
  have owns : Owns σ (tableImage L T + (keyImage key + dataImage value + 0)) := by
    rw [add_zero]
    exact rep.owns
  obtain ⟨hfault, hok⟩ :=
    tablePut_tracked owns_tracks mem node rep.length_eq (Or.inl owns_forgets) owns
  refine ⟨hfault, ?_⟩
  intro c T' h
  obtain ⟨rest, σ', _, hcall, owns'⟩ := hok c T' h
  refine ⟨σ', hcall, rep.length_eq.trans (put_lists_length h).symm, ?_⟩
  rw [add_zero]
  exact owns'.left

theorem tableRemove_image {key : Nat} (rep : Represents σ L T 0)
    (hkey : loadChars σ (some key) = .ok k) :
    (∀ fault, Tables.tableRemove T (some k) = .error fault →
      TableMemory.tableRemove σ (some L.table) (some key) = .error fault) ∧
    ∀ c T', Tables.tableRemove T (some k) = .ok (c, T') →
      ∃ σ', TableMemory.tableRemove σ (some L.table) (some key) = .ok (c, σ') ∧
        Represents σ' L T' 0 := by
  obtain ⟨hfault, hok⟩ :=
    tableRemove_tracked owns_tracks rep.length_eq (Or.inl owns_forgets) rep.owns hkey
  refine ⟨hfault, ?_⟩
  intro c T' h
  obtain ⟨σ', hcall, owns'⟩ := hok c T' h
  exact ⟨σ', hcall, rep.length_eq.trans (remove_lists_length h).symm, owns'⟩

theorem entryImage_le {tail : Option Nat} {nodes : List Node} {e : Ptr Entry}
    (he : e ∈ nodes.filterMap Node.entry) : entryImage e ≤ chainImage tail nodes := by
  induction nodes with
  | nil => cases he
  | cons n rest ih =>
    have hrest : chainImage tail rest ≤ chainImage tail (n :: rest) := chainImage_tail_le le_rfl
    cases hn : n.entry with
    | none =>
      rw [List.filterMap_cons, hn] at he
      exact (ih he).trans hrest
    | some o =>
      rw [List.filterMap_cons, hn, List.mem_cons] at he
      rcases he with rfl | he
      · have hentry := chainImage_entry_le (le_refl (chainImage tail (n :: rest)))
        rwa [hn] at hentry
      · exact (ih he).trans hrest

/-- The copy `table_get` returns lies in blocks of its own. -/
theorem tableGet_image (mem buffer : Bool) {key : Nat} (rep : Represents σ L T 0)
    (hkey : loadChars σ (some key) = .ok k) :
    (∀ fault, Tables.tableGet (if mem then some σ.next else none)
        (if buffer then some (σ.next + 1) else none) T (some k) = .error fault →
      TableMemory.tableGet mem buffer σ (some L.table) (some key) = .error fault) ∧
    ∀ d, Tables.tableGet (if mem then some σ.next else none)
        (if buffer then some (σ.next + 1) else none) T (some k) = .ok d →
      ∃ σ', TableMemory.tableGet mem buffer σ (some L.table) (some key) =
        .ok (d.map Ptr.addr, σ') ∧ Represents σ' L T (optionImage dataImage d) := by
  simp only [TableMemory.tableGet, loadTable_image rep, ok_bind, index_image hkey]
  by_cases range : InRange T k
  · obtain ⟨l, R, helement, himage, _⟩ := chain_image rep range
    have parts : Owns σ (listImage l (T.chain k) + R) := by
      rw [← himage]
      simpa using rep.owns
    rw [tableGet_eq range]
    simp only [helement, ok_bind, listGet_image parts hkey]
    cases hget : ListOps.listGet (T.chain k) (some k) with
    | error fault => simp [Except.map]
    | ok entry =>
      simp only [Except.map, ok_bind]
      cases entry with
      | none =>
        refine ⟨by simp, ?_⟩
        rintro d ⟨⟩
        exact ⟨σ, rfl, rep⟩
      | some e =>
        have hmem : e ∈ (T.chain k).head.filterMap Node.entry :=
          List.mem_of_find?_eq_some (listGet_first hget).symm
        have hentry : entryImage e ≤ tableImage L T := by
          rw [himage, listImage]
          exact ((entryImage_le hmem).trans (Multiset.le_add_left _ _)).trans
            (Multiset.le_add_right _ _)
        have hvalue : optionImage dataImage e.obj.value ≤ tableImage L T :=
          ((Multiset.le_add_left _ _).trans (Multiset.le_add_left _ _)).trans hentry
        have owns : Owns σ (tableImage L T) := rep.owns.left
        obtain ⟨hfault, hok⟩ := dataDup_image owns_tracks mem buffer owns hvalue
        simp only [Option.map_some, loadEntry_image owns hentry, ok_bind]
        refine ⟨hfault, ?_⟩
        intro d hd
        obtain ⟨σ', hcall, owns'⟩ := hok d hd
        refine ⟨σ', hcall, rep.length_eq, owns'.congr ?_⟩
        abel
  · rw [tableGet_out_of_range range]
    simp [element_out_of_range rep range]

theorem sizeLoop_image (rep : Represents σ L T 0) {i m : Nat} (hm : i + m = T.lists.length)
    (acc : Int) : sizeLoop σ L.table i m acc =
      .ok ((T.lists.drop i).foldl (fun size list => size + ListOps.listSize list) acc) := by
  induction m generalizing i acc with
  | zero =>
    have hnil : T.lists.drop i = [] := List.drop_eq_nil_of_le (by omega)
    simp [sizeLoop, hnil]
  | succ m ih =>
    have hi : i < T.lists.length := by omega
    obtain ⟨l, R, hl, hsplit, _⟩ := bucketsImage_split rep.length_eq hi
    have hle : listImage l T.lists[i] ≤ tableImage L T + 0 := by
      rw [tableImage, hsplit]
      exact (((Multiset.le_add_right _ _).trans (Multiset.le_add_left _ _)).trans
        (Multiset.le_add_left _ _)).trans (Multiset.le_add_right _ _)
    have hsize : ListMemory.listSize σ (some l) = .ok (ListOps.listSize T.lists[i]) := by
      simp only [ListMemory.listSize, loadList_image rep.owns hle, ok_bind, pure_eq_ok,
        ListOps.listSize]
    simp only [sizeLoop, element_image rep hl, ok_bind, hsize]
    rw [ih (by omega), List.drop_eq_getElem_cons hi, List.foldl_cons]

theorem tableSize_image (rep : Represents σ L T 0) :
    TableMemory.tableSize σ (some L.table) = .ok (Tables.tableSize T) := by
  simp only [TableMemory.tableSize, loadTable_image rep, ok_bind]
  rw [sizeLoop_image rep (by rw [T.length_eq]; omega), List.drop_zero]
  rfl

end Calls

section Creation

def emptyTable (n : Int) : Table := ⟨n, List.replicate n.toNat emptyList, by simp⟩

theorem bucketsImage_concat {ls : List Nat} (l : Nat) :
    bucketsImage (ls ++ [l]) (List.replicate (ls.length + 1) emptyList) =
      bucketsImage ls (List.replicate ls.length emptyList) + {(l, .list 0 none)} := by
  induction ls with
  | nil => simp [bucketsImage, listImage, chainImage, emptyList]
  | cons first ls ih =>
    rw [List.length_cons, List.replicate_succ, List.replicate_succ, List.cons_append, bucketsImage,
      bucketsImage, ← List.replicate_succ, ih, add_assoc]

/-- The blocks of lists without nodes. -/
def emptyLists (ls : List Nat) : Image := bucketsImage ls (List.replicate ls.length emptyList)

theorem emptyLists_eq_zero_iff (ls : List Nat) : emptyLists ls = 0 ↔ ls = [] := by
  cases ls with
  | nil => simp [emptyLists, bucketsImage]
  | cons l ls => simp [emptyLists, bucketsImage, listImage, List.replicate_succ]

theorem emptyLists_mem {ls : List Nat} {l : Nat} (hl : l ∈ ls) :
    (l, Block.list 0 none) ∈ emptyLists ls := by
  induction ls with
  | nil => cases hl
  | cons first ls ih =>
    rw [emptyLists, List.length_cons, List.replicate_succ, bucketsImage, Multiset.mem_add]
    rcases List.mem_cons.mp hl with rfl | hl
    · exact Or.inl (by simp [listImage, emptyList])
    · exact Or.inr (ih hl)

/-- `list_destroy` refuses a list without nodes, so nothing is released. -/
theorem destroyLists_empty {σ : Store} {a : Nat} {ls : List Nat} {rest : List (Option Nat)}
    {m : Image} (owns : Owns σ m) (array : (a, Block.array (ls.map some ++ rest)) ∈ m)
    (lists : emptyLists ls ≤ m) {j k : Nat} (within : j + k ≤ ls.length) :
    destroyLists a j k σ = .ok σ := by
  induction k generalizing j with
  | zero => rfl
  | succ k ih =>
    have hj : j < ls.length := by omega
    have hload : loadArray σ (some a) = .ok (ls.map some ++ rest) := by
      simp [loadArray, owns.load array]
    have hlist : (ls.map some ++ rest)[j]? = some (some ls[j]) := by
      rw [List.getElem?_append_left (by simpa using hj)]
      simp [hj]
    have hempty : loadList σ (some ls[j]) = .ok (0, none) := by
      have hmem := Multiset.mem_of_le lists (emptyLists_mem (List.getElem_mem hj))
      simp [loadList, owns.load hmem]
    simp only [destroyLists, hload, ok_bind, hlist, listDestroy, hempty, pure_eq_ok]
    exact ih (by omega)

section Tracked

variable {R : Store → Image → Prop} (tracks : Tracks R) {σ : Store} {F : Image}

include tracks

/-- A list that could not be allocated: array and table are released, the
lists made before it are not. -/
theorem rollback_tracked {t a : Nat} {n : Int} {ls : List Nat} {rest : List (Option Nat)}
    (holds : R σ ({(t, .table (some a) n)} + ({(a, .array (ls.map some ++ rest))} +
      (emptyLists ls + F)))) :
    ∃ σ1 σ2, destroyLists a 0 ls.length σ = .ok σ ∧ σ.free a = .ok σ1 ∧ σ1.free t = .ok σ2 ∧
      R σ2 (emptyLists ls + F) := by
  have hnone : destroyLists a 0 ls.length σ = .ok σ := by
    have array : (a, Block.array (ls.map some ++ rest)) ∈ ({(t, .table (some a) n)} +
        ({(a, .array (ls.map some ++ rest))} + (emptyLists ls + F)) : Image) := by simp
    have lists : emptyLists ls ≤ {(t, .table (some a) n)} +
        ({(a, .array (ls.map some ++ rest))} + (emptyLists ls + F)) :=
      ((Multiset.le_add_right _ _).trans (Multiset.le_add_left _ _)).trans
        (Multiset.le_add_left _ _)
    exact destroyLists_empty (tracks.owns holds) array lists (by omega)
  have parts : R σ ({(a, .array (ls.map some ++ rest))} +
      ({(t, .table (some a) n)} + (emptyLists ls + F))) := by
    refine tracks.congr holds ?_
    abel
  obtain ⟨σ1, hfree1, holds1, _⟩ := tracks.free parts
  obtain ⟨σ2, hfree2, holds2, _⟩ := tracks.free holds1
  exact ⟨σ1, σ2, hnone, hfree1, hfree2, holds2⟩

/-- One more list in the array. -/
theorem createList_tracked {t a m : Nat} {n : Int} {ls : List Nat}
    (holds : R σ ({(t, .table (some a) n)} +
      ({(a, .array (ls.map some ++ List.replicate (m + 1) none))} + (emptyLists ls + F)))) :
    ∃ σ', loadArray (σ.alloc (.list 0 none)) (some a) =
        .ok (ls.map some ++ List.replicate (m + 1) none) ∧
      (σ.alloc (.list 0 none)).store a (.array
        ((ls.map some ++ List.replicate (m + 1) none).set ls.length (some σ.next))) = .ok σ' ∧
      R σ' ({(t, .table (some a) n)} +
        ({(a, .array ((ls ++ [σ.next]).map some ++ List.replicate m none))} +
          (emptyLists (ls ++ [σ.next]) + F))) := by
  have holds1 := tracks.alloc (.list 0 none) holds
  have hload : loadArray (σ.alloc (.list 0 none)) (some a) =
      .ok (ls.map some ++ List.replicate (m + 1) none) := by
    have hmem := (tracks.owns holds1).load (a := a)
      (b := .array (ls.map some ++ List.replicate (m + 1) none)) (by simp)
    simp [loadArray, hmem]
  have hset : (ls.map some ++ List.replicate (m + 1) none).set ls.length (some σ.next) =
      (ls ++ [σ.next]).map some ++ List.replicate m none := by
    rw [List.set_append_right _ _ (by simp)]
    simp [List.replicate_succ]
  have parts : R (σ.alloc (.list 0 none))
      ({(a, .array (ls.map some ++ List.replicate (m + 1) none))} +
        ({(t, .table (some a) n)} + {(σ.next, .list 0 none)} + emptyLists ls + F)) := by
    refine tracks.congr holds1 ?_
    abel
  obtain ⟨σ2, hstore, holds2, _⟩ :=
    tracks.store (.array ((ls ++ [σ.next]).map some ++ List.replicate m none)) parts
  refine ⟨σ2, hload, by rw [hset]; exact hstore, tracks.congr holds2 ?_⟩
  have hconcat : emptyLists (ls ++ [σ.next]) = emptyLists ls + {(σ.next, .list 0 none)} := by
    rw [emptyLists, List.length_append, List.length_singleton, bucketsImage_concat]
    rfl
  rw [hconcat]
  abel

/-- The loop of `table_create` fills the array, or fails at some list and
leaves the lists before it. -/
theorem createLoop_tracked (each : Nat → Bool) {t a m : Nat} {n : Int} {ls : List Nat}
    (holds : R σ ({(t, .table (some a) n)} +
      ({(a, .array (ls.map some ++ List.replicate m none))} + (emptyLists ls + F)))) :
    (∃ σ' ls', createLoop each t a ls.length m σ = .ok (none, σ') ∧ ls.length ≤ ls'.length ∧
      (∀ i, ls.length ≤ i → i < ls'.length → each i = true) ∧ each ls'.length = false ∧
      R σ' (emptyLists ls' + F)) ∨
    ∃ σ' ls', createLoop each t a ls.length m σ = .ok (some t, σ') ∧
      ls'.length = ls.length + m ∧
      R σ' ({(t, .table (some a) n)} + ({(a, .array (ls'.map some))} + (emptyLists ls' + F))) := by
  induction m generalizing ls σ with
  | zero => exact Or.inr ⟨σ, ls, rfl, rfl, by simpa using holds⟩
  | succ m ih =>
    cases heach : each ls.length with
    | false =>
      obtain ⟨σ1, σ2, hnone, hfree1, hfree2, holds2⟩ := rollback_tracked tracks holds
      refine Or.inl ⟨σ2, ls, ?_, le_rfl, fun i hlo hhi => by omega, heach, holds2⟩
      simp [createLoop, ListMemory.listCreate, malloc, heach, hnone, hfree1, hfree2]
    | true =>
      obtain ⟨σ2, hload, hstore, next⟩ := createList_tracked tracks holds
      have hlen : (ls ++ [σ.next]).length = ls.length + 1 := by simp
      have hstep : createLoop each t a ls.length (m + 1) σ =
          createLoop each t a (ls ++ [σ.next]).length m σ2 := by
        rw [hlen]
        simp only [createLoop, ListMemory.listCreate, malloc, heach, if_true, hload, ok_bind,
          hstore]
      rw [hstep]
      rcases ih next with ⟨σ', ls', hloop, hle, made, failed, holds'⟩ | ⟨σ', ls', hloop, hls', holds'⟩
      · refine Or.inl ⟨σ', ls', hloop, by omega, ?_, failed, holds'⟩
        intro i hlo hhi
        by_cases hi : i = ls.length
        · rw [hi, heach]
        · exact made i (by omega) hhi
      · exact Or.inr ⟨σ', ls', hloop, by omega, holds'⟩

/-- `table_create` makes the image of the empty table. Where it fails it
leaves nothing exactly if there was no list yet. -/
theorem tableCreate_tracked (mem array : Bool) (each : Nat → Bool) (n : Int) (holds : R σ F) :
    (∃ σ' left, TableMemory.tableCreate mem array each σ n = .ok (none, σ') ∧ R σ' (left + F) ∧
      (left = 0 ↔ mem = false ∨ array = false ∨ each 0 = false)) ∨
    ∃ σ' L, TableMemory.tableCreate mem array each σ n = .ok (some L.table, σ') ∧
      L.lists.length = (emptyTable n).lists.length ∧ R σ' (tableImage L (emptyTable n) + F) := by
  have unchanged : R σ (0 + F) := tracks.congr holds (zero_add F)
  cases mem with
  | false => exact Or.inl ⟨σ, 0, rfl, unchanged, by simp⟩
  | true =>
    cases array with
    | false =>
      obtain ⟨σ', hfree, holds', _⟩ := tracks.free (tracks.alloc (.table none n) holds)
      refine Or.inl ⟨σ', 0, ?_, tracks.congr holds' (zero_add F), by simp⟩
      simp only [TableMemory.tableCreate, malloc, if_true]
      simp [hfree]
    | true =>
      have holds1 : R ((σ.alloc (.table none n)).alloc (.array (List.replicate n.toNat none)))
          ({(σ.next, .table none n)} +
            ({(σ.next + 1, .array (List.replicate n.toNat none))} + F)) := by
        refine tracks.congr (tracks.alloc _ (tracks.alloc _ holds)) ?_
        rw [Heap.alloc_next]
        abel
      obtain ⟨σ2, hstore, holds2, _⟩ := tracks.store (.table (some (σ.next + 1)) n) holds1
      have start : R σ2 ({(σ.next, .table (some (σ.next + 1)) n)} +
          ({(σ.next + 1, .array (([] : List Nat).map some ++ List.replicate n.toNat none))} +
            (emptyLists [] + F))) := by
        simpa [emptyLists, bucketsImage] using holds2
      have hcreate : TableMemory.tableCreate true true each σ n =
          createLoop each σ.next (σ.next + 1) ([] : List Nat).length n.toNat σ2 := by
        simp only [TableMemory.tableCreate, malloc, if_true, Heap.alloc_next, hstore, ok_bind,
          List.length_nil]
      rw [hcreate]
      rcases createLoop_tracked tracks each start with
        ⟨σ', ls, hloop, _, made, failed, holds'⟩ | ⟨σ', ls, hloop, hls, holds'⟩
      · refine Or.inl ⟨σ', emptyLists ls, hloop, holds', ?_⟩
        rw [emptyLists_eq_zero_iff]
        simp only [Bool.true_eq_false, false_or]
        constructor
        · rintro rfl
          exact failed
        · intro hfirst
          by_contra hne
          have hpos : 0 < ls.length := List.length_pos_iff.mpr hne
          rw [made 0 (by simp) hpos] at hfirst
          cases hfirst
      · have hlen : ls.length = n.toNat := by simpa using hls
        refine Or.inr ⟨σ', ⟨σ.next, σ.next + 1, ls⟩, hloop, by simpa [emptyTable] using hlen, ?_⟩
        refine tracks.congr holds' ?_
        rw [tableImage, emptyLists, hlen]
        simp only [emptyTable]
        abel

end Tracked

/-- A table that could be allocated is the image of the empty table. -/
theorem tableCreate_image {mem array : Bool} {each : Nat → Bool} {σ σ' : Store} {n : Int} {t : Nat}
    (created : TableMemory.tableCreate mem array each σ n = .ok (some t, σ')) :
    ∃ L : Layout, L.table = t ∧ Represents σ' L (emptyTable n) 0 := by
  have none_yet : Owns σ 0 := ⟨by simp, by simp⟩
  rcases tableCreate_tracked owns_tracks mem array each n none_yet with
    ⟨_, _, hfailed, _⟩ | ⟨σ1, L, hcreate, same, owns⟩
  · cases created.symm.trans hfailed
  · cases created.symm.trans hcreate
    exact ⟨L, rfl, same, owns⟩

end Creation

end TableImage
