import Mathlib.Data.Multiset.OrderedMonoid
import RemoteTable.TableImage

/-!
# What destroying a table releases

`node_destroy` releases a chain from its end. `list_destroy` refuses a list
without nodes, so that list keeps its block while the array that pointed to it
goes. All else that a table consists of is released once.
-/

namespace TableDestroy

open CStrings Memory Entries ListOps ListMemory ListImage Ownership Tables TableMemory TableImage

section Lists

variable {R : Store → Image → Prop} (tracks : Tracks R) {σ : Store} {F : Image}

include tracks

/-- The node itself goes after the chain behind it. -/
theorem nodeDestroy_tracked (node : Node) (rest : List Node)
    (fits : Forgets R ∨ ∀ o ∈ (node :: rest).filterMap Node.entry, Complete o)
    (holds : R σ (chainImage none (node :: rest) + F)) {fuel : Nat} (enough : rest.length < fuel) :
    ∃ σ', nodeDestroy fuel σ (some node.addr) = .ok (0, σ') ∧ R σ' F := by
  induction rest generalizing node σ F fuel with
  | nil =>
    cases fuel with
    | zero => cases enough
    | succ fuel =>
      have hload := loadNode_image (tracks.owns holds) (Multiset.le_add_right _ _)
      have parts : R σ (optionImage entryImage node.entry +
          ({(node.addr, .node (node.entry.map Ptr.addr) none)} + F)) := by
        refine tracks.congr holds ?_
        simp only [chainImage, headAddr_nil]
        abel
      have own : Forgets R ∨ ∀ o, node.entry = some o → Complete o :=
        fits.imp_right fun complete o ho => complete o (by simp [ho])
      obtain ⟨c, σ1, hdestroy, holds1, _⟩ := entryDestroy_image tracks own parts
      obtain ⟨σ2, hfree, holds2, _⟩ := tracks.free holds1
      refine ⟨σ2, ?_, holds2⟩
      simp only [nodeDestroy, hload, headAddr_nil, ok_bind, pure_eq_ok, hdestroy, hfree]
  | cons next rest ih =>
    cases fuel with
    | zero => cases enough
    | succ fuel =>
      have hload := loadNode_image (tracks.owns holds) (Multiset.le_add_right _ _)
      have parts : R σ (chainImage none (next :: rest) + (optionImage entryImage node.entry +
          ({(node.addr, .node (node.entry.map Ptr.addr) (some next.addr))} + F))) := by
        refine tracks.congr holds ?_
        simp only [chainImage, headAddr_cons]
        abel
      have below : Forgets R ∨ ∀ o ∈ (next :: rest).filterMap Node.entry, Complete o := by
        refine fits.imp_right fun complete o ho => complete o ?_
        rw [List.filterMap_cons]
        split
        · exact ho
        · exact List.mem_cons_of_mem _ ho
      have own : Forgets R ∨ ∀ o, node.entry = some o → Complete o :=
        fits.imp_right fun complete o ho => complete o (by simp [ho])
      obtain ⟨σ1, hnext, holds1⟩ := ih next below parts (Nat.lt_of_succ_lt_succ enough)
      have hload1 : loadNode σ1 (some node.addr) =
          .ok (node.entry.map Ptr.addr, some next.addr) := by
        have hmem := (tracks.owns holds1).load (a := node.addr)
          (b := .node (node.entry.map Ptr.addr) (some next.addr)) (by simp)
        simp [loadNode, hmem]
      obtain ⟨c, σ2, hdestroy, holds2, _⟩ := entryDestroy_image tracks own holds1
      obtain ⟨σ3, hfree, holds3, _⟩ := tracks.free holds2
      refine ⟨σ3, ?_, holds3⟩
      simp only [nodeDestroy, hload, headAddr_cons, ok_bind, hnext, pure_eq_ok, hload1, hdestroy,
        hfree]

/-- What `list_destroy` leaves. -/
def stranded (l : Nat) (list : ListT) : Image := if list.head = [] then listImage l list else 0

omit tracks in
theorem stranded_eq_zero_iff (l : Nat) (list : ListT) : stranded l list = 0 ↔ list.head ≠ [] := by
  by_cases h : list.head = []
  · simp [stranded, h, listImage]
  · simp [stranded, h]

theorem listDestroy_tracked {l : Nat} {list : ListT}
    (fits : Forgets R ∨ ∀ o ∈ list.entries, Complete o) (holds : R σ (listImage l list + F)) :
    ∃ c σ', listDestroy σ (some l) = .ok (c, σ') ∧ R σ' (stranded l list + F) := by
  have owns := tracks.owns holds
  have hlist : listImage l list ≤ listImage l list + F := Multiset.le_add_right _ _
  simp only [listDestroy, loadList_image owns hlist, ok_bind, stranded]
  cases hhead : list.head with
  | nil => exact ⟨-1, σ, rfl, by simpa using holds⟩
  | cons head rest =>
    have chain : list.head = [] ++ head :: rest := hhead
    have parts : R σ (chainImage none (head :: rest) +
        ({(l, .list list.size (some head.addr))} + F)) := by
      refine tracks.congr holds ?_
      rw [listImage, hhead, headAddr_cons]
      abel
    have all : Forgets R ∨ ∀ o ∈ (head :: rest).filterMap Node.entry, Complete o := by
      rw [← hhead]
      exact fits
    obtain ⟨σ1, hnodes, holds1⟩ := nodeDestroy_tracked tracks head rest all parts
      (enough_fuel owns (chainImage_le chain hlist))
    obtain ⟨σ2, hfree, holds2, _⟩ := tracks.free holds1
    refine ⟨0, σ2, ?_, by simpa using holds2⟩
    simp only [headAddr_cons, hnodes, ok_bind, hfree, pure_eq_ok]

end Lists

/-- What the destruction of the lists leaves. -/
def strandedLists : List Nat → List ListT → Image
  | l :: ls, list :: lists => stranded l list + strandedLists ls lists
  | _, _ => 0

theorem strandedLists_eq_zero_iff {ls : List Nat} {lists : List ListT}
    (same : ls.length = lists.length) :
    strandedLists ls lists = 0 ↔ ∀ list ∈ lists, list.head ≠ [] := by
  induction lists generalizing ls with
  | nil => cases ls <;> simp [strandedLists]
  | cons list lists ih =>
    cases ls with
    | nil => cases same
    | cons l ls =>
      rw [strandedLists, add_eq_zero, stranded_eq_zero_iff, ih (Nat.succ.inj same),
        List.forall_mem_cons]

section Tables

variable {R : Store → Image → Prop} (tracks : Tracks R) {σ : Store} {L : Layout} {n : Int}
  {F : Image}

include tracks

theorem element_tracked {m : Image} (holds : R σ m)
    (table : (L.table, Block.table (some L.array) n) ∈ m)
    (array : (L.array, Block.array (L.lists.map some)) ∈ m) {i : Nat} (hi : i < L.lists.length) :
    element σ L.table i = .ok (some L.lists[i]) := by
  have owns := tracks.owns holds
  have htable : loadTable σ (some L.table) = .ok (some L.array, n) := by
    simp [loadTable, owns.load table]
  have harray : loadArray σ (some L.array) = .ok (L.lists.map some) := by
    simp [loadArray, owns.load array]
  simp only [element, htable, harray, ok_bind, Int.natCast_nonneg, if_true, Int.toNat_natCast,
    List.getElem?_map, List.getElem?_eq_getElem hi, Option.map_some, pure_eq_ok]

/-- The loop of `table_destroy` from the list at index `i` on. -/
theorem destroyLoop_tracked {lists : List ListT} (same : L.lists.length = lists.length)
    (fits : Forgets R ∨ ∀ list ∈ lists, ∀ o ∈ list.entries, Complete o) {i m : Nat}
    (rest : i + m = lists.length)
    (holds : R σ ({(L.table, .table (some L.array) n)} + ({(L.array, .array (L.lists.map some))} +
      (bucketsImage (L.lists.drop i) (lists.drop i) + F)))) :
    ∃ σ', destroyLoop L.table i m σ = .ok σ' ∧
      R σ' ({(L.table, .table (some L.array) n)} + ({(L.array, .array (L.lists.map some))} +
        (strandedLists (L.lists.drop i) (lists.drop i) + F))) := by
  induction m generalizing i σ F with
  | zero =>
    have hls : L.lists.drop i = [] := List.drop_eq_nil_of_le (by omega)
    rw [hls] at holds ⊢
    exact ⟨σ, rfl, holds⟩
  | succ m ih =>
    have hi : i < lists.length := by omega
    have hi' : i < L.lists.length := by omega
    have table : (L.table, Block.table (some L.array) n) ∈
        ({(L.table, .table (some L.array) n)} + ({(L.array, .array (L.lists.map some))} +
          (bucketsImage (L.lists.drop i) (lists.drop i) + F)) : Image) := by simp
    have helement := element_tracked tracks holds table (by simp) hi'
    rw [List.drop_eq_getElem_cons hi, List.drop_eq_getElem_cons hi'] at holds ⊢
    have own : Forgets R ∨ ∀ o ∈ lists[i].entries, Complete o :=
      fits.imp_right fun complete => complete _ (List.getElem_mem hi)
    have parts : R σ (listImage L.lists[i] lists[i] + ({(L.table, .table (some L.array) n)} +
        ({(L.array, .array (L.lists.map some))} +
          (bucketsImage (L.lists.drop (i + 1)) (lists.drop (i + 1)) + F)))) := by
      refine tracks.congr holds ?_
      rw [bucketsImage]
      abel
    obtain ⟨c, σ1, hdestroy, holds1⟩ := listDestroy_tracked tracks own parts
    have next : R σ1 ({(L.table, .table (some L.array) n)} +
        ({(L.array, .array (L.lists.map some))} +
          (bucketsImage (L.lists.drop (i + 1)) (lists.drop (i + 1)) +
            (stranded L.lists[i] lists[i] + F)))) := by
      refine tracks.congr holds1 ?_
      abel
    obtain ⟨σ2, hloop, holds2⟩ := ih (by omega) next
    refine ⟨σ2, ?_, ?_⟩
    · rw [destroyLoop, helement, ok_bind, hdestroy, ok_bind]
      exact hloop
    · refine tracks.congr holds2 ?_
      rw [strandedLists]
      abel

theorem tableDestroy_tracked {T : Table} (same : L.lists.length = T.lists.length)
    (fits : Forgets R ∨ AllComplete T) (holds : R σ (tableImage L T + F)) :
    ∃ σ', tableDestroy σ (some L.table) = .ok (0, σ') ∧
      R σ' (strandedLists L.lists T.lists + F) := by
  have hload := loadTable_image ⟨same, tracks.owns holds⟩
  have start : R σ ({(L.table, .table (some L.array) T.size)} +
      ({(L.array, .array (L.lists.map some))} +
        (bucketsImage (L.lists.drop 0) (T.lists.drop 0) + F))) := by
    refine tracks.congr holds ?_
    rw [tableImage, List.drop_zero, List.drop_zero]
    abel
  obtain ⟨σ1, hloop, holds1⟩ := destroyLoop_tracked tracks same fits (zero_add _) start
  rw [List.drop_zero, List.drop_zero] at holds1
  have hload1 : loadTable σ1 (some L.table) = .ok (some L.array, T.size) := by
    have hmem := (tracks.owns holds1).load (a := L.table) (b := .table (some L.array) T.size)
      (by simp)
    simp [loadTable, hmem]
  have parts : R σ1 ({(L.array, .array (L.lists.map some))} +
      ({(L.table, .table (some L.array) T.size)} + (strandedLists L.lists T.lists + F))) := by
    refine tracks.congr holds1 ?_
    abel
  obtain ⟨σ2, hfree2, holds2, _⟩ := tracks.free parts
  obtain ⟨σ3, hfree3, holds3, _⟩ := tracks.free holds2
  refine ⟨σ3, ?_, holds3⟩
  rw [T.length_eq] at hloop
  simp only [tableDestroy, hload, ok_bind, hloop, hload1, hfree2, hfree3, pure_eq_ok]

end Tables

end TableDestroy
