import Mathlib.Algebra.Order.Group.Multiset
import Mathlib.Tactic.Abel
import RemoteTable.ListMemory
import RemoteTable.ListOps
import RemoteTable.Ownership

/-!
# The code on the store refines the code on values

A list value has an image: the blocks that represent it, at its addresses.
Each operation on a store that owns the image does what the operation on
values does, returns the same and leaves a store that owns the image of the
result; what else the store owns is a frame. A chain has fewer nodes than the
store has addresses, so no loop runs out of fuel.
-/

namespace ListImage

open CStrings Memory Entries ListOps ListMemory Ownership

abbrev Image := Multiset (Nat × Block)

def optionImage {α : Type} (image : α → Image) : Option α → Image
  | none => 0
  | some a => image a

def keyImage (k : Ptr CString) : Image := {(k.addr, .chars k.obj)}

def bytesImage (b : Ptr (List Byte)) : Image := {(b.addr, .bytes b.obj)}

def dataImage (d : Ptr Data) : Image :=
  {(d.addr, .data d.obj.datasize (d.obj.data.map Ptr.addr))} + optionImage bytesImage d.obj.data

def entryImage (e : Ptr Entry) : Image :=
  {(e.addr, .entry (e.obj.key.map Ptr.addr) (e.obj.value.map Ptr.addr))} +
    (optionImage keyImage e.obj.key + optionImage dataImage e.obj.value)

/-- The pointer to a chain that ends in `tail`. -/
def headAddr (tail : Option Nat) : List Node → Option Nat
  | [] => tail
  | n :: _ => some n.addr

@[simp] theorem headAddr_nil (tail : Option Nat) : headAddr tail [] = tail := rfl

@[simp] theorem headAddr_cons (tail : Option Nat) (n : Node) (rest : List Node) :
    headAddr tail (n :: rest) = some n.addr := rfl

def chainImage (tail : Option Nat) : List Node → Image
  | [] => 0
  | n :: rest => {(n.addr, .node (n.entry.map Ptr.addr) (headAddr tail rest))} +
      (optionImage entryImage n.entry + chainImage tail rest)

def listImage (l : Nat) (list : ListT) : Image :=
  {(l, .list list.size (headAddr none list.head))} + chainImage none list.head

theorem headAddr_append (tail : Option Nat) (pre : List Node) (n : Node) (post : List Node) :
    headAddr tail (pre ++ n :: post) = headAddr (some n.addr) pre := by
  cases pre <;> rfl

theorem chainImage_append (tail : Option Nat) (pre : List Node) (n : Node) (post : List Node) :
    chainImage tail (pre ++ n :: post) =
      chainImage (some n.addr) pre + chainImage tail (n :: post) := by
  induction pre with
  | nil => simp [chainImage]
  | cons m pre ih =>
    simp only [List.cons_append, chainImage, headAddr_append] at ih ⊢
    rw [ih]
    abel

theorem length_le_card (tail : Option Nat) (nodes : List Node) :
    nodes.length ≤ (chainImage tail nodes).card := by
  induction nodes with
  | nil => simp
  | cons n rest ih =>
    simp only [chainImage, List.length_cons, Multiset.card_add, Multiset.card_singleton]
    omega

section Loads

variable {σ : Store} {m : Image} (owns : Owns σ m)

include owns

theorem loadChars_image {k : Ptr CString} (h : keyImage k ≤ m) :
    loadChars σ (some k.addr) = .ok k.obj := by
  have hmem : (k.addr, Block.chars k.obj) ∈ m := Multiset.mem_of_le h (by simp [keyImage])
  simp [loadChars, owns.load hmem]

theorem loadBytes_image {b : Ptr (List Byte)} (h : bytesImage b ≤ m) :
    loadBytes σ (some b.addr) = .ok b.obj := by
  have hmem : (b.addr, Block.bytes b.obj) ∈ m := Multiset.mem_of_le h (by simp [bytesImage])
  simp [loadBytes, owns.load hmem]

theorem loadData_image {d : Ptr Data} (h : dataImage d ≤ m) :
    loadData σ (some d.addr) = .ok (d.obj.datasize, d.obj.data.map Ptr.addr) := by
  have hmem : (d.addr, Block.data d.obj.datasize (d.obj.data.map Ptr.addr)) ∈ m :=
    Multiset.mem_of_le h (by simp [dataImage])
  simp [loadData, owns.load hmem]

theorem loadEntry_image {e : Ptr Entry} (h : entryImage e ≤ m) :
    loadEntry σ (some e.addr) = .ok (e.obj.key.map Ptr.addr, e.obj.value.map Ptr.addr) := by
  have hmem : (e.addr, Block.entry (e.obj.key.map Ptr.addr) (e.obj.value.map Ptr.addr)) ∈ m :=
    Multiset.mem_of_le h (by simp [entryImage])
  simp [loadEntry, owns.load hmem]

theorem loadNode_image {tail : Option Nat} {n : Node} {rest : List Node}
    (h : chainImage tail (n :: rest) ≤ m) :
    loadNode σ (some n.addr) = .ok (n.entry.map Ptr.addr, headAddr tail rest) := by
  have hmem : (n.addr, Block.node (n.entry.map Ptr.addr) (headAddr tail rest)) ∈ m :=
    Multiset.mem_of_le h (by simp [chainImage])
  simp [loadNode, owns.load hmem]

theorem loadList_image {l : Nat} {list : ListT} (h : listImage l list ≤ m) :
    loadList σ (some l) = .ok (list.size, headAddr none list.head) := by
  have hmem : (l, Block.list list.size (headAddr none list.head)) ∈ m :=
    Multiset.mem_of_le h (by simp [listImage])
  simp [loadList, owns.load hmem]

theorem entryCompare_image {entry : Option (Ptr Entry)} {e : Ptr Entry}
    (hentry : optionImage entryImage entry ≤ m) (he : entryImage e ≤ m) :
    ListMemory.entryCompare σ (entry.map Ptr.addr) (some e.addr) =
      .ok (Entries.entryCompare entry (some e)) := by
  cases entry with
  | none => rfl
  | some o =>
    have keyed : ∀ {o : Ptr Entry} {k : Ptr CString}, entryImage o ≤ m → o.obj.key = some k →
        keyImage k ≤ m := by
      intro o k ho hk
      refine le_trans ?_ ho
      simp only [entryImage, hk, optionImage]
      exact (Multiset.le_add_right _ _).trans (Multiset.le_add_left _ _)
    simp only [ListMemory.entryCompare, Option.map_some, loadEntry_image owns hentry,
      loadEntry_image owns he, ok_bind]
    cases hko : o.obj.key with
    | none => simp [Entries.entryCompare, keyOf, hko]
    | some k =>
      cases hke : e.obj.key with
      | none => simp [Entries.entryCompare, keyOf, hko, hke]
      | some k' =>
        simp [Entries.entryCompare, keyOf, hko, hke, loadChars_image owns (keyed hentry hko),
          loadChars_image owns (keyed he hke)]

end Loads

/-- An entry with both its parts: `entry_destroy` releases nothing of another one. -/
def Complete (e : Ptr Entry) : Prop := e.obj.key ≠ none ∧ e.obj.value ≠ none

theorem complete_at {P : Prop} {list : ListT} {pre post : List Node} {n : Node}
    (fits : P ∨ ∀ o ∈ list.entries, Complete o) (chain : list.head = pre ++ n :: post) :
    P ∨ ∀ o, n.entry = some o → Complete o := by
  refine fits.imp_right fun complete o ho => complete o ?_
  simp [ListT.entries, chain, ho]

section Destroys

variable {R : Store → Image → Prop} (tracks : Tracks R) {σ : Store} {F : Image}

include tracks

/-- `data_destroy` releases the blocks of its argument. -/
theorem dataDestroy_image {d : Ptr Data} (holds : R σ (dataImage d + F)) :
    ∃ σ', dataDestroy σ (some d.addr) = .ok (0, σ') ∧ R σ' F ∧ σ'.next = σ.next := by
  simp only [dataDestroy, loadData_image (tracks.owns holds) (Multiset.le_add_right _ _), ok_bind]
  cases hd : d.obj.data with
  | none =>
    have bare : R σ ({(d.addr, .data d.obj.datasize none)} + F) := by
      simpa [dataImage, hd, optionImage] using holds
    obtain ⟨σ', hfree, holds', hnext⟩ := tracks.free bare
    exact ⟨σ', by simp [hfree], holds', hnext⟩
  | some b =>
    have both : R σ ({(b.addr, .bytes b.obj)} +
        ({(d.addr, .data d.obj.datasize (some b.addr))} + F)) := by
      refine tracks.congr holds ?_
      simp only [dataImage, hd, optionImage, bytesImage, Option.map_some]
      abel
    obtain ⟨σ1, hfree1, holds1, hnext1⟩ := tracks.free both
    obtain ⟨σ2, hfree2, holds2, hnext2⟩ := tracks.free holds1
    exact ⟨σ2, by simp [hfree1, hfree2], holds2, hnext2.trans hnext1⟩

theorem entryDestroy_image {entry : Option (Ptr Entry)}
    (fits : Forgets R ∨ ∀ e, entry = some e → Complete e)
    (holds : R σ (optionImage entryImage entry + F)) :
    ∃ c σ', entryDestroy σ (entry.map Ptr.addr) = .ok (c, σ') ∧ R σ' F ∧ σ'.next = σ.next := by
  cases entry with
  | none => exact ⟨-1, σ, rfl, tracks.congr holds (zero_add F).symm, rfl⟩
  | some e =>
    have hload := loadEntry_image (tracks.owns holds) (Multiset.le_add_right (entryImage e) F)
    -- an entry with a part missing is left where it is
    have kept : ¬ Complete e → R σ F := by
      intro partial_entry
      rcases fits with forgets | complete
      · exact forgets holds
      · exact absurd (complete e rfl) partial_entry
    simp only [entryDestroy, Option.map_some, hload, ok_bind]
    cases hk : e.obj.key with
    | none => exact ⟨-1, σ, rfl, kept fun complete => complete.1 hk, rfl⟩
    | some k =>
      cases hv : e.obj.value with
      | none => exact ⟨-1, σ, rfl, kept fun complete => complete.2 hv, rfl⟩
      | some v =>
        have parts : R σ (dataImage v + ({(k.addr, .chars k.obj)} +
            ({(e.addr, .entry (some k.addr) (some v.addr))} + F))) := by
          refine tracks.congr holds ?_
          simp only [optionImage, entryImage, hk, hv, keyImage, Option.map_some]
          abel
        obtain ⟨σ1, hdata, holds1, hnext1⟩ := dataDestroy_image tracks parts
        obtain ⟨σ2, hkey, holds2, hnext2⟩ := tracks.free holds1
        obtain ⟨σ3, hstore, holds3, hnext3⟩ := tracks.store (.entry none (some v.addr)) holds2
        obtain ⟨σ4, hfree, holds4, hnext4⟩ := tracks.free holds3
        refine ⟨0, σ4, ?_, holds4, hnext4.trans (hnext3.trans (hnext2.trans hnext1))⟩
        simp [hdata, hkey, hstore, hfree]

end Destroys

theorem addWalk_split (e : Ptr Entry) (current : Node) (rest : List Node) :
    current :: rest = (addWalk e current rest).passed ++
      (addWalk e current rest).current :: (addWalk e current rest).next := by
  induction rest generalizing current with
  | nil => rfl
  | cons next rest ih =>
    by_cases h : Entries.entryCompare current.entry (some e) < 0
    · simpa [addWalk, h] using ih next
    · simp [addWalk, h]

theorem chainImage_tail_le {tail : Option Nat} {n : Node} {rest : List Node} {m : Image}
    (h : chainImage tail (n :: rest) ≤ m) : chainImage tail rest ≤ m :=
  ((Multiset.le_add_left _ _).trans (Multiset.le_add_left _ _)).trans h

theorem chainImage_entry_le {tail : Option Nat} {n : Node} {rest : List Node} {m : Image}
    (h : chainImage tail (n :: rest) ≤ m) : optionImage entryImage n.entry ≤ m :=
  ((Multiset.le_add_right _ _).trans (Multiset.le_add_left _ _)).trans h

/-- The chain from any of its nodes on. -/
theorem chainImage_le {l : Nat} {list : ListT} {pre post : List Node} {n : Node} {m : Image}
    (chain : list.head = pre ++ n :: post) (h : listImage l list ≤ m) :
    chainImage none (n :: post) ≤ m := by
  refine le_trans ?_ h
  rw [listImage, chain, chainImage_append]
  exact (Multiset.le_add_left _ _).trans (Multiset.le_add_left _ _)

theorem enough_fuel {σ : Store} {m : Image} (owns : Owns σ m) {node : Node} {rest : List Node}
    {tail : Option Nat} (hchain : chainImage tail (node :: rest) ≤ m) : rest.length < σ.next := by
  have hcard := Multiset.card_le_card hchain
  have hlen := length_le_card tail (node :: rest)
  have hnext := owns.card_le
  rw [List.length_cons] at hlen
  omega

theorem addLoop_image {σ : Store} {m : Image} (owns : Owns σ m) {e : Ptr Entry}
    (he : entryImage e ≤ m) (current : Node) (rest : List Node)
    (hchain : chainImage none (current :: rest) ≤ m) {fuel : Nat} (enough : rest.length < fuel) :
    addLoop σ e.addr fuel current.addr (Entries.entryCompare current.entry (some e)) =
      .ok ((addWalk e current rest).current.addr, (addWalk e current rest).comp) := by
  induction rest generalizing current fuel with
  | nil =>
    cases fuel with
    | zero => cases enough
    | succ fuel =>
      simp only [addLoop, loadNode_image owns hchain, ok_bind, headAddr]
      split_ifs <;> rfl
  | cons next rest ih =>
    cases fuel with
    | zero => cases enough
    | succ fuel =>
      have hrest := chainImage_tail_le hchain
      simp only [addLoop, loadNode_image owns hchain, ok_bind, headAddr]
      by_cases h : Entries.entryCompare current.entry (some e) < 0
      · simp only [if_pos h, loadNode_image owns hrest, ok_bind,
          entryCompare_image owns (chainImage_entry_le hrest) he, addWalk]
        exact ih next hrest (Nat.lt_of_succ_lt_succ enough)
      · simp [h, addWalk]

section Adds

variable {R : Store → Image → Prop} (tracks : Tracks R) {σ : Store} {l : Nat} {list : ListT}
  {e : Ptr Entry} {F : Image}

/-- The part of a description that an operation with this code has not taken over. -/
def refused (code : Int) (m : Image) : Image := if code < 0 then m else 0

@[simp] theorem refused_error (m : Image) : refused (-1) m = m := rfl

@[simp] theorem refused_zero (m : Image) : refused 0 m = 0 := rfl

@[simp] theorem refused_one (m : Image) : refused 1 m = 0 := rfl

include tracks

theorem replaceEntry_image {pre post : List Node} {n : Node} (chain : list.head = pre ++ n :: post)
    (fits : Forgets R ∨ ∀ o, n.entry = some o → Complete o)
    (holds : R σ (listImage l list + entryImage e + F)) :
    ∃ σ', replaceEntry σ n.addr e.addr = .ok (1, σ') ∧
      R σ' (listImage l ⟨list.size, pre ++ { n with entry := some e } :: post⟩ + F) := by
  have parts : R σ (optionImage entryImage n.entry +
      ({(n.addr, .node (n.entry.map Ptr.addr) (headAddr none post))} +
        ({(l, .list list.size (headAddr (some n.addr) pre))} + chainImage (some n.addr) pre +
          chainImage none post + entryImage e + F))) := by
    refine tracks.congr holds ?_
    rw [listImage, chain, chainImage_append, headAddr_append, chainImage]
    abel
  have hload : ∀ {τ : Store} {m : Image}, Owns τ m →
      (n.addr, Block.node (n.entry.map Ptr.addr) (headAddr none post)) ∈ m →
      loadNode τ (some n.addr) = .ok (n.entry.map Ptr.addr, headAddr none post) := by
    intro τ m owned hmem
    simp [loadNode, owned.load hmem]
  obtain ⟨c, σ1, hdestroy, holds1, _⟩ := entryDestroy_image tracks fits parts
  obtain ⟨σ2, hstore, holds2, _⟩ :=
    tracks.store (.node (some e.addr) (headAddr none post)) holds1
  refine ⟨σ2, ?_, ?_⟩
  · simp only [replaceEntry, hload (tracks.owns parts) (by simp), ok_bind, hdestroy,
      hload (tracks.owns holds1) (by simp), hstore, pure_eq_ok]
  · refine tracks.congr holds2 ?_
    rw [listImage, chainImage_append, headAddr_append, chainImage]
    simp only [optionImage, Option.map_some]
    abel

theorem countUp_image (holds : R σ (listImage l list + F)) :
    ∃ σ', countUp σ l = .ok σ' ∧ R σ' (listImage l ⟨list.size + 1, list.head⟩ + F) := by
  have parts : R σ ({(l, .list list.size (headAddr none list.head))} +
      (chainImage none list.head + F)) := by
    refine tracks.congr holds ?_
    rw [listImage]
    abel
  obtain ⟨σ', hstore, holds', _⟩ :=
    tracks.store (.list (list.size + 1) (headAddr none list.head)) parts
  refine ⟨σ', ?_, ?_⟩
  · simp only [countUp, loadList_image (tracks.owns holds) (Multiset.le_add_right _ _), ok_bind,
      hstore]
  · refine tracks.congr holds' ?_
    rw [listImage]
    abel

/-- A new node in front of the chain. -/
theorem pushNode_image (holds : R σ (listImage l list + entryImage e + F)) :
    ∃ σ', (do
        let σ ← (σ.alloc (.node (some e.addr) (headAddr none list.head))).store l
          (.list list.size (some σ.next))
        let σ ← countUp σ l
        pure ((0 : Int), σ) : Except Fault (Int × Store)) = .ok (0, σ') ∧
      R σ' (listImage l ⟨list.size + 1, ⟨σ.next, some e⟩ :: list.head⟩ + F) := by
  have parts : R (σ.alloc (.node (some e.addr) (headAddr none list.head)))
      ({(l, .list list.size (headAddr none list.head))} +
        ({(σ.next, .node (some e.addr) (headAddr none list.head))} +
          (chainImage none list.head + entryImage e + F))) := by
    refine tracks.congr (tracks.alloc _ holds) ?_
    rw [listImage]
    abel
  obtain ⟨σ1, hstore, holds1, _⟩ := tracks.store (.list list.size (some σ.next)) parts
  have counted : R σ1 (listImage l ⟨list.size, ⟨σ.next, some e⟩ :: list.head⟩ + F) := by
    refine tracks.congr holds1 ?_
    simp only [listImage, chainImage, headAddr, optionImage, Option.map_some]
    abel
  obtain ⟨σ2, hcount, holds2⟩ := countUp_image tracks counted
  exact ⟨σ2, by simp only [hstore, ok_bind, hcount, pure_eq_ok], holds2⟩

/-- A new node behind a node of the chain. -/
theorem appendNode_image {pre post : List Node} {n : Node} (chain : list.head = pre ++ n :: post)
    (holds : R σ (listImage l list + entryImage e + F)) :
    ∃ σ', appendNode true σ l n.addr e.addr (headAddr none post) = .ok (0, σ') ∧
      R σ' (listImage l ⟨list.size + 1, pre ++ n :: ⟨σ.next, some e⟩ :: post⟩ + F) := by
  have parts : R (σ.alloc (.node (some e.addr) (headAddr none post)))
      ({(n.addr, .node (n.entry.map Ptr.addr) (headAddr none post))} +
        ({(σ.next, .node (some e.addr) (headAddr none post))} +
          ({(l, .list list.size (headAddr (some n.addr) pre))} + chainImage (some n.addr) pre +
            optionImage entryImage n.entry + chainImage none post + entryImage e + F))) := by
    refine tracks.congr (tracks.alloc _ holds) ?_
    rw [listImage, chain, chainImage_append, headAddr_append, chainImage]
    abel
  have hnode : loadNode (σ.alloc (.node (some e.addr) (headAddr none post))) (some n.addr) =
      .ok (n.entry.map Ptr.addr, headAddr none post) := by
    have hmem := (tracks.owns parts).load (a := n.addr)
      (b := .node (n.entry.map Ptr.addr) (headAddr none post)) (by simp)
    simp [loadNode, hmem]
  obtain ⟨σ1, hstore, holds1, _⟩ :=
    tracks.store (.node (n.entry.map Ptr.addr) (some σ.next)) parts
  have counted : R σ1
      (listImage l ⟨list.size, pre ++ n :: ⟨σ.next, some e⟩ :: post⟩ + F) := by
    refine tracks.congr holds1 ?_
    rw [listImage, chainImage_append, headAddr_append]
    simp only [chainImage, headAddr, optionImage, Option.map_some]
    abel
  obtain ⟨σ2, hcount, holds2⟩ := countUp_image tracks counted
  refine ⟨σ2, ?_, holds2⟩
  simp only [appendNode, malloc, if_true, hnode, ok_bind, hstore, hcount, pure_eq_ok]

/-- What `list_add` leaves on the store: the image of its result, and the entry
itself where it was not taken. -/
theorem listAdd_image (mem : Bool) (fits : Forgets R ∨ ∀ o ∈ list.entries, Complete o)
    (holds : R σ (listImage l list + entryImage e + F)) :
    ∃ c list' σ', ListOps.listAdd (if mem then some σ.next else none) list (some e) = (c, list') ∧
      ListMemory.listAdd mem σ (some l) (some e.addr) = .ok (c, σ') ∧
      R σ' (listImage l list' + (refused c (entryImage e) + F)) := by
  have owns := tracks.owns holds
  have hlist : listImage l list ≤ listImage l list + entryImage e + F :=
    (Multiset.le_add_right _ _).trans (Multiset.le_add_right _ _)
  have he : entryImage e ≤ listImage l list + entryImage e + F :=
    (Multiset.le_add_left _ _).trans (Multiset.le_add_right _ _)
  have kept : R σ (listImage l list + (refused (-1) (entryImage e) + F)) :=
    tracks.congr holds (add_assoc _ _ _).symm
  simp only [ListMemory.listAdd, loadList_image owns hlist, ok_bind]
  cases hhead : list.head with
  | nil =>
    cases mem with
    | false => exact ⟨-1, list, σ, by simp [ListOps.listAdd, hhead], rfl, kept⟩
    | true =>
      obtain ⟨σ', hpush, holds'⟩ := pushNode_image tracks holds
      rw [hhead] at hpush holds'
      refine ⟨0, ⟨list.size + 1, [⟨σ.next, some e⟩]⟩, σ', by simp [ListOps.listAdd, hhead], ?_,
        by simpa using holds'⟩
      simpa [headAddr, malloc] using hpush
  | cons head rest =>
    have chain : list.head = [] ++ head :: rest := hhead
    have hchain := chainImage_le chain hlist
    simp only [headAddr, loadNode_image owns hchain, ok_bind,
      entryCompare_image owns (chainImage_entry_le hchain) he, ListOps.listAdd, hhead]
    by_cases hzero : Entries.entryCompare head.entry (some e) = 0
    · rw [if_pos hzero, if_pos hzero]
      obtain ⟨σ', hreplace, holds'⟩ := replaceEntry_image tracks chain (complete_at fits chain) holds
      exact ⟨1, _, σ', rfl, hreplace, by simpa using holds'⟩
    rw [if_neg hzero, if_neg hzero]
    by_cases hpos : Entries.entryCompare head.entry (some e) > 0
    · rw [if_pos hpos, if_pos hpos]
      cases mem with
      | false => exact ⟨-1, list, σ, rfl, rfl, kept⟩
      | true =>
        obtain ⟨σ', hpush, holds'⟩ := pushNode_image tracks holds
        rw [hhead] at hpush holds'
        exact ⟨0, _, σ', rfl, hpush, by simpa using holds'⟩
    rw [if_neg hpos, if_neg hpos]
    have hsplit := hhead.trans (addWalk_split e head rest)
    rw [addLoop_image owns he head rest hchain (enough_fuel owns hchain)]
    generalize addWalk e head rest = w at hsplit
    have hcurrent := chainImage_le hsplit hlist
    simp only [ok_bind, loadNode_image owns hcurrent]
    by_cases wzero : w.comp = 0
    · rw [if_pos wzero, if_pos wzero]
      obtain ⟨σ', hreplace, holds'⟩ := replaceEntry_image tracks hsplit (complete_at fits hsplit) holds
      exact ⟨1, _, σ', rfl, hreplace, by simpa using holds'⟩
    rw [if_neg wzero, if_neg wzero]
    by_cases wpos : w.comp > 0
    · rw [if_pos wpos, if_pos wpos]
      cases mem with
      | false => exact ⟨-1, list, σ, rfl, rfl, kept⟩
      | true =>
        obtain ⟨σ', happend, holds'⟩ := appendNode_image tracks hsplit holds
        exact ⟨0, _, σ', rfl, happend, by simpa using holds'⟩
    rw [if_neg wpos, if_neg wpos]
    cases hnext : w.next with
    | nil =>
      cases mem with
      | false => exact ⟨-1, list, σ, rfl, rfl, kept⟩
      | true =>
        rw [hnext] at hsplit
        obtain ⟨σ', happend, holds'⟩ := appendNode_image tracks hsplit holds
        exact ⟨0, _, σ', rfl, happend, by simpa using holds'⟩
    | cons next after => exact ⟨-1, list, σ, rfl, rfl, kept⟩

end Adds

section Lookups

variable {σ : Store} {m : Image} {key : Nat} {k : CString}

theorem keyCompare_image (owns : Owns σ m) (hkey : loadChars σ (some key) = .ok k)
    {tail : Option Nat} {n : Node} {rest : List Node} (hchain : chainImage tail (n :: rest) ≤ m) :
    ListMemory.keyCompare σ (some n.addr) key = ListOps.keyCompare n k := by
  have hentry := chainImage_entry_le hchain
  simp only [ListMemory.keyCompare, loadNode_image owns hchain, ok_bind, ListOps.keyCompare, Node.key]
  cases hn : n.entry with
  | none => rfl
  | some e =>
    rw [hn] at hentry
    simp only [Option.map_some, loadEntry_image owns hentry, ok_bind, entryKey_some, keyOf]
    cases hk : e.obj.key with
    | none => rfl
    | some k' =>
      have hle : keyImage k' ≤ m := by
        refine le_trans ?_ hentry
        simp only [optionImage, entryImage, hk]
        exact (Multiset.le_add_right _ _).trans (Multiset.le_add_left _ _)
      simp only [Option.map_some, loadChars_image owns hle, ok_bind, hkey, pure_eq_ok]

theorem keyWalk_error {n : Node} (rest : List Node) {fault : Fault}
    (h : ListOps.keyCompare n k = .error fault) : keyWalk k n rest = .error fault := by
  cases rest <;> simp [keyWalk, h]

theorem keyLoop_image (owns : Owns σ m) (hkey : loadChars σ (some key) = .ok k) (current : Node)
    (rest : List Node) (hchain : chainImage none (current :: rest) ≤ m) {comp : Int}
    (hcomp : ListOps.keyCompare current k = .ok comp) {fuel : Nat} (enough : rest.length < fuel) :
    keyLoop σ key fuel current.addr comp =
      (keyWalk k current rest).map fun w => (w.current.addr, w.comp) := by
  induction rest generalizing current comp fuel with
  | nil =>
    cases fuel with
    | zero => cases enough
    | succ fuel =>
      simp only [keyLoop, loadNode_image owns hchain, ok_bind, headAddr, keyWalk, hcomp, pure_eq_ok]
      split_ifs <;> rfl
  | cons next rest ih =>
    cases fuel with
    | zero => cases enough
    | succ fuel =>
      have hrest := chainImage_tail_le hchain
      simp only [keyLoop, loadNode_image owns hchain, ok_bind, headAddr, keyWalk, hcomp]
      by_cases h : comp ≠ 0
      · rw [if_pos h, if_pos h, keyCompare_image owns hkey hrest]
        cases hnext : ListOps.keyCompare next k with
        | error fault => simp [keyWalk_error rest hnext, Except.map]
        | ok comp' =>
          rw [ok_bind, ih next hrest hnext (Nat.lt_of_succ_lt_succ enough)]
          cases keyWalk k next rest <;> rfl
      · rw [if_neg h, if_neg h]
        rfl

theorem keyWalk_split {current : Node} {rest : List Node} {w : Walk}
    (walk : keyWalk k current rest = .ok w) : current :: rest = w.passed ++ w.current :: w.next := by
  induction rest generalizing current w with
  | nil =>
    simp only [keyWalk, bind_eq_ok_iff, pure_eq_ok, Except.ok.injEq] at walk
    obtain ⟨comp, _, rfl⟩ := walk
    rfl
  | cons next rest ih =>
    simp only [keyWalk, bind_eq_ok_iff, pure_eq_ok] at walk
    obtain ⟨comp, _, walk⟩ := walk
    split_ifs at walk with h
    · obtain ⟨w', hw', hw⟩ := (bind_eq_ok_iff _ _ _).mp walk
      cases hw
      simpa using ih hw'
    · cases walk
      rfl

end Lookups

section Removals

variable {R : Store → Image → Prop} (tracks : Tracks R) {σ : Store} {l key : Nat} {k : CString}
  {list : ListT} {F : Image}

/-- `list_get` on the store returns the address of what it returns on values. -/
theorem listGet_image (owns : Owns σ (listImage l list + F))
    (hkey : loadChars σ (some key) = .ok k) :
    ListMemory.listGet σ (some l) (some key) =
      (ListOps.listGet list (some k)).map (Option.map Ptr.addr) := by
  have hlist : listImage l list ≤ listImage l list + F := Multiset.le_add_right _ _
  simp only [ListMemory.listGet, loadList_image owns hlist, ok_bind, ListOps.listGet]
  cases hhead : list.head with
  | nil => rfl
  | cons head rest =>
    have chain : list.head = [] ++ head :: rest := hhead
    have hchain := chainImage_le chain hlist
    simp only [headAddr, keyCompare_image owns hkey hchain]
    cases hcomp : ListOps.keyCompare head k with
    | error fault => simp [keyWalk_error rest hcomp, Except.map]
    | ok comp =>
      rw [ok_bind, keyLoop_image owns hkey head rest hchain hcomp (enough_fuel owns hchain)]
      cases hwalk : keyWalk k head rest with
      | error fault => rfl
      | ok w =>
        have hcurrent := chainImage_le (hhead.trans (keyWalk_split hwalk)) hlist
        simp only [Except.map, ok_bind, loadNode_image owns hcurrent, pure_eq_ok]
        by_cases h : w.comp = 0
        · rw [if_pos h, if_pos h]
        · rw [if_neg h, if_neg h]
          rfl

/-- The chain still starts at the node that was removed from. -/
theorem removeNode_head (n : Node) (post : List Node) :
    ∃ x xs, (ListOps.removeNode n post).2 = x :: xs ∧ x.addr = n.addr := by
  have haddrs := removeNode_addrs n post
  cases hbelow : (ListOps.removeNode n post).2 with
  | nil => simp [hbelow] at haddrs
  | cons x xs =>
    rw [hbelow, List.map_cons, List.cons.injEq] at haddrs
    exact ⟨x, xs, rfl, haddrs.1⟩

include tracks

/-- The last node gives up its entry. -/
theorem vacate_image {node : Node} (fits : Forgets R ∨ ∀ o, node.entry = some o → Complete o)
    (holds : R σ (chainImage none [node] + F)) :
    ∃ c σ1 σ2, entryDestroy σ (node.entry.map Ptr.addr) = .ok (c, σ1) ∧
      σ1.store node.addr (.node none none) = .ok σ2 ∧
      R σ2 (chainImage none [{ node with entry := none }] + F) := by
  have parts : R σ (optionImage entryImage node.entry +
      ({(node.addr, .node (node.entry.map Ptr.addr) none)} + F)) := by
    refine tracks.congr holds ?_
    simp only [chainImage, headAddr]
    abel
  obtain ⟨c, σ1, hdestroy, holds1, _⟩ := entryDestroy_image tracks fits parts
  obtain ⟨σ2, hstore, holds2, _⟩ := tracks.store (.node none none) holds1
  refine ⟨c, σ1, σ2, hdestroy, hstore, tracks.congr holds2 ?_⟩
  simp only [chainImage, headAddr, optionImage, Option.map_none]
  abel

/-- Two neighbours trade their entries. -/
theorem trade_image {node next : Node} {rest : List Node}
    (holds : R σ (chainImage none (node :: next :: rest) + F)) :
    ∃ σ1 σ2, σ.store node.addr (.node (next.entry.map Ptr.addr) (some next.addr)) = .ok σ1 ∧
      σ1.store next.addr (.node (node.entry.map Ptr.addr) (headAddr none rest)) = .ok σ2 ∧
      R σ2 (chainImage none ({ next with entry := node.entry } :: rest) +
        ({(node.addr, .node (next.entry.map Ptr.addr) (some next.addr))} +
          optionImage entryImage next.entry + F)) := by
  have parts : R σ ({(node.addr, .node (node.entry.map Ptr.addr) (some next.addr))} +
      ({(next.addr, .node (next.entry.map Ptr.addr) (headAddr none rest))} +
        (optionImage entryImage node.entry + optionImage entryImage next.entry +
          chainImage none rest + F))) := by
    refine tracks.congr holds ?_
    simp only [chainImage, headAddr]
    abel
  obtain ⟨σ1, hstore1, holds1, _⟩ :=
    tracks.store (.node (next.entry.map Ptr.addr) (some next.addr)) parts
  have swapped : R σ1 ({(next.addr, .node (next.entry.map Ptr.addr) (headAddr none rest))} +
      ({(node.addr, .node (next.entry.map Ptr.addr) (some next.addr))} +
        (optionImage entryImage node.entry + optionImage entryImage next.entry +
          chainImage none rest + F))) := by
    refine tracks.congr holds1 ?_
    abel
  obtain ⟨σ2, hstore2, holds2, _⟩ :=
    tracks.store (.node (node.entry.map Ptr.addr) (headAddr none rest)) swapped
  refine ⟨σ1, σ2, hstore1, hstore2, tracks.congr holds2 ?_⟩
  simp only [chainImage]
  abel

theorem removeNode_image (node : Node) (rest : List Node)
    (fits : Forgets R ∨ ∀ o, node.entry = some o → Complete o)
    (holds : R σ (chainImage none (node :: rest) + F)) {fuel : Nat} (enough : rest.length < fuel) :
    ∃ σ', ListMemory.removeNode fuel σ (some node.addr) = .ok (0, σ') ∧
      R σ' (chainImage none (ListOps.removeNode node rest).2 + F) := by
  induction rest generalizing node σ F fuel with
  | nil =>
    cases fuel with
    | zero => cases enough
    | succ fuel =>
      have hload := loadNode_image (tracks.owns holds) (Multiset.le_add_right _ _)
      obtain ⟨c, σ1, σ2, hdestroy, hstore, holds2⟩ := vacate_image tracks fits holds
      refine ⟨σ2, ?_, holds2⟩
      simp only [ListMemory.removeNode, hload, ok_bind, headAddr, hdestroy, hstore, pure_eq_ok]
  | cons next rest ih =>
    cases fuel with
    | zero => cases enough
    | succ fuel =>
      have owns := tracks.owns holds
      have hload := loadNode_image owns (Multiset.le_add_right _ _)
      have hload' := loadNode_image owns (chainImage_tail_le (Multiset.le_add_right _ _))
      obtain ⟨σ1, σ2, hstore1, hstore2, below⟩ := trade_image tracks holds
      obtain ⟨σ3, hremove, holds3⟩ :=
        ih { next with entry := node.entry } fits below (Nat.lt_of_succ_lt_succ enough)
      refine ⟨σ3, ?_, ?_⟩
      · simp only [ListMemory.removeNode, hload, hload', ok_bind, headAddr_cons, hstore1, hstore2]
        exact hremove
      · have hhead : headAddr none (ListOps.removeNode { next with entry := node.entry } rest).2 =
            some next.addr := by
          obtain ⟨x, xs, hbelow, haddr⟩ := removeNode_head { next with entry := node.entry } rest
          rw [hbelow, headAddr_cons, haddr]
        refine tracks.congr holds3 ?_
        simp only [ListOps.removeNode, chainImage, hhead]
        abel

theorem removeCounted_image {pre post : List Node} {n : Node} (chain : list.head = pre ++ n :: post)
    (fits : Forgets R ∨ ∀ o, n.entry = some o → Complete o)
    (holds : R σ (listImage l list + F)) :
    ∃ σ', removeCounted σ l (some n.addr) = .ok (0, σ') ∧
      R σ' (listImage l ⟨list.size - 1, pre ++ (ListOps.removeNode n post).2⟩ + F) := by
  have hlist : listImage l list ≤ listImage l list + F := Multiset.le_add_right _ _
  have hchain := chainImage_le chain hlist
  have parts : R σ (chainImage none (n :: post) +
      ({(l, .list list.size (headAddr (some n.addr) pre))} + chainImage (some n.addr) pre + F)) := by
    refine tracks.congr holds ?_
    rw [listImage, chain, chainImage_append, headAddr_append]
    abel
  obtain ⟨σ1, hremove, holds1⟩ :=
    removeNode_image tracks n post fits parts (enough_fuel (tracks.owns holds) hchain)
  have hload : loadList σ1 (some l) = .ok (list.size, headAddr (some n.addr) pre) := by
    have hmem := (tracks.owns holds1).load (a := l) (b := .list list.size (headAddr (some n.addr) pre)) (by simp)
    simp [loadList, hmem]
  have counter : R σ1 ({(l, .list list.size (headAddr (some n.addr) pre))} +
      (chainImage (some n.addr) pre + chainImage none (ListOps.removeNode n post).2 + F)) := by
    refine tracks.congr holds1 ?_
    abel
  obtain ⟨σ2, hstore, holds2, _⟩ :=
    tracks.store (.list (list.size - 1) (headAddr (some n.addr) pre)) counter
  refine ⟨σ2, ?_, ?_⟩
  · simp only [removeCounted, hremove, ok_bind, if_true, hload, hstore, pure_eq_ok]
  · obtain ⟨x, xs, hbelow, haddr⟩ := removeNode_head n post
    refine tracks.congr holds2 ?_
    rw [listImage, hbelow, chainImage_append, headAddr_append, haddr]
    abel

/-- `list_remove` on the store fails where it fails on values, and else
returns the same and leaves the image of the result. -/
theorem listRemove_image (fits : Forgets R ∨ ∀ o ∈ list.entries, Complete o)
    (holds : R σ (listImage l list + F)) (hkey : loadChars σ (some key) = .ok k) :
    (∀ fault, ListOps.listRemove list (some k) = .error fault →
      ListMemory.listRemove σ (some l) (some key) = .error fault) ∧
    ∀ c list', ListOps.listRemove list (some k) = .ok (c, list') →
      ∃ σ', ListMemory.listRemove σ (some l) (some key) = .ok (c, σ') ∧
        R σ' (listImage l list' + F) := by
  have owns := tracks.owns holds
  have hlist : listImage l list ≤ listImage l list + F := Multiset.le_add_right _ _
  simp only [ListMemory.listRemove, loadList_image owns hlist, ok_bind, ListOps.listRemove]
  cases hhead : list.head with
  | nil =>
    refine ⟨?_, by simp⟩
    rintro fault ⟨⟩
    rfl
  | cons head rest =>
    have chain : list.head = [] ++ head :: rest := hhead
    have hchain := chainImage_le chain hlist
    simp only [headAddr_cons, keyCompare_image owns hkey hchain]
    cases hcomp : ListOps.keyCompare head k with
    | error fault => simp
    | ok comp =>
      simp only [ok_bind]
      by_cases hzero : comp = 0
      · obtain ⟨σ', hremove, holds'⟩ := removeCounted_image tracks chain (complete_at fits chain) holds
        simp only [if_pos hzero, removeNode_code, if_true, pure_eq_ok]
        refine ⟨by simp, ?_⟩
        rintro c list' ⟨⟩
        exact ⟨σ', hremove, holds'⟩
      · rw [if_neg hzero, if_neg hzero,
          keyLoop_image owns hkey head rest hchain hcomp (enough_fuel owns hchain)]
        cases hwalk : keyWalk k head rest with
        | error fault => simp [Except.map]
        | ok w =>
          simp only [Except.map, ok_bind]
          by_cases h : w.comp ≠ 0
          · rw [if_pos h, if_pos h]
            refine ⟨by simp, ?_⟩
            rintro c list' ⟨⟩
            exact ⟨σ, rfl, holds⟩
          · rw [if_neg h, if_neg h]
            have chain' := hhead.trans (keyWalk_split hwalk)
            obtain ⟨σ', hremove, holds'⟩ := removeCounted_image tracks chain' (complete_at fits chain') holds
            simp only [removeNode_code, if_true, pure_eq_ok]
            refine ⟨by simp, ?_⟩
            rintro c list' ⟨⟩
            exact ⟨σ', hremove, holds'⟩

end Removals

section Copies

variable {R : Store → Image → Prop} (tracks : Tracks R) {σ : Store} {F : Image}

include tracks

/-- Without memory for the buffer the new data block is released. -/
theorem undoneCopy_image (holds : R σ F) (datasize : Int) :
    ∃ σ', dataDestroy (σ.alloc (.data datasize none)) (some σ.next) = .ok (0, σ') ∧ R σ' F := by
  have fresh : R (σ.alloc (.data datasize none)) (dataImage ⟨σ.next, ⟨datasize, none⟩⟩ + F) := by
    simpa [dataImage, optionImage] using tracks.alloc (.data datasize none) holds
  obtain ⟨σ', hdestroy, holds', _⟩ := dataDestroy_image tracks fresh
  exact ⟨σ', hdestroy, holds'⟩

/-- The two blocks of a copy, filled while the old buffer is still there. -/
theorem copyBlocks_image {bytes : Ptr (List Byte)} (holds : R σ F) (hbytes : bytesImage bytes ≤ F)
    (datasize : Int) (bs : List Byte) :
    ∃ σ1 σ2, ((σ.alloc (.data datasize none)).alloc (.bytes [])).store σ.next
        (.data datasize (some (σ.next + 1))) = .ok σ1 ∧
      loadBytes σ1 (some bytes.addr) = .ok bytes.obj ∧
      σ1.store (σ.next + 1) (.bytes bs) = .ok σ2 ∧
      R σ2 (dataImage ⟨σ.next, ⟨datasize, some ⟨σ.next + 1, bs⟩⟩⟩ + F) := by
  have fresh : R ((σ.alloc (.data datasize none)).alloc (.bytes []))
      ({(σ.next, .data datasize none)} + ({(σ.next + 1, .bytes [])} + F)) := by
    refine tracks.congr (tracks.alloc (.bytes []) (tracks.alloc (.data datasize none) holds)) ?_
    rw [Heap.alloc_next]
    abel
  obtain ⟨σ1, hstore1, holds1, _⟩ := tracks.store (.data datasize (some (σ.next + 1))) fresh
  have hload := loadBytes_image (tracks.owns holds1).right.right hbytes
  have parts : R σ1 ({(σ.next + 1, .bytes [])} +
      ({(σ.next, .data datasize (some (σ.next + 1)))} + F)) := by
    refine tracks.congr holds1 ?_
    abel
  obtain ⟨σ2, hstore2, holds2, _⟩ := tracks.store (.bytes bs) parts
  refine ⟨σ1, σ2, hstore1, hload, hstore2, tracks.congr holds2 ?_⟩
  simp only [optionImage, dataImage, bytesImage, Option.map_some]
  abel

/-- `data_dup` on the store makes the image of the copy it makes on values. -/
theorem dataDup_image {d : Option (Ptr Data)} (mem buffer : Bool) (holds : R σ F)
    (hd : optionImage dataImage d ≤ F) :
    (∀ fault, Entries.dataDup (if mem then some σ.next else none)
        (if buffer then some (σ.next + 1) else none) d = .error fault →
      ListMemory.dataDup mem buffer σ (d.map Ptr.addr) = .error fault) ∧
    ∀ copy, Entries.dataDup (if mem then some σ.next else none)
        (if buffer then some (σ.next + 1) else none) d = .ok copy →
      ∃ σ', ListMemory.dataDup mem buffer σ (d.map Ptr.addr) = .ok (copy.map Ptr.addr, σ') ∧
        R σ' (optionImage dataImage copy + F) := by
  have owns := tracks.owns holds
  have nothing : R σ (optionImage dataImage none + F) := by simpa [optionImage] using holds
  cases d with
  | none =>
    refine ⟨by simp [Entries.dataDup], ?_⟩
    rintro copy ⟨⟩
    exact ⟨σ, rfl, nothing⟩
  | some d =>
    simp only [ListMemory.dataDup, Entries.dataDup, Option.map_some, loadData_image owns hd, ok_bind]
    by_cases hsize : d.obj.datasize ≤ 0
    · simp only [if_pos hsize]
      refine ⟨by simp, ?_⟩
      rintro copy ⟨⟩
      exact ⟨σ, rfl, nothing⟩
    simp only [if_neg hsize]
    cases hb : d.obj.data with
    | none =>
      refine ⟨by simp, ?_⟩
      rintro copy ⟨⟩
      exact ⟨σ, rfl, nothing⟩
    | some bytes =>
      cases mem with
      | false =>
        refine ⟨by simp, ?_⟩
        rintro copy ⟨⟩
        exact ⟨σ, rfl, nothing⟩
      | true =>
        cases buffer with
        | false =>
          obtain ⟨σ2, hdestroy, holds2⟩ := undoneCopy_image tracks holds d.obj.datasize
          refine ⟨by simp, ?_⟩
          rintro copy ⟨⟩
          refine ⟨σ2, ?_, by simpa [optionImage] using holds2⟩
          simp [malloc, hdestroy]
        | true =>
          have hbytes : bytesImage bytes ≤ F := by
            refine le_trans ?_ hd
            simp only [optionImage, dataImage, hb]
            exact Multiset.le_add_left _ _
          obtain ⟨σ3, σ4, hstore3, hload, hstore4, holds4⟩ := copyBlocks_image tracks holds hbytes
            d.obj.datasize (bytes.obj.take d.obj.datasize.toNat)
          simp only [malloc, if_true, Heap.alloc_next, Option.map_some, hstore3, ok_bind, hload]
          by_cases hlen : d.obj.datasize ≤ bytes.obj.length
          · simp only [if_pos hlen, hstore4, ok_bind, pure_eq_ok]
            refine ⟨by simp, ?_⟩
            rintro copy ⟨⟩
            exact ⟨σ4, rfl, holds4⟩
          · simp only [if_neg hlen, throw_eq_error]
            refine ⟨?_, by simp⟩
            rintro fault ⟨⟩
            rfl

end Copies

end ListImage
