import RemoteTable.ListOrder
import RemoteTable.TableRuns

/-!
# Puts of different keys commute

The walk of `list_add` depends on the keys of the nodes alone: it ends at the
first key that is not smaller, and may pass vacated nodes, which later block
`list_get`. An addition of another key changes neither whether the walk ends
at its own key nor whether it passes a vacated node, on any chain.
-/

namespace Commute

open CStrings Memory Entries ListOps ListRuns ListOrder Tables TableRuns

def slots (list : ListT) : List (Option CString) := list.head.map Node.key

/-- The key where the walk for `k` ends, and whether it passed a vacated node. -/
def walkEnd (k : CString) : List (Option CString) → Option CString × Bool
  | [] => (none, false)
  | none :: rest => ((walkEnd k rest).1, true)
  | some q :: rest => if q < k then walkEnd k rest else (some q, false)

variable {k q : CString}

/-- Slots the walk for `k` goes past. -/
def Passed (k : CString) (front : List (Option CString)) : Prop := ∀ q, some q ∈ front → q < k

theorem passed_of_below {nodes : List Node} (below : ∀ m ∈ nodes, m.Below k) :
    Passed k (nodes.map Node.key) := by
  intro q hq
  obtain ⟨m, hm, hkey⟩ := List.mem_map.mp hq
  exact below m hm q hkey

theorem walkEnd_passed {front : List (Option CString)} (passed : Passed k front)
    (back : List (Option CString)) : walkEnd k (front ++ back) =
      ((walkEnd k back).1, decide (none ∈ front) || (walkEnd k back).2) := by
  induction front with
  | nil => simp
  | cons slot front ih =>
    have hrest := ih fun q hq => passed q (List.mem_cons_of_mem _ hq)
    cases slot with
    | none => simp [walkEnd, hrest]
    | some q =>
      have hlt : q < k := passed q List.mem_cons_self
      simp [walkEnd, hlt, hrest]

theorem walkEnd_fst (k : CString) (list : ListT) :
    (walkEnd k (slots list)).1 = list.keys.find? fun q => decide (k ≤ q) := by
  rw [slots, ListT.keys]
  induction list.head with
  | nil => rfl
  | cons n rest ih =>
    cases hn : n.key with
    | none => simpa [walkEnd, hn] using ih
    | some q =>
      by_cases hlt : q < k
      · simpa [walkEnd, hn, hlt] using ih
      · simp [walkEnd, hn, hlt, not_lt.mp hlt]

/-- A smaller key makes no difference to the walk. -/
theorem walkEnd_smaller (hlt : q < k) (front back : List (Option CString)) :
    walkEnd k (front ++ some q :: back) = walkEnd k (front ++ back) := by
  induction front with
  | nil => simp [walkEnd, hlt]
  | cons slot front ih => cases slot <;> simp [walkEnd, ih]

/-- Nor does anything behind a key where it ends. -/
theorem walkEnd_stopped (hle : ¬ q < k) (front back back' : List (Option CString)) :
    walkEnd k (front ++ some q :: back) = walkEnd k (front ++ some q :: back') := by
  induction front with
  | nil => simp [walkEnd, hle]
  | cons slot front ih => cases slot <;> simp [walkEnd, ih]

/-- A larger key at the end can only be where the walk for `k` ends. -/
theorem walkEnd_last (hlt : k < q) (front : List (Option CString)) :
    (walkEnd k (front ++ [some q])).2 = (walkEnd k front).2 ∧
      ((walkEnd k (front ++ [some q])).1 = some k ↔ (walkEnd k front).1 = some k) := by
  induction front with
  | nil => simp [walkEnd, not_lt.mpr hlt.le, hlt.ne']
  | cons slot front ih =>
    cases slot with
    | none => simpa [walkEnd] using ih.2
    | some p =>
      by_cases hp : p < k
      · simpa [walkEnd, hp] using ih
      · simp [walkEnd, hp]

/-- Adding another key leaves the walk's outcome as it was. -/
theorem walkEnd_added (a : Nat) (list : ListT) {e : Ptr Entry} (hk : keyOf e = some q)
    (hne : q ≠ k) :
    (walkEnd k (slots (listAdd (some a) list (some e)).2)).2 = (walkEnd k (slots list)).2 ∧
      ((walkEnd k (slots (listAdd (some a) list (some e)).2)).1 = some k ↔
        (walkEnd k (slots list)).1 = some k) := by
  have hnew : ∀ a, (Node.mk a (some e)).key = some q := fun _ => hk
  have added := listAdd_added hk (some a) list
  generalize listAdd (some a) list (some e) = out at added ⊢
  cases added with
  | @found pre n post chain below same => simp [slots, chain, same, hnew]
  | @front b n post q' new chain larger lt =>
    have before : slots list = [] ++ some q' :: post.map Node.key := by
      simp [slots, chain, larger]
    have after : slots ⟨list.size + 1, ⟨b, some e⟩ :: n :: post⟩ =
        [] ++ some q :: some q' :: post.map Node.key := by
      simp [slots, hnew, larger]
    rw [after, before]
    rcases lt_or_gt_of_ne hne with hlt | hgt
    · simp [walkEnd, hlt]
    · simp [walkEnd, not_lt.mpr hgt.le, not_lt.mpr (hgt.trans lt).le, hne, (hgt.trans lt).ne']
  | @behind b pre n post q' new chain inner below larger lt =>
    have before : slots list = pre.map Node.key ++ some q' :: post.map Node.key := by
      simp [slots, chain, larger]
    have after : slots ⟨list.size + 1, pre ++ n :: ⟨b, some e⟩ :: post⟩ =
        pre.map Node.key ++ some q' :: some q :: post.map Node.key := by
      simp [slots, hnew, larger]
    rw [after, before]
    rcases lt_or_gt_of_ne hne with hlt | hgt
    · have hskip := walkEnd_smaller hlt (pre.map Node.key ++ [some q']) (post.map Node.key)
      simp only [List.append_assoc, List.singleton_append] at hskip
      simp [hskip]
    · rw [walkEnd_stopped (not_lt.mpr (hgt.trans lt).le) _ _ (post.map Node.key)]
      simp
  | @last b new below =>
    have after : slots ⟨list.size + 1, list.head ++ [⟨b, some e⟩]⟩ = slots list ++ [some q] := by
      simp [slots, hnew]
    rw [after]
    rcases lt_or_gt_of_ne hne with hlt | hgt
    · simp [walkEnd_smaller hlt]
    · exact walkEnd_last hgt (slots list)
  | failed new => cases new

/-- `list_get` on a chain that is not empty. -/
def lookup (q : CString) : List Node → Except Fault (Option (Ptr Entry))
  | [] => .ok none
  | n :: rest => match n.key with
    | none => .error .nullPointer
    | some p => if p = q then .ok n.entry else lookup q rest

theorem lookup_skip {n : Node} (other : n.Other q) (front back : List Node) :
    lookup q (front ++ n :: back) = lookup q (front ++ back) := by
  induction front with
  | nil =>
    obtain ⟨p, hp, hne⟩ := other
    simp [lookup, hp, hne]
  | cons m front ih => simp [lookup, ih]

theorem lookup_other {front : List Node} (other : ∀ m ∈ front, m.Other q) (back : List Node) :
    lookup q (front ++ back) = lookup q back := by
  induction front with
  | nil => rfl
  | cons m front ih =>
    have hskip := lookup_skip (other m List.mem_cons_self) [] (front ++ back)
    exact hskip.trans (ih fun x hx => other x (List.mem_cons_of_mem _ hx))

theorem lookup_below {front : List Node} (below : ∀ m ∈ front, m.Below k) (back : List Node) :
    lookup k (front ++ back) =
      if none ∈ front.map Node.key then .error .nullPointer else lookup k back := by
  induction front with
  | nil => simp
  | cons m front ih =>
    have hrest := ih fun x hx => below x (List.mem_cons_of_mem _ hx)
    cases hm : m.key with
    | none => simp [lookup, hm]
    | some p =>
      have hne : p ≠ k := (below m List.mem_cons_self p hm).ne
      simpa [lookup, hm, hne] using hrest

theorem listGet_eq (list : ListT) (q : CString) : listGet list (some q) =
    if list.head = [] then .error .nullPointer else lookup q list.head := by
  have hlook := looked list q
  generalize listGet list (some q) = got at hlook ⊢
  generalize listRemove list (some q) = removed at hlook
  cases hlook with
  | @hit pre n post e chain other entry key =>
    rw [chain, lookup_other other]
    simp [lookup, Node.key, entry, key]
  | miss nonempty other =>
    have hall := lookup_other other []
    rw [List.append_nil] at hall
    simp [nonempty, hall, lookup]
  | empty chain => simp [chain]
  | @blocked pre n post chain other keyless =>
    rw [chain, lookup_other other]
    simp [lookup, keyless]

section Added

variable {e : Ptr Entry} (a : Nat) (list : ListT)

theorem added_nonempty (hk : keyOf e = some k) :
    (listAdd (some a) list (some e)).2.head ≠ [] := by
  have added := listAdd_added hk (some a) list
  generalize listAdd (some a) list (some e) = out at added ⊢
  cases added with
  | failed new => cases new
  | _ => simp

/-- `list_get` of another key does not notice the addition. -/
theorem lookup_added_other (hk : keyOf e = some k) (hne : q ≠ k) :
    lookup q (listAdd (some a) list (some e)).2.head = lookup q list.head := by
  have hnew : ∀ a, (Node.mk a (some e)).Other q := fun _ => ⟨k, hk, hne.symm⟩
  have added := listAdd_added hk (some a) list
  generalize listAdd (some a) list (some e) = out at added ⊢
  cases added with
  | @found pre n post chain below same =>
    have old : n.Other q := ⟨k, same, hne.symm⟩
    rw [chain, lookup_skip (hnew _), lookup_skip old]
  | @front b n post k' new chain larger lt =>
    rw [chain]
    exact lookup_skip (hnew b) [] (n :: post)
  | @behind b pre n post k' new chain inner below larger lt =>
    have hskip := lookup_skip (hnew b) (pre ++ [n]) post
    rw [List.append_assoc, List.append_assoc] at hskip
    rw [chain]
    exact hskip
  | @last b new below =>
    have hskip := lookup_skip (hnew b) list.head []
    rwa [List.append_nil] at hskip
  | failed new => cases new

/-- `list_get` of the added key finds its entry unless the walk passed a vacated node. -/
theorem lookup_added_self (hk : keyOf e = some k) :
    lookup k (listAdd (some a) list (some e)).2.head =
      if (walkEnd k (slots list)).2 then .error .nullPointer else .ok (some e) := by
  have hnew : ∀ a back, lookup k (Node.mk a (some e) :: back) = .ok (some e) :=
    fun _ _ => by simp [lookup, Node.key, hk]
  have added := listAdd_added hk (some a) list
  generalize listAdd (some a) list (some e) = out at added ⊢
  cases added with
  | @found pre n post chain below same =>
    have hend : walkEnd k (slots list) =
        ((walkEnd k (some k :: post.map Node.key)).1, decide (none ∈ pre.map Node.key) || false) := by
      simpa [slots, chain, same, walkEnd] using
        walkEnd_passed (passed_of_below below) (some k :: post.map Node.key)
    rw [lookup_below below, hnew, hend]
    simp
  | @front b n post k' new chain larger lt =>
    have hend : (walkEnd k (slots list)).2 = false := by
      simp [slots, chain, larger, walkEnd, not_lt.mpr lt.le]
    rw [hnew, hend]
    simp
  | @behind b pre n post k' new chain inner below larger lt =>
    have other : n.Other k := ⟨k', larger, lt.ne'⟩
    have hend := walkEnd_passed (passed_of_below below) (some k' :: post.map Node.key)
    have hslots : slots list = pre.map Node.key ++ some k' :: post.map Node.key := by
      simp [slots, chain, larger]
    rw [lookup_skip other, lookup_below below, hnew, hslots, hend]
    simp [walkEnd, not_lt.mpr lt.le]
  | @last b new below =>
    have hend := walkEnd_passed (passed_of_below below) []
    rw [List.append_nil] at hend
    rw [lookup_below below, hnew, slots, hend]
    simp [walkEnd]
  | failed new => cases new

theorem added_code_eq (hk : keyOf e = some k) : (listAdd (some a) list (some e)).1 =
    if (walkEnd k (slots list)).1 = some k then 1 else 0 := by
  rw [walkEnd_fst]
  rcases added_code (listAdd_added hk (some a) list) with ⟨hcode, hfind⟩ | ⟨hcode, hfind⟩
  · rw [hcode, if_pos hfind]
  · rw [hcode, if_neg hfind]

/-- What `table_get` reads from a list: the value of the entry found. -/
def observed (q : CString) (list : ListT) : Except Fault (Option (Option (Ptr Data))) :=
  (listGet list (some q)).map (Option.map fun e => e.obj.value)

theorem observed_added (hk : keyOf e = some k) (q : CString) :
    observed q (listAdd (some a) list (some e)).2 =
      if q = k then
        if (walkEnd k (slots list)).2 then .error .nullPointer else .ok (some e.obj.value)
      else if list.head = [] then .ok none else observed q list := by
  rw [observed, listGet_eq, if_neg (added_nonempty a list hk)]
  by_cases hq : q = k
  · subst hq
    rw [lookup_added_self a list hk, if_pos rfl]
    split_ifs <;> rfl
  · rw [lookup_added_other a list hk hq, if_neg hq, observed, listGet_eq]
    by_cases hhead : list.head = []
    · simp [hhead, lookup, Except.map]
    · rw [if_neg hhead, if_neg hhead]

end Added

/-- On one chain the order of two additions cannot be observed. -/
theorem observed_added_comm {k1 k2 : CString} {e1 e1' e2 e2' : Ptr Entry}
    (h1 : keyOf e1 = some k1) (h1' : e1'.obj = e1.obj) (h2 : keyOf e2 = some k2)
    (h2' : e2'.obj = e2.obj) (differ : k1 ≠ k2) (a1 a1' a2 a2' : Nat) (list : ListT)
    (q : CString) :
    observed q (listAdd (some a2) (listAdd (some a1) list (some e1)).2 (some e2)).2 =
      observed q (listAdd (some a1') (listAdd (some a2') list (some e2')).2 (some e1')).2 := by
  have k1' : keyOf e1' = some k1 := by rw [keyOf, h1', ← h1, keyOf]
  have k2' : keyOf e2' = some k2 := by rw [keyOf, h2', ← h2, keyOf]
  have walk1 := (walkEnd_added a2' list k2' differ.symm).1
  have walk2 := (walkEnd_added a1 list h1 differ).1
  rw [observed_added a2 _ h2, observed_added a1' _ k1', observed_added a1 _ h1,
    observed_added a2' _ k2', if_neg (added_nonempty a1 list h1),
    if_neg (added_nonempty a2' list k2'), walk1, walk2, h1', h2']
  by_cases hq1 : q = k1
  · subst hq1
    simp [differ]
  · by_cases hq2 : q = k2
    · subst hq2
      simp [hq1]
    · simp [hq1, hq2]

theorem tableGet_observed {t : Table} {key : CString} (range : InRange t key)
    (mem buffer : Option Nat) : tableGet mem buffer t (some key) =
      (do
        let v ← observed key (t.chain key)
        match v with
        | none => pure none
        | some v => dataDup mem buffer v) := by
  rw [tableGet_eq range, observed]
  rcases listGet (t.chain key) (some key) with fault | (_ | e)
  · rfl
  · rfl
  · rfl

def entryOf (m : Nat) (key : Ptr CString) (value : Ptr Data) : Ptr Entry :=
  ⟨m, ⟨some key, some value⟩⟩

section Puts

variable {t : Table} {key key1 key2 : Ptr CString} (value value1 value2 : Ptr Data)

/-- The table after a put that found memory. -/
def afterPut (m n : Nat) (t : Table) (key : Ptr CString) (value : Ptr Data) : Table :=
  t.setChain key.obj
    (listAdd (some n) (t.chain key.obj) (some (entryOf m key value))).2

def putCode (t : Table) (key : Ptr CString) : Int :=
  if (walkEnd key.obj (slots (t.chain key.obj))).1 = some key.obj then 1 else 0

theorem tablePut_afterPut (range : InRange t key.obj) (m n : Nat) :
    tablePut (some m) (some n) t (some key) (some value) =
      .ok (putCode t key, afterPut m n t key value) := by
  have hk : keyOf (entryOf m key value) = some key.obj := rfl
  rw [putCode, ← added_code_eq n _ hk]
  exact tablePut_eq range (some m) (some n) value

theorem chain_afterPut (range : InRange t key.obj) {q : CString} (rangeq : InRange t q)
    (m n : Nat) : (afterPut m n t key value).chain q =
      if t.index q = t.index key.obj then
        (listAdd (some n) (t.chain q) (some (entryOf m key value))).2
      else t.chain q := by
  rw [afterPut, chain_setChain range rangeq]
  by_cases same : t.index q = t.index key.obj
  · rw [if_pos same, if_pos same, chain_congr same]
  · rw [if_neg same, if_neg same]

theorem tableSize_afterPut (range : InRange t key.obj) (m n : Nat) :
    tableSize (afterPut m n t key value) =
      tableSize t + if putCode t key = 0 then 1 else 0 := by
  have put := tablePut_afterPut value range m n
  have step : tableStep t (.put (some m) (some n) key value) =
      .ok (.code (putCode t key), afterPut m n t key value) := by
    simp [tableStep, put]
  have hsize := tableSize_step step
  simpa [TableOp.IsPut, TableOp.IsRemove, TableResult.IsZero] using hsize

/-- A put of another key before leaves the code as it was. -/
theorem putCode_afterPut (range1 : InRange t key1.obj) (range2 : InRange t key2.obj)
    (differ : key1.obj ≠ key2.obj) (m n : Nat) :
    putCode (afterPut m n t key1 value1) key2 = putCode t key2 := by
  have hk : keyOf (entryOf m key1 value1) = some key1.obj := rfl
  have walk := (walkEnd_added n (t.chain key2.obj) hk differ).2
  rw [putCode, chain_afterPut value1 range1 range2, putCode]
  by_cases same : t.index key2.obj = t.index key1.obj
  · simp only [if_pos same, walk]
  · simp only [if_neg same]

theorem observed_afterPuts (range1 : InRange t key1.obj) (range2 : InRange t key2.obj)
    (differ : key1.obj ≠ key2.obj) {q : CString} (rangeq : InRange t q)
    (m1 n1 m2 n2 m1' n1' m2' n2' : Nat) :
    observed q ((afterPut m2 n2 (afterPut m1 n1 t key1 value1) key2 value2).chain q) =
      observed q ((afterPut m1' n1' (afterPut m2' n2' t key2 value2) key1 value1).chain q) := by
  rw [chain_afterPut value2 (t := afterPut m1 n1 t key1 value1) range2 rangeq,
    chain_afterPut value1 range1 rangeq,
    chain_afterPut value1 (t := afterPut m2' n2' t key2 value2) range1 rangeq,
    chain_afterPut value2 range2 rangeq]
  have hindex : ∀ m n key value p, (afterPut m n t key value).index p = t.index p :=
    fun _ _ _ _ _ => rfl
  simp only [hindex]
  have hk1 : ∀ m, keyOf (entryOf m key1 value1) = some key1.obj := fun _ => rfl
  have hk2 : ∀ m, keyOf (entryOf m key2 value2) = some key2.obj := fun _ => rfl
  by_cases same1 : t.index q = t.index key1.obj
  · by_cases same2 : t.index q = t.index key2.obj
    · simp only [if_pos same1, if_pos same2]
      have same1' : (entryOf m1' key1 value1).obj = (entryOf m1 key1 value1).obj := rfl
      have same2' : (entryOf m2' key2 value2).obj = (entryOf m2 key2 value2).obj := rfl
      exact observed_added_comm (hk1 m1) same1' (hk2 m2) same2' differ n1 n1' n2 n2' _ q
    · simp only [if_pos same1, if_neg same2]
      rw [observed_added n1 _ (hk1 m1), observed_added n1' _ (hk1 m1')]
      rfl
  · by_cases same2 : t.index q = t.index key2.obj
    · simp only [if_neg same1, if_pos same2]
      rw [observed_added n2 _ (hk2 m2), observed_added n2' _ (hk2 m2')]
      rfl
    · simp only [if_neg same1, if_neg same2]

end Puts

/-- Whatever the chains, two puts of different keys return the same codes in
either order and leave tables that no size and no get can tell apart. -/
theorem puts_commute (t : Table) {key1 key2 : Ptr CString} (value1 value2 : Ptr Data)
    (differ : key1.obj ≠ key2.obj) (range1 : InRange t key1.obj) (range2 : InRange t key2.obj)
    (m1 n1 m2 n2 m1' n1' m2' n2' : Nat) : ∃ c1 c2 t1 t12 t2 t21,
      tablePut (some m1) (some n1) t (some key1) (some value1) = .ok (c1, t1) ∧
      tablePut (some m2) (some n2) t1 (some key2) (some value2) = .ok (c2, t12) ∧
      tablePut (some m2') (some n2') t (some key2) (some value2) = .ok (c2, t2) ∧
      tablePut (some m1') (some n1') t2 (some key1) (some value1) = .ok (c1, t21) ∧
      tableSize t12 = tableSize t21 ∧
      ∀ key mem buffer, tableGet mem buffer t12 (some key) =
        tableGet mem buffer t21 (some key) := by
  refine ⟨putCode t key1, putCode t key2, afterPut m1 n1 t key1 value1,
    afterPut m2 n2 (afterPut m1 n1 t key1 value1) key2 value2, afterPut m2' n2' t key2 value2,
    afterPut m1' n1' (afterPut m2' n2' t key2 value2) key1 value1,
    tablePut_afterPut value1 range1 m1 n1, ?_, tablePut_afterPut value2 range2 m2' n2', ?_, ?_, ?_⟩
  · rw [tablePut_afterPut value2 (t := afterPut m1 n1 t key1 value1) range2,
      putCode_afterPut value1 range1 range2 differ]
  · rw [tablePut_afterPut value1 (t := afterPut m2' n2' t key2 value2) range1,
      putCode_afterPut value2 range2 range1 differ.symm]
  · rw [tableSize_afterPut value2 (t := afterPut m1 n1 t key1 value1) range2,
      tableSize_afterPut value1 (t := afterPut m2' n2' t key2 value2) range1,
      tableSize_afterPut value1 range1, tableSize_afterPut value2 range2,
      putCode_afterPut value1 range1 range2 differ,
      putCode_afterPut value2 range2 range1 differ.symm]
    omega
  · intro key mem buffer
    by_cases rangeq : InRange t key
    · rw [tableGet_observed (t := afterPut m2 n2 (afterPut m1 n1 t key1 value1) key2 value2) rangeq,
        tableGet_observed (t := afterPut m1' n1' (afterPut m2' n2' t key2 value2) key1 value1)
          rangeq,
        observed_afterPuts value1 value2 range1 range2 differ rangeq]
    · rw [tableGet_out_of_range, tableGet_out_of_range]
      · exact rangeq
      · exact rangeq

theorem puts_commute_sample : ∃ t, tableCreate (some 0) (some 1) (fun _ => some 2) 1 = some t ∧
    ∃ c1 c2 t1 t12 t2 t21,
      tablePut (some 3) (some 4) t (some ⟨5, keyA⟩) (some sampleData) = .ok (c1, t1) ∧
      tablePut (some 6) (some 7) t1 (some ⟨8, keyB⟩) (some sampleData) = .ok (c2, t12) ∧
      tablePut (some 3) (some 4) t (some ⟨8, keyB⟩) (some sampleData) = .ok (c2, t2) ∧
      tablePut (some 6) (some 7) t2 (some ⟨5, keyA⟩) (some sampleData) = .ok (c1, t21) ∧
      tableSize t12 = tableSize t21 ∧
      ∀ key mem buffer, tableGet mem buffer t12 (some key) =
        tableGet mem buffer t21 (some key) :=
  ⟨_, rfl, puts_commute _ sampleData sampleData (by decide) (by decide) (by decide)
    3 4 6 7 6 7 3 4⟩

end Commute
