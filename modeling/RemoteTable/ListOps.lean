import RemoteTable.Entry
import RemoteTable.FirstMatch

/-!
# The linked list of `list.c`

A list is its counter and its nodes in chain order; a node may hold no entry,
which is what `list_remove` leaves at the end of the chain. The walks return
the nodes passed, the node they stopped at and the rest, so that every write
of the code is a change at that node. The address `malloc` gives a new node is
a parameter, `none` being a failed allocation.
-/

namespace ListOps

open CStrings Memory Entries FirstMatch

structure Node where
  addr : Nat
  entry : Option (Ptr Entry)
  deriving DecidableEq

/-- The counter, an `int` of 32 bits in C, is unbounded here: lists have fewer than
2 ^ 31 entries. -/
structure ListT where
  size : Int
  head : List Node
  deriving DecidableEq

def Node.key (n : Node) : Option CString := entryKey n.entry

/-- The entries met along the chain, nodes without one skipped. -/
def ListT.entries (list : ListT) : List (Ptr Entry) := list.head.filterMap Node.entry

def ListT.keys (list : ListT) : List CString := list.head.filterMap Node.key

def emptyList : ListT := ⟨0, []⟩

def listCreate (mem : Option Nat) : Option ListT := mem.map fun _ => emptyList

/-- Where a walk along the chain stopped, with the last comparison made. -/
structure Walk where
  passed : List Node
  current : Node
  comp : Int
  next : List Node
  deriving DecidableEq

/-- The loop of `list_add`: go on while the comparison is negative. -/
def addWalk (entry : Ptr Entry) : Node → List Node → Walk
  | current, [] => ⟨[], current, entryCompare current.entry (some entry), []⟩
  | current, next :: rest =>
    let comp := entryCompare current.entry (some entry)
    if comp < 0 then
      let w := addWalk entry next rest
      { w with passed := current :: w.passed }
    else ⟨[], current, comp, next :: rest⟩

def listAdd (mem : Option Nat) (list : ListT) (entry : Option (Ptr Entry)) : Int × ListT :=
  match entry with
  | none => (-1, list)
  | some entry => match list.head with
    | [] => match mem with
      | none => (-1, list)
      | some a => (0, ⟨list.size + 1, [⟨a, some entry⟩]⟩)
    | head :: rest =>
      let comp := entryCompare head.entry (some entry)
      if comp = 0 then (1, ⟨list.size, { head with entry := some entry } :: rest⟩)
      else if comp > 0 then match mem with
        | none => (-1, list)
        | some a => (0, ⟨list.size + 1, ⟨a, some entry⟩ :: head :: rest⟩)
      else
        let w := addWalk entry head rest
        if w.comp = 0 then
          (1, ⟨list.size, w.passed ++ { w.current with entry := some entry } :: w.next⟩)
        else if w.comp > 0 then match mem with
          | none => (-1, list)
          -- new->next = current->next: the node goes behind the larger key
          | some a => (0, ⟨list.size + 1, w.passed ++ w.current :: ⟨a, some entry⟩ :: w.next⟩)
        else if w.next = [] then match mem with
          | none => (-1, list)
          | some a => (0, ⟨list.size + 1, w.passed ++ [w.current, ⟨a, some entry⟩]⟩)
        else (-1, list)

/-- The entry at the node is traded down the chain and destroyed at its end. -/
def removeNode : Node → List Node → Int × List Node
  | node, [] => (0, [{ node with entry := none }])
  | node, next :: rest =>
    let below := removeNode { next with entry := node.entry } rest
    (below.1, { node with entry := next.entry } :: below.2)

/-- `strcmp(current->entry->key, key)`. -/
def keyCompare (current : Node) (key : CString) : Except Fault Int :=
  match current.key with
  | none => .error .nullPointer
  | some k => .ok (strcmp k key)

/-- The loop of `list_remove` and `list_get`: go on while the keys differ. -/
def keyWalk (key : CString) : Node → List Node → Except Fault Walk
  | current, [] => do
    let comp ← keyCompare current key
    pure ⟨[], current, comp, []⟩
  | current, next :: rest => do
    let comp ← keyCompare current key
    if comp ≠ 0 then
      let w ← keyWalk key next rest
      pure { w with passed := current :: w.passed }
    else pure ⟨[], current, comp, next :: rest⟩

def listRemove (list : ListT) (key : Option CString) : Except Fault (Int × ListT) :=
  match key with
  | none => .ok (-1, list)
  | some key => match list.head with
    | [] => .error .nullPointer
    | head :: rest => do
      let comp ← keyCompare head key
      if comp = 0 then
        let r := removeNode head rest
        if r.1 = 0 then pure (0, ⟨list.size - 1, r.2⟩) else pure (-1, ⟨list.size, r.2⟩)
      else
        let w ← keyWalk key head rest
        if w.comp ≠ 0 then pure (1, list)
        else
          let r := removeNode w.current w.next
          if r.1 = 0 then pure (0, ⟨list.size - 1, w.passed ++ r.2⟩)
          else pure (-1, ⟨list.size, w.passed ++ r.2⟩)

def listGet (list : ListT) (key : Option CString) : Except Fault (Option (Ptr Entry)) :=
  match key with
  | none => .ok none
  | some key => match list.head with
    | [] => .error .nullPointer
    | head :: rest => do
      let w ← keyWalk key head rest
      pure (if w.comp = 0 then w.current.entry else none)

def listSize (list : ListT) : Int := list.size

/-- The loop of `list_get_keys` from index `i`; `dup` says which `strdup` calls
return a copy. The result is what is written from `keys[i]` on. -/
def fillKeys (capacity : Int) (dup : Nat → Bool) : Nat → List Node →
    Except Fault (List (Option CString))
  | i, [] => if i < capacity then .ok [none] else .error .outOfBounds
  | i, current :: rest => match current.key with
    | none => .error .nullPointer
    | some k =>
      if i < capacity then do
        let later ← fillKeys capacity dup (i + 1) rest
        pure ((if dup i then some k else none) :: later)
      else .error .outOfBounds

def listGetKeys (mem : Option Nat) (dup : Nat → Bool) (list : ListT) :
    Except Fault (Option (List (Option CString))) :=
  match list.head, mem with
  | [], _ => .ok none
  | _ :: _, none => .ok none
  | head :: rest, some _ => do
    let keys ← fillKeys (list.size + 1) dup 0 (head :: rest)
    pure (some keys)

/-- Passed by the walk of `list_add`: without a key, or with a smaller one. -/
def Node.Below (k : CString) (n : Node) : Prop := ∀ k', n.key = some k' → k' < k

/-- Passed by the walk of `list_get`: with a key, but another one. -/
def Node.Other (k : CString) (n : Node) : Prop := ∃ k', n.key = some k' ∧ k' ≠ k

/-- Everything `list_add` can do for an entry with key `k`. -/
inductive Added (list : ListT) (mem : Option Nat) (e : Ptr Entry) (k : CString) :
    Int × ListT → Prop
  | found {pre n post} (chain : list.head = pre ++ n :: post) (below : ∀ m ∈ pre, m.Below k)
      (same : n.key = some k) :
      Added list mem e k (1, ⟨list.size, pre ++ { n with entry := some e } :: post⟩)
  | front {a n post k'} (new : mem = some a) (chain : list.head = n :: post)
      (larger : n.key = some k') (lt : k < k') :
      Added list mem e k (0, ⟨list.size + 1, ⟨a, some e⟩ :: n :: post⟩)
  | behind {a pre n post k'} (new : mem = some a) (chain : list.head = pre ++ n :: post)
      (inner : pre ≠ []) (below : ∀ m ∈ pre, m.Below k) (larger : n.key = some k')
      (lt : k < k') :
      Added list mem e k (0, ⟨list.size + 1, pre ++ n :: ⟨a, some e⟩ :: post⟩)
  | last {a} (new : mem = some a) (below : ∀ m ∈ list.head, m.Below k) :
      Added list mem e k (0, ⟨list.size + 1, list.head ++ [⟨a, some e⟩]⟩)
  | failed (new : mem = none) : Added list mem e k (-1, list)

structure Stopped (e : Ptr Entry) (k : CString) (chain : List Node) (w : Walk) : Prop where
  split : chain = w.passed ++ w.current :: w.next
  comp : w.comp = entryCompare w.current.entry (some e)
  below : ∀ m ∈ w.passed, m.Below k
  exhausted : w.comp < 0 → w.next = []

theorem addWalk_stopped {e : Ptr Entry} {k : CString} (hk : keyOf e = some k)
    (current : Node) (rest : List Node) :
    Stopped e k (current :: rest) (addWalk e current rest) := by
  induction rest generalizing current with
  | nil => exact ⟨rfl, rfl, by simp [addWalk], fun _ => rfl⟩
  | cons next rest ih =>
    by_cases h : entryCompare current.entry (some e) < 0
    · have tail := ih next
      simp only [addWalk, if_pos h]
      refine ⟨by simpa using tail.split, tail.comp, ?_, tail.exhausted⟩
      intro m hm
      rcases List.mem_cons.mp hm with rfl | hm
      · exact (entryCompare_neg_iff _ hk).mp h
      · exact tail.below m hm
    · simp only [addWalk, if_neg h]
      exact ⟨rfl, rfl, by simp, fun hneg => absurd hneg h⟩

/-- A nonnegative comparison was made with a key. -/
theorem key_of_compare {n : Node} {e : Ptr Entry} {k : CString}
    (hk : keyOf e = some k) (h : ¬ entryCompare n.entry (some e) < 0) :
    ∃ k', n.key = some k' := by
  rw [entryCompare_neg_iff _ hk] at h
  push Not at h
  obtain ⟨k', hk', _⟩ := h
  exact ⟨k', hk'⟩

theorem same_of_compare {n : Node} {e : Ptr Entry} {k : CString} (hk : keyOf e = some k)
    (h : entryCompare n.entry (some e) = 0) : n.key = some k := by
  obtain ⟨k', hk'⟩ := key_of_compare hk (n := n) (by omega)
  rw [hk', (entryCompare_eq_zero_iff hk' hk).mp h]

theorem larger_of_compare {n : Node} {e : Ptr Entry} {k : CString} (hk : keyOf e = some k)
    (h : entryCompare n.entry (some e) > 0) : ∃ k', n.key = some k' ∧ k < k' := by
  obtain ⟨k', hk'⟩ := key_of_compare hk (n := n) (by omega)
  exact ⟨k', hk', (entryCompare_pos_iff hk' hk).mp h⟩

/-- A walk that met a smaller head and then a larger key has left the head. -/
theorem Stopped.inner {e : Ptr Entry} {k : CString} {head : Node} {rest : List Node} {w : Walk}
    (walk : Stopped e k (head :: rest) w) (hhead : ¬ entryCompare head.entry (some e) > 0)
    (hcomp : w.comp > 0) : w.passed ≠ [] := by
  intro hnil
  have hsplit := walk.split
  rw [hnil, List.nil_append] at hsplit
  have hcurrent : head = w.current := (List.cons.inj hsplit).1
  rw [walk.comp, ← hcurrent] at hcomp
  exact hhead hcomp

theorem listAdd_added {e : Ptr Entry} {k : CString} (hk : keyOf e = some k)
    (mem : Option Nat) (list : ListT) : Added list mem e k (listAdd mem list (some e)) := by
  cases hhead : list.head with
  | nil =>
    cases mem with
    | none => simpa [listAdd, hhead] using Added.failed rfl
    | some a =>
      have below : ∀ m ∈ list.head, m.Below k := by simp [hhead]
      simpa [listAdd, hhead] using Added.last (e := e) (a := a) rfl below
  | cons head rest =>
    simp only [listAdd, hhead]
    by_cases hzero : entryCompare head.entry (some e) = 0
    · rw [if_pos hzero]
      have chain : list.head = [] ++ head :: rest := hhead
      exact Added.found chain (by simp) (same_of_compare hk hzero)
    rw [if_neg hzero]
    by_cases hpos : entryCompare head.entry (some e) > 0
    · rw [if_pos hpos]
      obtain ⟨k', hk', hlt⟩ := larger_of_compare hk hpos
      cases mem with
      | none => exact Added.failed rfl
      | some a => exact Added.front rfl hhead hk' hlt
    rw [if_neg hpos]
    have walk := addWalk_stopped hk head rest
    generalize addWalk e head rest = w at walk
    have chain : list.head = w.passed ++ w.current :: w.next := hhead.trans walk.split
    by_cases wzero : w.comp = 0
    · rw [if_pos wzero]
      exact Added.found chain walk.below (same_of_compare hk (walk.comp ▸ wzero))
    rw [if_neg wzero]
    by_cases wpos : w.comp > 0
    · rw [if_pos wpos]
      obtain ⟨k', hk', hlt⟩ := larger_of_compare hk (n := w.current) (walk.comp ▸ wpos)
      cases mem with
      | none => exact Added.failed rfl
      | some a => exact Added.behind rfl chain (walk.inner hpos wpos) walk.below hk' hlt
    rw [if_neg wpos]
    have hnext : w.next = [] := walk.exhausted (by omega)
    rw [if_pos hnext]
    cases mem with
    | none => exact Added.failed rfl
    | some a =>
      have below : ∀ m ∈ list.head, m.Below k := by
        intro m hm
        rw [chain, hnext] at hm
        rcases List.mem_append.mp hm with hm | hm
        · exact walk.below m hm
        · obtain rfl := List.mem_singleton.mp hm
          exact (entryCompare_neg_iff _ hk).mp (by have := walk.comp; omega)
      have := Added.last (e := e) (a := a) rfl below
      simpa [chain, hnext] using this

theorem removeNode_code (node : Node) (rest : List Node) : (removeNode node rest).1 = 0 := by
  induction rest generalizing node with
  | nil => rfl
  | cons next rest ih => exact ih _

/-- The entries below move up by one node and the last node is vacated. -/
theorem removeNode_entries (node : Node) (rest : List Node) :
    (removeNode node rest).2.map Node.entry = rest.map Node.entry ++ [none] := by
  induction rest generalizing node with
  | nil => rfl
  | cons next rest ih => simp [removeNode, ih]

theorem removeNode_addrs (node : Node) (rest : List Node) :
    (removeNode node rest).2.map Node.addr = node.addr :: rest.map Node.addr := by
  induction rest generalizing node with
  | nil => rfl
  | cons next rest ih => simp [removeNode, ih]

/-- The outcomes of looking a key up, for `list_get` and for `list_remove`. -/
inductive Looked (list : ListT) (k : CString) :
    Except Fault (Option (Ptr Entry)) → Except Fault (Int × ListT) → Prop
  | hit {pre n post e} (chain : list.head = pre ++ n :: post) (other : ∀ m ∈ pre, m.Other k)
      (entry : n.entry = some e) (key : keyOf e = some k) :
      Looked list k (.ok (some e)) (.ok (0, ⟨list.size - 1, pre ++ (removeNode n post).2⟩))
  | miss (nonempty : list.head ≠ []) (other : ∀ m ∈ list.head, m.Other k) :
      Looked list k (.ok none) (.ok (1, list))
  | empty (chain : list.head = []) :
      Looked list k (.error .nullPointer) (.error .nullPointer)
  | blocked {pre n post} (chain : list.head = pre ++ n :: post) (other : ∀ m ∈ pre, m.Other k)
      (keyless : n.key = none) : Looked list k (.error .nullPointer) (.error .nullPointer)

inductive Searched (k : CString) (chain : List Node) : Except Fault Walk → Prop
  | hit {pre n post} (split : chain = pre ++ n :: post) (other : ∀ m ∈ pre, m.Other k)
      (same : n.key = some k) : Searched k chain (.ok ⟨pre, n, 0, post⟩)
  | miss {w} (other : ∀ m ∈ chain, m.Other k) (comp : w.comp ≠ 0) : Searched k chain (.ok w)
  | blocked {pre n post} (split : chain = pre ++ n :: post) (other : ∀ m ∈ pre, m.Other k)
      (keyless : n.key = none) : Searched k chain (.error .nullPointer)

theorem keyCompare_same {k : CString} {n : Node} (h : n.key = some k) :
    keyCompare n k = .ok 0 := by
  simp [keyCompare, h, strcmp_self]

theorem keyCompare_other {k : CString} {n : Node} (h : n.Other k) :
    ∃ c, keyCompare n k = .ok c ∧ c ≠ 0 := by
  obtain ⟨k', hk', hne⟩ := h
  exact ⟨strcmp k' k, by simp [keyCompare, hk'], by rwa [Ne, strcmp_eq_zero_iff]⟩

theorem keyCompare_keyless {k : CString} {n : Node} (h : n.key = none) :
    keyCompare n k = .error .nullPointer := by
  simp [keyCompare, h]

theorem node_cases (k : CString) (n : Node) : n.key = some k ∨ n.Other k ∨ n.key = none := by
  cases h : n.key with
  | none => exact Or.inr (Or.inr rfl)
  | some k' =>
    by_cases hk : k' = k
    · exact Or.inl (by rw [hk])
    · exact Or.inr (Or.inl ⟨k', h, hk⟩)

theorem Searched.passed {k : CString} {n : Node} {chain : List Node} (hn : n.Other k)
    {out : Except Fault Walk} (h : Searched k chain out) :
    Searched k (n :: chain) (out >>= fun w => .ok { w with passed := n :: w.passed }) := by
  cases h with
  | @hit pre m post split other same =>
    exact .hit (by simp [split]) (by simpa using ⟨hn, other⟩) same
  | miss other comp => exact .miss (by simpa using ⟨hn, other⟩) comp
  | @blocked pre m post split other keyless =>
    have split' : n :: chain = (n :: pre) ++ m :: post := by rw [split]; rfl
    exact .blocked split' (by simpa using ⟨hn, other⟩) keyless

theorem keyWalk_searched (k : CString) (current : Node) (rest : List Node) :
    Searched k (current :: rest) (keyWalk k current rest) := by
  have start : current :: rest = [] ++ current :: rest := rfl
  induction rest generalizing current with
  | nil =>
    rcases node_cases k current with same | other | keyless
    · simpa [keyWalk, keyCompare_same same] using Searched.hit start (by simp) same
    · obtain ⟨c, hc, hne⟩ := keyCompare_other other
      simp only [keyWalk, hc, ok_bind, pure_eq_ok]
      exact .miss (by simpa using other) hne
    · simpa [keyWalk, keyCompare_keyless keyless] using Searched.blocked start (by simp) keyless
  | cons next rest ih =>
    rcases node_cases k current with same | other | keyless
    · simpa [keyWalk, keyCompare_same same] using Searched.hit start (by simp) same
    · obtain ⟨c, hc, hne⟩ := keyCompare_other other
      simp only [keyWalk, hc, ok_bind, pure_eq_ok, if_pos hne]
      exact (ih next rfl).passed other
    · simpa [keyWalk, keyCompare_keyless keyless] using Searched.blocked start (by simp) keyless

theorem entry_of_key {n : Node} {k : CString} (h : n.key = some k) :
    ∃ e, n.entry = some e ∧ keyOf e = some k := by
  cases hentry : n.entry with
  | none => simp [Node.key, hentry] at h
  | some e => exact ⟨e, rfl, by simpa [Node.key, hentry] using h⟩

theorem looked (list : ListT) (k : CString) :
    Looked list k (listGet list (some k)) (listRemove list (some k)) := by
  cases hhead : list.head with
  | nil => simpa [listGet, listRemove, hhead] using Looked.empty hhead
  | cons head rest =>
    simp only [listGet, listRemove, hhead]
    have walk := keyWalk_searched k head rest
    generalize keyWalk k head rest = out at walk
    cases walk with
    | @hit pre n post split other same =>
      obtain ⟨e, entry, key⟩ := entry_of_key same
      have found := Looked.hit (hhead.trans split) other entry key
      cases pre with
      | nil =>
        obtain ⟨rfl, rfl⟩ := List.cons.inj split
        simpa [keyCompare_same same, removeNode_code, entry] using found
      | cons m pre =>
        obtain ⟨rfl, rfl⟩ := List.cons.inj split
        obtain ⟨c, hc, hne⟩ := keyCompare_other (other head List.mem_cons_self)
        simpa [hc, hne, removeNode_code, entry] using found
    | @miss w other comp =>
      have missed := Looked.miss (k := k) (by simp [hhead]) (hhead ▸ other)
      obtain ⟨c, hc, hne⟩ := keyCompare_other (other head List.mem_cons_self)
      simpa [hc, hne, comp] using missed
    | @blocked pre n post split other keyless =>
      have stuck := Looked.blocked (hhead.trans split) other keyless
      cases pre with
      | nil =>
        obtain ⟨rfl, rfl⟩ := List.cons.inj split
        simpa [keyCompare_keyless keyless] using stuck
      | cons m pre =>
        obtain ⟨rfl, rfl⟩ := List.cons.inj split
        obtain ⟨c, hc, hne⟩ := keyCompare_other (other head List.mem_cons_self)
        simpa [hc, hne] using stuck

theorem keys_eq (list : ListT) : list.keys = list.entries.filterMap keyOf := by
  rw [ListT.keys, ListT.entries, List.filterMap_filterMap]
  rfl

theorem Node.Below.absent {k : CString} {nodes : List Node} (h : ∀ m ∈ nodes, m.Below k) :
    ∀ a ∈ nodes.filterMap Node.entry, keyOf a ≠ some k := by
  intro a ha hkey
  obtain ⟨m, hm, hentry⟩ := List.mem_filterMap.mp ha
  exact lt_irrefl k (h m hm k (by simpa [Node.key, hentry] using hkey))

theorem Node.Other.absent {k : CString} {nodes : List Node} (h : ∀ m ∈ nodes, m.Other k) :
    ∀ a ∈ nodes.filterMap Node.entry, keyOf a ≠ some k := by
  intro a ha hkey
  obtain ⟨m, hm, hentry⟩ := List.mem_filterMap.mp ha
  obtain ⟨k', hk', hne⟩ := h m hm
  exact hne (Option.some.inj (by rw [← hk', Node.key, hentry]; exact hkey))

/-- `list_add` on the entries alone: order and position forgotten. -/
theorem listAdd_entries {e : Ptr Entry} {k : CString} (hk : keyOf e = some k)
    (mem : Option Nat) (list : ListT) :
    (∃ list', listAdd mem list (some e) = (1, list') ∧ list'.size = list.size ∧
      Replaced keyOf k e list.entries list'.entries) ∨
    (∃ list', listAdd mem list (some e) = (0, list') ∧ list'.size = list.size + 1 ∧
      Inserted keyOf k e list.entries list'.entries) ∨
    (listAdd mem list (some e) = (-1, list) ∧ mem = none) := by
  have added := listAdd_added hk mem list
  generalize listAdd mem list (some e) = out at added ⊢
  cases added with
  | @found pre n post chain below same =>
    obtain ⟨old, hold, hkey⟩ := entry_of_key same
    have absent := Node.Below.absent below
    have replaced : Replaced keyOf k e
        (pre.filterMap Node.entry ++ old :: post.filterMap Node.entry)
        (pre.filterMap Node.entry ++ e :: post.filterMap Node.entry) := .intro absent hkey
    exact Or.inl ⟨_, rfl, rfl, by simpa [ListT.entries, chain, hold] using replaced⟩
  | @front a n post k' new chain larger lt =>
    have inserted : Inserted keyOf k e ([] ++ list.entries) ([] ++ e :: list.entries) :=
      .intro (by simp)
    exact Or.inr (Or.inl ⟨_, rfl, rfl, by simpa [ListT.entries, chain] using inserted⟩)
  | @behind a pre n post k' new chain inner below larger lt =>
    -- the larger key in front of the new node is not k either
    obtain ⟨x, hx, hkey⟩ := entry_of_key larger
    have absent : ∀ b ∈ pre.filterMap Node.entry ++ [x], keyOf b ≠ some k := by
      intro b hb
      rcases List.mem_append.mp hb with hb | hb
      · exact Node.Below.absent below b hb
      · obtain rfl := List.mem_singleton.mp hb
        rw [hkey]
        simpa using lt.ne'
    have inserted : Inserted keyOf k e
        (pre.filterMap Node.entry ++ [x] ++ post.filterMap Node.entry)
        (pre.filterMap Node.entry ++ [x] ++ e :: post.filterMap Node.entry) := .intro absent
    exact Or.inr (Or.inl ⟨_, rfl, rfl, by simpa [ListT.entries, chain, hx] using inserted⟩)
  | @last a new below =>
    have inserted : Inserted keyOf k e (list.entries ++ []) (list.entries ++ [e]) :=
      .intro (Node.Below.absent below)
    exact Or.inr (Or.inl ⟨_, rfl, rfl, by simpa [ListT.entries] using inserted⟩)
  | failed new => exact Or.inr (Or.inr ⟨rfl, new⟩)

theorem removeNode_filterMap {β : Type} (f : Option (Ptr Entry) → Option β) (hf : f none = none)
    (node : Node) (rest : List Node) :
    (removeNode node rest).2.filterMap (fun n => f n.entry) =
      rest.filterMap (fun n => f n.entry) := by
  have slots := congrArg (List.filterMap f) (removeNode_entries node rest)
  simpa [List.filterMap_map, hf, Function.comp_def] using slots

theorem listGet_first {list : ListT} {k : CString} {r : Option (Ptr Entry)}
    (h : listGet list (some k) = .ok r) : r = first keyOf k list.entries := by
  have hlook := looked list k
  rw [h] at hlook
  generalize listRemove list (some k) = removed at hlook
  cases hlook with
  | @hit pre n post e chain other entry key =>
    have hat := first_at (Node.Other.absent other) key (post.filterMap Node.entry)
    simpa [ListT.entries, chain, entry] using hat.symm
  | miss nonempty other =>
    refine (first_eq_none_iff.mpr ?_).symm
    intro hmem
    obtain ⟨a, ha, hkey⟩ := List.mem_filterMap.mp hmem
    exact Node.Other.absent other a ha hkey

theorem listRemove_entries {list list' : ListT} {k : CString} {code : Int}
    (h : listRemove list (some k) = .ok (code, list')) :
    (code = 0 ∧ list'.size = list.size - 1 ∧ Erased keyOf k list.entries list'.entries) ∨
    (code = 1 ∧ list' = list ∧ k ∉ list.keys) := by
  have hlook := looked list k
  rw [h] at hlook
  generalize listGet list (some k) = got at hlook
  cases hlook with
  | @hit pre n post e chain other entry key =>
    refine Or.inl ⟨rfl, rfl, ?_⟩
    have up : (removeNode n post).2.filterMap Node.entry = post.filterMap Node.entry :=
      removeNode_filterMap id rfl n post
    have erased : Erased keyOf k
        (pre.filterMap Node.entry ++ e :: post.filterMap Node.entry)
        (pre.filterMap Node.entry ++ post.filterMap Node.entry) :=
      .intro (Node.Other.absent other) key
    simpa [ListT.entries, chain, entry, up] using erased
  | miss nonempty other =>
    refine Or.inr ⟨rfl, rfl, ?_⟩
    intro hmem
    rw [keys_eq] at hmem
    obtain ⟨a, ha, hkey⟩ := List.mem_filterMap.mp hmem
    exact Node.Other.absent other a ha hkey

end ListOps
