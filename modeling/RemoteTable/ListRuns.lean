import RemoteTable.ListOps
import RemoteTable.Runs

/-!
# Runs of list operations

Every run starts from an empty list and uses entries made by `entry_create`.
Two facts hold in all reachable lists: entries have keys and the counter is
the number of entries. Whether the calls of a run follow a null pointer is
decided by the chains they find.
-/

namespace ListRuns

open CStrings Memory Entries FirstMatch ListOps Runs

inductive ListOp where
  | add (mem node : Option Nat) (key : Ptr CString) (data : Ptr Data)
  | remove (key : CString)
  | get (key : CString)
  | getKeys (mem : Option Nat) (dup : Nat → Bool)

inductive ListResult where
  | code (c : Int)
  | entry (e : Option (Ptr Entry))
  | keys (ks : Option (List (Option CString)))

def listStep (list : ListT) : ListOp → Except Fault (ListResult × ListT)
  | .add mem node key data =>
    let r := listAdd node list (entryCreate mem (some key) (some data))
    .ok (.code r.1, r.2)
  | .remove key => do
    let r ← listRemove list (some key)
    pure (.code r.1, r.2)
  | .get key => do
    let e ← listGet list (some key)
    pure (.entry e, list)
  | .getKeys mem dup => do
    let ks ← listGetKeys mem dup list
    pure (.keys ks, list)

/-- No allocation of an addition fails. -/
def ListOp.Allocated : ListOp → Prop
  | .add mem node _ _ => mem ≠ none ∧ node ≠ none
  | _ => True

structure Sound (list : ListT) : Prop where
  keyed : ∀ e ∈ list.entries, ∃ k, keyOf e = some k
  counted : list.size = list.entries.length

theorem emptyList_sound : Sound emptyList := ⟨by simp [emptyList, ListT.entries], rfl⟩

theorem created_key {mem : Option Nat} {key : Ptr CString} {data : Ptr Data} {e : Ptr Entry}
    (h : entryCreate mem (some key) (some data) = some e) : keyOf e = some key.obj := by
  obtain ⟨k, d, hk, _, he⟩ := entryCreate_key h
  cases hk
  simp [keyOf, he]

/-- Everything a completed call does. -/
inductive Stepped (s : ListT) : ListOp → ListResult → ListT → Prop
  | added {mem node key data e} (create : entryCreate mem (some key) (some data) = some e)
      (hk : keyOf e = some key.obj) :
      Stepped s (.add mem node key data) (.code (listAdd node s (some e)).1)
        (listAdd node s (some e)).2
  | refused {mem node key data} (create : entryCreate mem (some key) (some data) = none) :
      Stepped s (.add mem node key data) (.code (-1)) s
  | removed {key code s'} (remove : listRemove s (some key) = .ok (code, s')) :
      Stepped s (.remove key) (.code code) s'
  | got {key e} : Stepped s (.get key) (.entry e) s
  | listed {mem dup ks} : Stepped s (.getKeys mem dup) (.keys ks) s

theorem listStep_cases {s s' : ListT} {op : ListOp} {r : ListResult}
    (step : listStep s op = .ok (r, s')) : Stepped s op r s' := by
  cases op with
  | add mem node key data =>
    simp only [listStep, Except.ok.injEq, Prod.mk.injEq] at step
    obtain ⟨rfl, rfl⟩ := step
    cases create : entryCreate mem (some key) (some data) with
    | none => exact .refused create
    | some e => exact .added create (created_key create)
  | remove key =>
    simp only [listStep, pure_eq_ok, bind_eq_ok_iff, Except.ok.injEq, Prod.mk.injEq] at step
    obtain ⟨⟨code, t⟩, remove, rfl, rfl⟩ := step
    exact .removed remove
  | get key =>
    simp only [listStep, pure_eq_ok, bind_eq_ok_iff, Except.ok.injEq, Prod.mk.injEq] at step
    obtain ⟨_, _, rfl, rfl⟩ := step
    exact .got
  | getKeys mem dup =>
    simp only [listStep, pure_eq_ok, bind_eq_ok_iff, Except.ok.injEq, Prod.mk.injEq] at step
    obtain ⟨_, _, rfl, rfl⟩ := step
    exact .listed

theorem sound_step {s s' : ListT} {op : ListOp} {r : ListResult} (sound : Sound s)
    (step : listStep s op = .ok (r, s')) : Sound s' := by
  cases listStep_cases step with
  | @added mem node key data e create hk =>
    rcases listAdd_entries hk node s with ⟨t, ht, hsize, h⟩ | ⟨t, ht, hsize, h⟩ | ⟨ht, _⟩
    · rw [ht]
      refine ⟨?_, by rw [hsize, sound.counted, h.length]⟩
      intro a ha
      rcases h.mem ha with rfl | ha
      · exact ⟨_, hk⟩
      · exact sound.keyed a ha
    · rw [ht]
      refine ⟨?_, by rw [hsize, sound.counted, h.perm.length_eq]; simp⟩
      intro a ha
      rcases List.mem_cons.mp (h.perm.mem_iff.mp ha) with rfl | ha
      · exact ⟨_, hk⟩
      · exact sound.keyed a ha
    · rw [ht]
      exact sound
  | removed remove =>
    rcases listRemove_entries remove with ⟨_, hsize, h⟩ | ⟨_, rfl, _⟩
    · obtain ⟨old, _, perm⟩ := h.perm
      refine ⟨?_, ?_⟩
      · intro a ha
        exact sound.keyed a (perm.mem_iff.mpr (List.mem_cons_of_mem _ ha))
      · have hlen := perm.length_eq
        rw [List.length_cons] at hlen
        have hcount := sound.counted
        omega
    · exact sound
  | refused create => exact sound
  | got => exact sound
  | listed => exact sound

/-- Removals only take an entry out, so the others keep their order. -/
theorem remove_sublist {list list' : ListT} {k : CString} {code : Int}
    (h : listRemove list (some k) = .ok (code, list')) : list'.entries.Sublist list.entries := by
  rcases listRemove_entries h with ⟨_, _, erased⟩ | ⟨_, rfl, _⟩
  · generalize list.entries = items at erased
    generalize list'.entries = items' at erased
    cases erased with
    | intro => simp
  · exact List.Sublist.refl _

theorem reachable_sound {history : List (Event ListT ListOp ListResult)} {list : ListT}
    (run : Run listStep emptyList history list) :
    Sound list ∧ ∀ e ∈ history, Sound e.before ∧ Sound e.after :=
  run.invariant Sound emptyList_sound fun _ _ _ _ => sound_step

/-- Up to the first node that holds the key, every node holds an entry. -/
def Unblocked (k : CString) : List Node → Prop
  | [] => True
  | n :: rest => n.key = some k ∨ n.key ≠ none ∧ Unblocked k rest

/-- The calls that follow no null pointer, by the chain they find. -/
def Passable (list : ListT) : ListOp → Prop
  | .add .. => True
  | .remove k => list.head ≠ [] ∧ Unblocked k list.head
  | .get k => list.head ≠ [] ∧ Unblocked k list.head
  | .getKeys mem _ => mem = none ∨ ∀ n ∈ list.head, n.key ≠ none

theorem unblocked_hit {k : CString} {pre : List Node} {n : Node} (post : List Node)
    (other : ∀ m ∈ pre, m.Other k) (same : n.key = some k) : Unblocked k (pre ++ n :: post) := by
  induction pre with
  | nil => exact Or.inl same
  | cons m pre ih =>
    obtain ⟨k', hk', _⟩ := other m List.mem_cons_self
    exact Or.inr ⟨by simp [hk'], ih fun x hx => other x (List.mem_cons_of_mem _ hx)⟩

theorem unblocked_miss {k : CString} {nodes : List Node} (other : ∀ m ∈ nodes, m.Other k) :
    Unblocked k nodes := by
  induction nodes with
  | nil => trivial
  | cons m nodes ih =>
    obtain ⟨k', hk', _⟩ := other m List.mem_cons_self
    exact Or.inr ⟨by simp [hk'], ih fun x hx => other x (List.mem_cons_of_mem _ hx)⟩

theorem not_unblocked {k : CString} {pre : List Node} {n : Node} (post : List Node)
    (other : ∀ m ∈ pre, m.Other k) (keyless : n.key = none) :
    ¬ Unblocked k (pre ++ n :: post) := by
  induction pre with
  | nil => simp [Unblocked, keyless]
  | cons m pre ih =>
    obtain ⟨k', hk', hne⟩ := other m List.mem_cons_self
    have hrest := ih fun x hx => other x (List.mem_cons_of_mem _ hx)
    simp [Unblocked, hk', hne, hrest]

/-- `list_get` and `list_remove` return on the same chains. -/
theorem lookup_completes_iff (list : ListT) (k : CString) :
    ((∃ r, listGet list (some k) = .ok r) ↔ list.head ≠ [] ∧ Unblocked k list.head) ∧
    ((∃ r, listRemove list (some k) = .ok r) ↔ list.head ≠ [] ∧ Unblocked k list.head) := by
  have hlook := looked list k
  generalize listGet list (some k) = got at hlook ⊢
  generalize listRemove list (some k) = removed at hlook ⊢
  cases hlook with
  | @hit pre n post e chain other entry key =>
    have free := unblocked_hit post other (show n.key = some k by simp [Node.key, entry, key])
    simp [chain, free]
  | miss nonempty other => simp [nonempty, unblocked_miss other]
  | empty chain => simp [chain]
  | @blocked pre n post chain other keyless => simp [chain, not_unblocked post other keyless]

theorem fillKeys_keyed {capacity : Int} (dup : Nat → Bool) {i : Nat} {nodes : List Node}
    (keyed : ∀ n ∈ nodes, n.key ≠ none) (room : i + nodes.length < capacity) :
    ∃ ks, fillKeys capacity dup i nodes = .ok ks := by
  induction nodes generalizing i with
  | nil =>
    have hi : (i : Int) < capacity := by simpa using room
    exact ⟨[none], by simp [fillKeys, hi]⟩
  | cons n nodes ih =>
    simp only [List.length_cons, Nat.cast_add, Nat.cast_one] at room
    have hi : (i : Int) < capacity := by omega
    obtain ⟨ks, hks⟩ := ih (i := i + 1) (fun m hm => keyed m (List.mem_cons_of_mem _ hm))
      (by push_cast; omega)
    obtain ⟨k, hk⟩ := Option.ne_none_iff_exists'.mp (keyed n List.mem_cons_self)
    exact ⟨(if dup i then some k else none) :: ks, by
      simp only [fillKeys, hk, if_pos hi, hks, ok_bind, pure_eq_ok]⟩

theorem fillKeys_ok {capacity : Int} {dup : Nat → Bool} {i : Nat} {nodes : List Node}
    {ks : List (Option CString)} (h : fillKeys capacity dup i nodes = .ok ks) :
    (∀ n ∈ nodes, n.key ≠ none) ∧
      ((∀ j, dup j = true) → ks = (nodes.filterMap Node.key).map some ++ [none]) := by
  induction nodes generalizing i ks with
  | nil =>
    simp only [fillKeys] at h
    split_ifs at h with hi
    cases h
    simp
  | cons n nodes ih =>
    cases hk : n.key with
    | none => simp [fillKeys, hk] at h
    | some k =>
      by_cases hi : (i : Int) < capacity
      · simp only [fillKeys, hk, if_pos hi, bind_eq_ok_iff, pure_eq_ok, Except.ok.injEq] at h
        obtain ⟨later, hlater, rfl⟩ := h
        obtain ⟨keyed, listing⟩ := ih hlater
        refine ⟨by simpa [hk] using keyed, ?_⟩
        intro hdup
        simp [hk, hdup i, listing hdup]
      · simp [fillKeys, hk, hi] at h

/-- On a full chain there are no more nodes than the counter says. -/
theorem Sound.size_eq_length {list : ListT} (sound : Sound list)
    (keyed : ∀ n ∈ list.head, n.key ≠ none) : list.size = list.head.length := by
  have hall : ∀ n ∈ list.head, (Node.entry n).isSome := by
    intro n hn
    obtain ⟨k, hk⟩ := Option.ne_none_iff_exists'.mp (keyed n hn)
    obtain ⟨e, he, _⟩ := entry_of_key hk
    simp [he]
  rw [sound.counted, ListT.entries, List.length_filterMap_eq_countP]
  norm_cast
  exact List.countP_eq_length.mpr hall

theorem Sound.size_eq_keys {list : ListT} (sound : Sound list) :
    list.size = list.keys.length := by
  have hall : ∀ e ∈ list.entries, (keyOf e).isSome := by
    intro e he
    obtain ⟨k, hk⟩ := sound.keyed e he
    simp [hk]
  rw [sound.counted, keys_eq, List.length_filterMap_eq_countP, List.countP_eq_length.mpr hall]

/-- In a sound list only a node without an entry has no key. -/
theorem Sound.keyless_iff {list : ListT} (sound : Sound list) {n : Node} (hn : n ∈ list.head) :
    n.key = none ↔ n.entry = none := by
  cases hentry : n.entry with
  | none => simp [Node.key, hentry]
  | some e =>
    obtain ⟨k, hkey⟩ := sound.keyed e (List.mem_filterMap.mpr ⟨n, hn, hentry⟩)
    simp [Node.key, hentry, hkey]

theorem getKeys_completes_iff {list : ListT} (sound : Sound list) (mem : Option Nat)
    (dup : Nat → Bool) :
    (∃ r, listGetKeys mem dup list = .ok r) ↔ mem = none ∨ ∀ n ∈ list.head, n.key ≠ none := by
  cases hhead : list.head with
  | nil => simp [listGetKeys, hhead]
  | cons head rest =>
    cases mem with
    | none => simp [listGetKeys, hhead]
    | some a =>
      simp only [listGetKeys, hhead, reduceCtorEq, false_or]
      constructor
      · rintro ⟨r, hr⟩
        obtain ⟨ks, hks, _⟩ := (bind_eq_ok_iff _ _ _).mp hr
        exact (fillKeys_ok hks).1
      · intro keyed
        have hsize := sound.size_eq_length (hhead ▸ keyed)
        rw [hhead] at hsize
        have room : ((0 : Nat) : Int) + (head :: rest).length < list.size + 1 := by omega
        obtain ⟨ks, hks⟩ := fillKeys_keyed dup keyed room
        exact ⟨some ks, by rw [hks, ok_bind, pure_eq_ok]⟩

theorem step_completes_iff (list : ListT) (op : ListOp) (sound : Sound list) :
    (∃ out, listStep list op = .ok out) ↔ Passable list op := by
  cases op with
  | add mem node key data => simp [listStep, Passable]
  | remove key =>
    rw [Passable, ← (lookup_completes_iff list key).2]
    cases h : listRemove list (some key) <;> simp [listStep, h]
  | get key =>
    rw [Passable, ← (lookup_completes_iff list key).1]
    cases h : listGet list (some key) <;> simp [listStep, h]
  | getKeys mem dup =>
    rw [Passable, ← getKeys_completes_iff sound mem dup]
    cases h : listGetKeys mem dup list <;> simp [listStep, h]

/-- A sequence of calls on a new list runs through exactly when every
`list_remove` and `list_get` finds a nonempty list with no vacated node in
front of its key, and every `list_get_keys` a list with no vacated node. -/
theorem calls_complete_iff (ops : List ListOp) :
    (∃ out, play listStep ops [] emptyList = .ok out) ↔
      Meets listStep Passable emptyList ops :=
  play_completes_iff Passable Sound (fun _ _ _ _ => sound_step) step_completes_iff ops []
    emptyList emptyList_sound

def sampleData : Ptr Data := ⟨0, ⟨1, some ⟨1, [⟨7, by decide⟩]⟩⟩⟩

def addKey (k : CString) : ListOp := .add (some 2) (some 3) ⟨4, k⟩ sampleData

/-- An empty list has no head to follow, a vacated node no entry. -/
theorem lookups_follow_null :
    play listStep [.get keyA] [] emptyList = .error .nullPointer ∧
    play listStep [addKey keyA, .remove keyA, .remove keyB] [] emptyList =
      .error .nullPointer ∧
    play listStep [addKey keyA, .remove keyA, .getKeys (some 5) fun _ => true] [] emptyList =
      .error .nullPointer :=
  ⟨rfl, rfl, rfl⟩

end ListRuns
