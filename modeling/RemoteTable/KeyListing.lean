import RemoteTable.ListOrder

/-!
# The array of keys

`list_get_keys` sizes its array by the counter and fills it by walking the
nodes, and removals leave nodes behind. The indices it writes to are bounded by
the number of keys it passes, and this number is the counter in every reachable
list. `list_free_keys` reads the array up to the first null pointer.
-/

namespace KeyListing

open CStrings Memory ListOps ListRuns ListOrder Runs

/-- The indices that `list_get_keys` writes to, from index `i` on; it stops
where it would read the key of a missing entry. -/
def keyIndices : Nat → List Node → List Nat
  | i, [] => [i]
  | i, current :: rest => match current.key with
    | none => []
    | some _ => i :: keyIndices (i + 1) rest

/-- The loop of `list_free_keys`: the strings it frees and the index it stops at. -/
def freeLoop : Nat → List (Option CString) → Except Fault (List CString × Nat)
  | _, [] => .error .outOfBounds
  | i, none :: _ => .ok ([], i)
  | i, some k :: rest => do
    let r ← freeLoop (i + 1) rest
    pure (k :: r.1, r.2)

def listFreeKeys : Option (List (Option CString)) → Except Fault (Int × List CString)
  | none => .ok (-1, [])
  | some keys => do
    let r ← freeLoop 0 keys
    pure (0, r.1)

theorem fillKeys_outOfBounds_iff (capacity : Int) (dup : Nat → Bool) (i : Nat)
    (nodes : List Node) :
    fillKeys capacity dup i nodes = .error .outOfBounds ↔
      ∃ j ∈ keyIndices i nodes, capacity ≤ j := by
  induction nodes generalizing i with
  | nil =>
    by_cases room : (i : Int) < capacity
    · simp [fillKeys, keyIndices, room]
    · have outside : capacity ≤ i := by omega
      simp [fillKeys, keyIndices, room, outside]
  | cons n nodes ih =>
    cases hk : n.key with
    | none => simp [fillKeys, keyIndices, hk]
    | some k =>
      by_cases room : (i : Int) < capacity
      · have inside : ¬ capacity ≤ i := by omega
        simp only [keyIndices, hk, List.mem_cons, exists_eq_or_imp, inside, false_or]
        rw [← ih]
        cases h : fillKeys capacity dup (i + 1) nodes <;> simp [fillKeys, hk, room, h]
      · have outside : capacity ≤ i := by omega
        simp [fillKeys, keyIndices, hk, room, outside]

theorem keyIndices_le {i j : Nat} {nodes : List Node} (h : j ∈ keyIndices i nodes) :
    j ≤ i + (nodes.filterMap Node.key).length := by
  induction nodes generalizing i with
  | nil =>
    obtain rfl : j = i := by simpa [keyIndices] using h
    simp
  | cons n nodes ih =>
    cases hk : n.key with
    | none => simp [keyIndices, hk] at h
    | some k =>
      simp only [keyIndices, hk, List.mem_cons] at h
      simp only [List.filterMap_cons, hk, List.length_cons]
      rcases h with rfl | h
      · omega
      · have bound := ih h
        omega

theorem indices_inside {list : ListT} (sound : Sound list) :
    ∀ j ∈ keyIndices 0 list.head, (j : Int) ≤ list.size := by
  intro j hj
  have bound := keyIndices_le hj
  have counted := sound.size_eq_keys
  rw [ListT.keys] at counted
  omega

theorem getKeys_inside {list : ListT} (sound : Sound list) (mem : Option Nat)
    (dup : Nat → Bool) : listGetKeys mem dup list ≠ .error .outOfBounds := by
  cases hhead : list.head with
  | nil => simp [listGetKeys, hhead]
  | cons head rest =>
    cases mem with
    | none => simp [listGetKeys, hhead]
    | some a =>
      intro h
      cases filled : fillKeys (list.size + 1) dup 0 (head :: rest) with
      | ok ks => simp [listGetKeys, hhead, filled] at h
      | error fault =>
        obtain rfl : fault = .outOfBounds := by simpa [listGetKeys, hhead, filled] using h
        obtain ⟨j, hj, outside⟩ := (fillKeys_outOfBounds_iff _ _ _ _).mp filled
        have inside := indices_inside sound j (hhead ▸ hj)
        omega

theorem freeLoop_listing (ks : List CString) (i : Nat) :
    freeLoop i (ks.map some ++ [none]) = .ok (ks, i + ks.length) := by
  induction ks generalizing i with
  | nil => rfl
  | cons k ks ih =>
    simp only [List.map_cons, List.cons_append, freeLoop, ih, ok_bind, pure_eq_ok,
      List.length_cons]
    rw [Nat.add_assoc, Nat.add_comm 1]

/-- Every index that `list_get_keys` writes to is at most the counter. On a
nonempty chain it returns a null pointer when it has no array, and else, if
every key is copied, the keys of the chain and the null pointer that
`list_free_keys` stops at. -/
theorem listing_inside_array {history : List (Event ListT ListOp ListResult)} {list : ListT}
    (run : Run listStep emptyList history list) :
    (∀ j ∈ keyIndices 0 list.head, (j : Int) ≤ list.size) ∧
    (∀ mem dup, listGetKeys mem dup list ≠ .error .outOfBounds) ∧
    (list.head ≠ [] → ∀ mem dup got, listGetKeys mem dup list = .ok got →
      (mem = none → got = none) ∧
      (mem ≠ none → (∀ i, dup i = true) →
        (∀ n ∈ list.head, n.key ≠ none) ∧ (list.keys.length : Int) = listSize list ∧
        got = some (list.keys.map some ++ [none]) ∧
        freeLoop 0 (list.keys.map some ++ [none]) = .ok (list.keys, list.keys.length) ∧
        listFreeKeys got = .ok (0, list.keys))) := by
  have sound := (reachable_sound run).1
  refine ⟨indices_inside sound, getKeys_inside sound, ?_⟩
  intro nonempty mem dup got completes
  obtain ⟨head, rest, hhead⟩ := List.exists_cons_of_ne_nil nonempty
  constructor
  · rintro rfl
    simpa [listGetKeys, hhead, eq_comm] using completes
  intro array copied
  obtain ⟨a, rfl⟩ := Option.ne_none_iff_exists'.mp array
  obtain rfl : dup = fun _ => true := funext copied
  have keyed : ∀ n ∈ list.head, n.key ≠ none := by
    have passed := (getKeys_completes_iff sound (some a) _).mp ⟨got, completes⟩
    simpa using passed
  obtain ⟨ks, rfl⟩ : ∃ ks, got = some ks := by
    simp only [listGetKeys, hhead, bind_eq_ok_iff, pure_eq_ok, Except.ok.injEq] at completes
    obtain ⟨ks, _, rfl⟩ := completes
    exact ⟨ks, rfl⟩
  have freed := freeLoop_listing list.keys 0
  rw [Nat.zero_add] at freed
  have listing := getKeys_listing completes
  refine ⟨keyed, sound.size_eq_keys.symm, by rw [listing], freed, ?_⟩
  rw [listing, listFreeKeys, freed]
  rfl

theorem listing_inside_array_sample : ∃ history list,
    Run listStep emptyList history list ∧ list.head ≠ [] ∧
      listGetKeys (some 5) (fun _ => true) list = .ok (some [some keyA, some keyB, none]) ∧
      ∀ j ∈ keyIndices 0 list.head, (j : Int) ≤ list.size := by
  obtain ⟨history, list, played, nonempty, listed⟩ : ∃ history list,
      play listStep [addKey keyA, addKey keyB] [] emptyList = .ok (history, list) ∧
        list.head ≠ [] ∧
        listGetKeys (some 5) (fun _ => true) list = .ok (some [some keyA, some keyB, none]) :=
    ⟨_, _, rfl, List.cons_ne_nil _ _, rfl⟩
  have run := play_run _ .start played
  exact ⟨history, list, run, nonempty, listed, (listing_inside_array run).1⟩

/-- Without memory for the array the call completes with a null pointer. -/
theorem no_array_no_keys : ∃ history list,
    Run listStep emptyList history list ∧ list.keys = [keyA] ∧ list.head ≠ [] ∧
      listGetKeys none (fun _ => true) list = .ok none := by
  obtain ⟨history, list, played, keys, nonempty⟩ : ∃ history list,
      play listStep [addKey keyA] [] emptyList = .ok (history, list) ∧
        list.keys = [keyA] ∧ list.head ≠ [] :=
    ⟨_, _, rfl, by decide, List.cons_ne_nil _ _⟩
  refine ⟨history, list, play_run _ .start played, keys, nonempty, ?_⟩
  obtain ⟨head, rest, hhead⟩ := List.exists_cons_of_ne_nil nonempty
  simp [listGetKeys, hhead]

end KeyListing
