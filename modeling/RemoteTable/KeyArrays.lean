import RemoteTable.Footprint

/-!
# Arrays of keys on the store

`list_get_keys` copies the keys into an array that ends with a null pointer; a
copy that fails is a null pointer too. Three functions release such arrays with
one loop, which takes the first null pointer for the end. So what is behind a
failed copy stays, and all else is released once. An array of entries is released
by the same loop, and what the entries point to stays.
-/

namespace KeyArrays

open CStrings Memory Entries ListOps ListMemory ListImage ListRuns Ownership Tables TableMemory
open TableImage TableRuns Runs Ledger Footprint

/-- `keys[i] = p`. -/
def setElement (σ : Store) (keys i : Nat) (p : Option Nat) : Except Fault Store := do
  let cells ← loadArray σ (some keys)
  if i < cells.length then σ.store keys (.array (cells.set i p)) else throw .outOfBounds

/-- The loop of `list_get_keys` from index `i` on, and the null pointer behind it. -/
def copyLoop (dup : Nat → Bool) (keys : Nat) :
    Nat → Nat → Store → Option Nat → Except Fault Store
  | 0, _, _, _ => throw .endless
  | _ + 1, i, σ, none => setElement σ keys i none
  | fuel + 1, i, σ, some current => do
    let (entry, _) ← loadNode σ (some current)
    let (key, _) ← loadEntry σ entry
    let k ← loadChars σ key
    let (copy, σ) := malloc (dup i) σ (.chars k)
    let σ ← setElement σ keys i copy
    let (_, next) ← loadNode σ (some current)
    copyLoop dup keys fuel (i + 1) σ next

/-- `memory` is what the array holds before it is written to. -/
def listGetKeys (mem : Bool) (dup : Nat → Bool) (memory : Nat → Option Nat) (σ : Store)
    (list : Option Nat) : Except Fault (Option Nat × Store) :=
  match list with
  | none => pure (none, σ)
  | some list => do
    let (size, head) ← loadList σ (some list)
    if head = none then pure (none, σ)
    else if size + 1 < 0 then pure (none, σ)
    else match malloc mem σ (.array ((List.range (size + 1).toNat).map memory)) with
      | (none, σ) => pure (none, σ)
      | (some keys, σ) => do
        let σ ← copyLoop dup keys σ.next 0 σ head
        pure (some keys, σ)

/-- `while(keys[i])` from index `i`, with `m` elements to go. What is printed on the
way is read from the strings. -/
def freeLoop (prints : Bool) (keys : Nat) : Nat → Nat → Store → Except Fault (List CString × Store)
  | _, 0, _ => throw .outOfBounds
  | i, m + 1, σ => do
    let cells ← loadArray σ (some keys)
    match cells[i]? with
    | none => throw .outOfBounds
    | some none => pure ([], σ)
    | some (some key) => do
      let now ← if prints then do pure [← loadChars σ (some key)] else pure []
      let σ ← σ.free key
      let (later, σ) ← freeLoop prints keys (i + 1) m σ
      pure (now ++ later, σ)

/-- The elements up to the first null pointer, then the array. -/
def freeArray (prints : Bool) (σ : Store) (keys : Nat) : Except Fault (List CString × Store) := do
  let cells ← loadArray σ (some keys)
  let (printed, σ) ← freeLoop prints keys 0 cells.length σ
  let σ ← σ.free keys
  pure (printed, σ)

def listFreeKeys (σ : Store) (keys : Option Nat) : Except Fault (Int × Store) :=
  match keys with
  | none => pure (-1, σ)
  | some keys => do
    let (_, σ) ← freeArray false σ keys
    pure (0, σ)

def tableFreeKeys (σ : Store) (keys : Option Nat) : Except Fault (Int × Store) :=
  match keys with
  | none => pure (-1, σ)
  | some keys => do
    let (_, σ) ← freeArray false σ keys
    pure (0, σ)

/-- The keys are printed; there is no test of the array. -/
def rtableFreeKeys (σ : Store) (keys : Option Nat) : Except Fault (List CString × Store) :=
  match keys with
  | none => throw .nullPointer
  | some keys => freeArray true σ keys

/-- The entries are released and not what they point to. -/
def rtableFreeEntries (σ : Store) (entries : Option Nat) : Except Fault Store :=
  match entries with
  | none => throw .nullPointer
  | some entries => do
    let (_, σ) ← freeArray false σ entries
    pure σ

/-- The copies that were made, with the places of those that were not. -/
def copiesImage (copies : List (Option (Ptr CString))) : Image :=
  (copies.map (optionImage keyImage)).sum

@[simp] theorem copiesImage_nil : copiesImage [] = 0 := rfl

@[simp] theorem copiesImage_cons (c : Option (Ptr CString)) (copies : List (Option (Ptr CString))) :
    copiesImage (c :: copies) = optionImage keyImage c + copiesImage copies := rfl

section Arrays

variable {σ : Store} {F : Image} {keys : Nat}

theorem loadArray_exhausts (keys : Nat) (cells : List (Option Nat)) {m : Image} (owns : Owns σ m)
    (mem : (keys, Block.array cells) ∈ m) : loadArray σ (some keys) = .ok cells := by
  simp [loadArray, owns.load mem]

theorem setElement_image {front back : List (Option Nat)} {old p : Option Nat}
    (holds : Exhausts σ ({(keys, .array (front ++ old :: back))} + F)) :
    ∃ σ', setElement σ keys front.length p = .ok σ' ∧
      Exhausts σ' ({(keys, .array (front ++ p :: back))} + F) ∧ σ'.next = σ.next := by
  obtain ⟨σ', hstore, holds', hnext⟩ := exhausts_tracks.store (.array (front ++ p :: back)) holds
  refine ⟨σ', ?_, holds', hnext⟩
  have hload := loadArray_exhausts keys (front ++ old :: back) holds.owns (by simp)
  have inside : front.length < (front ++ old :: back).length := by simp
  simp only [setElement, hload, ok_bind, if_pos inside, List.set_append_right _ _ le_rfl,
    Nat.sub_self, List.set_cons_zero, hstore]

/-- The copies of keys from index `i` on, where the calls of `strdup` succeed as `dup` says. -/
def Copied (dup : Nat → Bool) : Nat → List CString → List (Option (Ptr CString)) → Prop
  | _, [], [] => True
  | i, k :: ks, c :: copies =>
    (c.map Ptr.obj = if dup i then some k else none) ∧ Copied dup (i + 1) ks copies
  | _, _, _ => False

theorem strdup_image {R : Store → Image → Prop} (tracks : Tracks R) (ok : Bool) (k : CString)
    (holds : R σ F) :
    ∃ (c : Option (Ptr CString)) (σ' : Store), malloc ok σ (.chars k) = (c.map Ptr.addr, σ') ∧
      (c.map Ptr.obj = if ok then some k else none) ∧ R σ' (optionImage keyImage c + F) := by
  cases ok with
  | false => exact ⟨none, σ, rfl, rfl, by rwa [optionImage, zero_add]⟩
  | true => exact ⟨some ⟨σ.next, k⟩, _, rfl, rfl, tracks.alloc (.chars k) holds⟩

/-- The key of a node, as the loop loads it. -/
theorem loadKey_image {m : Image} (owns : Owns σ m) {n : Node} {rest : List Node} {k : CString}
    (hle : chainImage none (n :: rest) ≤ m) (keyed : n.key = some k) :
    loadNode σ (some n.addr) = .ok (n.entry.map Ptr.addr, headAddr none rest) ∧
    ∃ key value, loadEntry σ (n.entry.map Ptr.addr) = .ok (key, value) ∧
      loadChars σ key = .ok k := by
  refine ⟨loadNode_image owns hle, ?_⟩
  obtain ⟨e, hentry, hkey⟩ := entry_of_key keyed
  obtain ⟨p, hp, rfl⟩ := Option.map_eq_some_iff.mp hkey
  have hlocal := chainImage_entry_le hle
  rw [hentry] at hlocal ⊢
  have hchars : keyImage p ≤ m := by
    refine le_trans ?_ hlocal
    simp only [optionImage, entryImage, hp]
    exact (Multiset.le_add_right _ _).trans (Multiset.le_add_left _ _)
  exact ⟨_, _, loadEntry_image owns hlocal, by simpa [hp] using loadChars_image owns hchars⟩

/-- One turn of the loop, at a node with a key. -/
theorem copyStep_image (dup : Nat → Bool) {n : Node} {rest : List Node} {k : CString}
    (keyed : n.key = some k) {front back : List (Option Nat)} {old : Option Nat}
    (hle : chainImage none (n :: rest) ≤ F)
    (holds : Exhausts σ ({(keys, .array (front ++ old :: back))} + F)) :
    ∃ (c : Option (Ptr CString)) (σ' : Store),
      (∀ fuel, copyLoop dup keys (fuel + 1) front.length σ (some n.addr) =
        copyLoop dup keys fuel (front.length + 1) σ' (headAddr none rest)) ∧
      (c.map Ptr.obj = if dup front.length then some k else none) ∧
      chainImage none rest ≤ optionImage keyImage c + F ∧
      Exhausts σ' ({(keys, .array ((front ++ [c.map Ptr.addr]) ++ back))} +
        (optionImage keyImage c + F)) := by
  obtain ⟨hnode, key, value, hentry, hchars⟩ := loadKey_image holds.owns
    (hle.trans (Multiset.le_add_left _ _)) keyed
  obtain ⟨c, σ1, hdup, hcopy, holds1⟩ := strdup_image exhausts_tracks (dup front.length) k holds
  have parts : Exhausts σ1 ({(keys, .array (front ++ old :: back))} +
      (optionImage keyImage c + F)) := by
    refine exhausts_tracks.congr holds1 ?_
    abel
  obtain ⟨σ2, hset, holds2, _⟩ := setElement_image (p := c.map Ptr.addr) parts
  have hle2 : chainImage none (n :: rest) ≤ optionImage keyImage c + F :=
    hle.trans (Multiset.le_add_left _ _)
  have hnode2 := loadNode_image holds2.owns (hle2.trans (Multiset.le_add_left _ _))
  refine ⟨c, σ2, ?_, hcopy, chainImage_tail_le hle2, by simpa using holds2⟩
  intro fuel
  simp only [copyLoop, hnode, hentry, hchars, hdup, hset, hnode2, ok_bind]

theorem copyLoop_image (dup : Nat → Bool) (rest : List Node) (front : List (Option Nat))
    {ks : List CString} (keyed : rest.map Node.key = ks.map some) {back : List (Option Nat)} {fuel : Nat}
    (room : rest.length < back.length) (enough : rest.length < fuel)
    (hle : chainImage none rest ≤ F)
    (holds : Exhausts σ ({(keys, .array (front ++ back))} + F)) :
    ∃ σ' copies back', copyLoop dup keys fuel front.length σ (headAddr none rest) = .ok σ' ∧
      Copied dup front.length ks copies ∧
      Exhausts σ' ({(keys, .array (front ++ (copies.map (Option.map Ptr.addr) ++ none :: back')))} +
        (copiesImage copies + F)) := by
  induction rest generalizing σ F ks front back fuel with
  | nil =>
    obtain rfl : ks = [] := by simpa using keyed
    obtain ⟨old, back, rfl⟩ := List.exists_cons_of_length_pos room
    obtain ⟨fuel, rfl⟩ : ∃ f, fuel = f + 1 := ⟨fuel - 1, by omega⟩
    obtain ⟨σ', hset, holds', _⟩ := setElement_image (p := none) holds
    exact ⟨σ', [], back, hset, trivial, by simpa using holds'⟩
  | cons n rest ih =>
    obtain ⟨k, ks, rfl⟩ : ∃ k ks', ks = k :: ks' := by
      cases ks with
      | nil => simp at keyed
      | cons k ks => exact ⟨k, ks, rfl⟩
    obtain ⟨hkey, hrest⟩ := List.cons.inj keyed
    obtain ⟨old, back, rfl⟩ := List.exists_cons_of_length_pos (Nat.zero_lt_of_lt room)
    obtain ⟨fuel, rfl⟩ : ∃ f, fuel = f + 1 := ⟨fuel - 1, by omega⟩
    obtain ⟨c, σ1, hturn, hcopy, hle1, holds1⟩ := copyStep_image dup hkey hle holds
    obtain ⟨σ', copies, back', hloop, copied, holds'⟩ := ih (front ++ [c.map Ptr.addr]) hrest
      (by simpa using room) (by simpa using enough) hle1 holds1
    rw [List.length_append, List.length_singleton] at hloop copied
    refine ⟨σ', c :: copies, back', (hturn fuel).trans hloop, ⟨hcopy, copied⟩, ?_⟩
    refine exhausts_tracks.congr holds' ?_
    simp only [List.map_cons, List.cons_append, List.append_assoc, List.nil_append,
      copiesImage_cons]
    abel

/-- At the first node without a key the loop follows a null pointer. -/
theorem copyLoop_stops (dup : Nat → Bool) (rest : List Node) (front : List (Option Nat))
    (keyless : ∃ n ∈ rest, n.key = none) {back : List (Option Nat)} {fuel : Nat}
    (room : (rest.filterMap Node.key).length ≤ back.length) (enough : rest.length < fuel)
    (hle : chainImage none rest ≤ F)
    (holds : Exhausts σ ({(keys, .array (front ++ back))} + F)) :
    copyLoop dup keys fuel front.length σ (headAddr none rest) = .error .nullPointer := by
  induction rest generalizing σ F front back fuel with
  | nil => simp at keyless
  | cons n rest ih =>
    obtain ⟨fuel, rfl⟩ : ∃ f, fuel = f + 1 := ⟨fuel - 1, by omega⟩
    cases hkey : n.key with
    | some k =>
      rw [List.filterMap_cons_some hkey, List.length_cons] at room
      obtain ⟨old, back, rfl⟩ := List.exists_cons_of_length_pos (Nat.zero_lt_of_lt room)
      obtain ⟨c, σ1, hturn, _, hle1, holds1⟩ := copyStep_image dup hkey hle holds
      have later : ∃ n ∈ rest, n.key = none := by simpa [hkey] using keyless
      have hloop := ih (front ++ [c.map Ptr.addr]) later (by simpa using room)
        (by simpa using enough) hle1 holds1
      rw [List.length_append, List.length_singleton] at hloop
      exact (hturn fuel).trans hloop
    | none =>
      have hle' := hle.trans (Multiset.le_add_left F {(keys, Block.array (front ++ back))})
      have hnode := loadNode_image holds.owns hle'
      cases hentry : n.entry with
      | none => simp [copyLoop, hnode, hentry, loadEntry, Heap.load]
      | some e =>
        have hlocal := chainImage_entry_le hle'
        rw [hentry] at hlocal
        have hload := loadEntry_image holds.owns hlocal
        have hnone : e.obj.key = none := by simpa [Node.key, hentry, keyOf] using hkey
        simp [copyLoop, hnode, hentry, hload, hnone, loadChars, Heap.load]

/-- The strings before the first copy that failed. -/
def reached (copies : List (Option (Ptr CString))) : List CString :=
  (copies.takeWhile Option.isSome).filterMap (Option.map Ptr.obj)

theorem freeLoop_image (copies : List (Option (Ptr CString))) (front : List (Option Nat))
    {back : List (Option Nat)} {m : Nat} (enough : copies.length < m)
    (holds : Exhausts σ
      ({(keys, .array (front ++ (copies.map (Option.map Ptr.addr) ++ none :: back)))} +
        (copiesImage copies + F))) :
    ∃ σ', (∀ prints, freeLoop prints keys front.length m σ =
        .ok (if prints then reached copies else [], σ')) ∧
      Exhausts σ' ({(keys, .array (front ++ (copies.map (Option.map Ptr.addr) ++ none :: back)))} +
        (copiesImage (copies.dropWhile Option.isSome) + F)) := by
  induction copies generalizing σ F front m with
  | nil =>
    obtain ⟨m, rfl⟩ : ∃ k, m = k + 1 := ⟨m - 1, by omega⟩
    have hload := loadArray_exhausts keys (front ++ none :: back) holds.owns (by simp)
    exact ⟨σ, by simp [freeLoop, hload, reached], by simpa using holds⟩
  | cons c copies ih =>
    obtain ⟨m, rfl⟩ : ∃ k, m = k + 1 := ⟨m - 1, by omega⟩
    have hload := loadArray_exhausts keys
      (front ++ ((c :: copies).map (Option.map Ptr.addr) ++ none :: back)) holds.owns (by simp)
    cases c with
    | none => exact ⟨σ, by simp [freeLoop, hload, reached], by simpa using holds⟩
    | some k =>
      have parts : Exhausts σ ({(k.addr, .chars k.obj)} +
          ({(keys, .array (front ++
            ((some k :: copies).map (Option.map Ptr.addr) ++ none :: back)))} +
              (copiesImage copies + F))) := by
        refine exhausts_tracks.congr holds ?_
        simp only [copiesImage_cons, optionImage, keyImage]
        abel
      have hchars : loadChars σ (some k.addr) = .ok k.obj := by
        simp [loadChars, parts.owns.load (a := k.addr) (b := .chars k.obj) (by simp)]
      obtain ⟨σ1, hfree, holds1, _⟩ := exhausts_tracks.free parts
      have next : Exhausts σ1 ({(keys, .array ((front ++ [some k.addr]) ++
          (copies.map (Option.map Ptr.addr) ++ none :: back)))} + (copiesImage copies + F)) := by
        simpa using holds1
      obtain ⟨σ', hloop, holds'⟩ := ih _ (by simpa using enough) next
      rw [List.length_append, List.length_singleton] at hloop
      refine ⟨σ', ?_, by simpa using holds'⟩
      intro prints
      cases prints <;> simp [freeLoop, hload, hchars, hfree, hloop, reached]

theorem freeArray_image {copies : List (Option (Ptr CString))}
    {back : List (Option Nat)}
    (holds : Exhausts σ ({(keys, .array (copies.map (Option.map Ptr.addr) ++ none :: back))} +
      (copiesImage copies + F))) :
    ∃ σ', (∀ prints, freeArray prints σ keys = .ok (if prints then reached copies else [], σ')) ∧
      Exhausts σ' (copiesImage (copies.dropWhile Option.isSome) + F) := by
  have hload := loadArray_exhausts keys (copies.map (Option.map Ptr.addr) ++ none :: back)
    holds.owns (by simp)
  have enough : copies.length < (copies.map (Option.map Ptr.addr) ++ none :: back).length := by
    simp
  obtain ⟨σ1, hloop, holds1⟩ := freeLoop_image copies [] enough holds
  obtain ⟨σ2, hfree, holds2, _⟩ := exhausts_tracks.free holds1
  refine ⟨σ2, ?_, holds2⟩
  rw [List.length_nil] at hloop
  simp only [freeArray, hload, hloop, hfree, ok_bind, pure_eq_ok, implies_true]

end Arrays

section Copies

variable {dup : Nat → Bool} {i : Nat} {ks : List CString} {copies : List (Option (Ptr CString))}

/-- From index `i` on, the calls that fail are the last ones. -/
def FailAtEnd (dup : Nat → Bool) (i len : Nat) : Prop :=
  ∀ a b, i ≤ a → a ≤ b → b < i + len → dup a = false → dup b = false

/-- The keys in front of the first one that is not copied. -/
def leading (dup : Nat → Bool) (i : Nat) (ks : List CString) : List CString :=
  ((ks.zipIdx i).takeWhile fun p => dup p.2).map Prod.fst

theorem Copied.cons_cases {k : CString} (copied : Copied dup i (k :: ks) copies) :
    ∃ c rest, copies = c :: rest ∧ Copied dup (i + 1) ks rest ∧
      (dup i = true ∧ (∃ a, c = some ⟨a, k⟩) ∨ dup i = false ∧ c = none) := by
  cases copies with
  | nil => exact absurd copied id
  | cons c rest =>
    obtain ⟨hcopy, later⟩ := copied
    refine ⟨c, rest, rfl, later, ?_⟩
    cases hdup : dup i with
    | true =>
      obtain ⟨⟨a, s⟩, rfl, rfl⟩ := Option.map_eq_some_iff.mp (by simpa [hdup] using hcopy)
      exact Or.inl ⟨rfl, a, rfl⟩
    | false => exact Or.inr ⟨rfl, by simpa [hdup] using hcopy⟩

theorem Copied.nil_eq (copied : Copied dup i [] copies) : copies = [] := by
  cases copies with
  | nil => rfl
  | cons c rest => exact absurd copied id

theorem Copied.reached_eq (copied : Copied dup i ks copies) :
    reached copies = leading dup i ks := by
  induction ks generalizing i copies with
  | nil =>
    rw [copied.nil_eq]
    rfl
  | cons k ks ih =>
    obtain ⟨c, rest, rfl, later, ⟨hdup, a, rfl⟩ | ⟨hdup, rfl⟩⟩ := copied.cons_cases
    · have hrest := ih later
      simp only [reached, leading] at hrest ⊢
      simp [hdup, hrest]
    · simp [reached, leading, hdup]

theorem Copied.none_made_iff (copied : Copied dup i ks copies) :
    copiesImage copies = 0 ↔ ∀ a, i ≤ a → a < i + ks.length → dup a = false := by
  induction ks generalizing i copies with
  | nil =>
    rw [copied.nil_eq]
    simp
    omega
  | cons k ks ih =>
    obtain ⟨c, rest, rfl, later, ⟨hdup, a, rfl⟩ | ⟨hdup, rfl⟩⟩ := copied.cons_cases
    · have made : copiesImage (some ⟨a, k⟩ :: rest) ≠ 0 := by simp [optionImage, keyImage]
      refine iff_of_false made fun all => ?_
      have hfirst := all i le_rfl (by simp)
      rw [hdup] at hfirst
      cases hfirst
    · rw [copiesImage_cons, optionImage, zero_add, ih later, List.length_cons]
      constructor
      · intro all a lower upper
        rcases Nat.eq_or_lt_of_le lower with rfl | lower
        · exact hdup
        · exact all a lower (by omega)
      · intro all a lower upper
        exact all a (by omega) (by omega)

/-- Nothing stays behind when all copies after a failed one failed as well. -/
theorem Copied.stranded_iff (copied : Copied dup i ks copies) :
    copiesImage (copies.dropWhile Option.isSome) = 0 ↔ FailAtEnd dup i ks.length := by
  induction ks generalizing i copies with
  | nil =>
    rw [copied.nil_eq]
    simp only [List.dropWhile_nil, copiesImage_nil, true_iff]
    intro a b lower le upper
    simp at upper
    omega
  | cons k ks ih =>
    have whole := copied.none_made_iff
    obtain ⟨c, rest, rfl, later, ⟨hdup, a, rfl⟩ | ⟨hdup, rfl⟩⟩ := copied.cons_cases
    · rw [List.dropWhile_cons_of_pos rfl, ih later, List.length_cons]
      constructor
      · intro fails a b lower le upper failed
        rcases Nat.eq_or_lt_of_le lower with rfl | lower
        · rw [hdup] at failed
          cases failed
        · exact fails a b lower le (by omega) failed
      · intro fails a b lower le upper failed
        exact fails a b (by omega) le (by omega) failed
    · rw [List.dropWhile_cons_of_neg (by simp), whole]
      constructor
      · intro all a b lower le upper _
        exact all b (by omega) upper
      · intro fails b lower upper
        exact fails i b le_rfl lower upper hdup

end Copies

section Lists

variable {σ : Store} {l : Nat} {list : ListT} {F : Image}

theorem keys_all {nodes : List Node} (keyed : ∀ n ∈ nodes, n.key ≠ none) :
    nodes.map Node.key = (nodes.filterMap Node.key).map some := by
  induction nodes with
  | nil => rfl
  | cons n nodes ih =>
    obtain ⟨hn, rest⟩ := List.forall_mem_cons.mp keyed
    obtain ⟨k, hk⟩ := Option.ne_none_iff_exists'.mp hn
    rw [List.filterMap_cons_some hk, List.map_cons, List.map_cons, ih rest, hk]

/-- `list_get_keys` with memory for its array, on every sound list. -/
theorem listGetKeys_image (dup : Nat → Bool) (memory : Nat → Option Nat) (sound : Sound list)
    (holds : Exhausts σ (listImage l list + F)) :
    (list.head = [] → listGetKeys true dup memory σ (some l) = .ok (none, σ)) ∧
    ((∃ n ∈ list.head, n.key = none) →
      listGetKeys true dup memory σ (some l) = .error .nullPointer) ∧
    (list.head ≠ [] → (∀ n ∈ list.head, n.key ≠ none) → ∃ keys σ' copies back,
      listGetKeys true dup memory σ (some l) = .ok (some keys, σ') ∧
      Copied dup 0 list.keys copies ∧
      Exhausts σ' ({(keys, .array (copies.map (Option.map Ptr.addr) ++ none :: back))} +
        (copiesImage copies + (listImage l list + F)))) := by
  have hload := loadList_image holds.owns (Multiset.le_add_right _ _)
  have counted := sound.size_eq_keys
  have hroom : ((List.range (list.size + 1).toNat).map memory).length = list.keys.length + 1 := by
    simp
    omega
  have hsize : ¬ list.size + 1 < 0 := by omega
  have holds1 := exhausts_tracks.alloc (.array ((List.range (list.size + 1).toNat).map memory)) holds
  have hle : chainImage none list.head ≤ listImage l list + F :=
    (Multiset.le_add_left _ _).trans (Multiset.le_add_right _ _)
  have starts : list.head ≠ [] → listGetKeys true dup memory σ (some l) = (do
      let σ' ← copyLoop dup σ.next (σ.next + 1) 0
        (σ.alloc (.array ((List.range (list.size + 1).toNat).map memory))) (headAddr none list.head)
      pure (some σ.next, σ')) := by
    intro nonempty
    obtain ⟨head, rest, hhead⟩ := List.exists_cons_of_ne_nil nonempty
    simp only [listGetKeys, hload, ok_bind, hhead, headAddr_cons, reduceCtorEq, if_false, hsize,
      malloc, if_true, Heap.alloc_next]
  have enough : list.head ≠ [] → list.head.length < σ.next + 1 := by
    intro nonempty
    obtain ⟨head, rest, hhead⟩ := List.exists_cons_of_ne_nil nonempty
    have hrest := enough_fuel holds.owns (hhead ▸ hle)
    rw [hhead, List.length_cons]
    omega
  refine ⟨?_, ?_, ?_⟩
  · intro empty
    simp only [listGetKeys, hload, ok_bind, empty, headAddr_nil, if_true, pure_eq_ok]
  · rintro ⟨n, hn, hnone⟩
    have nonempty := List.ne_nil_of_mem hn
    have hloop := copyLoop_stops dup list.head [] ⟨n, hn, hnone⟩
      (by rw [hroom]; exact Nat.le_succ _) (enough nonempty) hle holds1
    rw [List.length_nil] at hloop
    rw [starts nonempty, hloop]
    rfl
  · intro nonempty keyed
    have lengths := congrArg List.length (keys_all keyed)
    simp only [List.length_map] at lengths
    obtain ⟨σ', copies, back, hloop, copied, holds'⟩ := copyLoop_image dup list.head []
      (keys_all keyed) (by rw [hroom, lengths]; exact Nat.lt_succ_self _)
      (enough nonempty) hle holds1
    rw [List.length_nil] at hloop
    exact ⟨_, σ', copies, back, by rw [starts nonempty, hloop]; rfl, copied, holds'⟩

/-- The three functions on an array of copies. -/
theorem freeKeys_image {keys : Nat} {copies : List (Option (Ptr CString))}
    {back : List (Option Nat)}
    (holds : Exhausts σ ({(keys, .array (copies.map (Option.map Ptr.addr) ++ none :: back))} +
      (copiesImage copies + F))) :
    ∃ σ', listFreeKeys σ (some keys) = .ok (0, σ') ∧ tableFreeKeys σ (some keys) = .ok (0, σ') ∧
      rtableFreeKeys σ (some keys) = .ok (reached copies, σ') ∧
      Exhausts σ' (copiesImage (copies.dropWhile Option.isSome) + F) := by
  obtain ⟨σ', hfree, holds'⟩ := freeArray_image holds
  refine ⟨σ', ?_, ?_, hfree true, holds'⟩
  · rw [listFreeKeys, hfree false]
    rfl
  · rw [tableFreeKeys, hfree false]
    rfl

/-- What is left of entries whose own blocks have been released. -/
def contentsImage (entries : List (Ptr Entry)) : Image :=
  (entries.map fun e => optionImage keyImage e.obj.key + optionImage dataImage e.obj.value).sum

theorem contentsImage_eq_zero_iff (entries : List (Ptr Entry)) : contentsImage entries = 0 ↔
    ∀ e ∈ entries, e.obj.key = none ∧ e.obj.value = none := by
  induction entries with
  | nil => simp [contentsImage]
  | cons e entries ih =>
    have first : optionImage keyImage e.obj.key + optionImage dataImage e.obj.value = 0 ↔
        e.obj.key = none ∧ e.obj.value = none := by
      cases e.obj.key <;> cases e.obj.value <;> simp [optionImage, keyImage, dataImage]
    rw [List.forall_mem_cons, ← ih, ← first, ← add_eq_zero, contentsImage, List.map_cons,
      List.sum_cons, contentsImage]

theorem freeEntries_image (entries : List (Ptr Entry)) (front : List (Option Nat)) {keys : Nat}
    {back : List (Option Nat)} {m : Nat} (enough : entries.length < m)
    (holds : Exhausts σ
      ({(keys, .array (front ++ (entries.map (fun e => some e.addr) ++ none :: back)))} +
        ((entries.map entryImage).sum + F))) :
    ∃ σ', freeLoop false keys front.length m σ = .ok ([], σ') ∧
      Exhausts σ' ({(keys, .array (front ++ (entries.map (fun e => some e.addr) ++ none :: back)))} +
        (contentsImage entries + F)) := by
  induction entries generalizing σ F front m with
  | nil =>
    obtain ⟨m, rfl⟩ : ∃ k, m = k + 1 := ⟨m - 1, by omega⟩
    have hload := loadArray_exhausts keys (front ++ none :: back) holds.owns (by simp)
    exact ⟨σ, by simp [freeLoop, hload], by simpa [contentsImage] using holds⟩
  | cons e entries ih =>
    obtain ⟨m, rfl⟩ : ∃ k, m = k + 1 := ⟨m - 1, by omega⟩
    have hload := loadArray_exhausts keys
      (front ++ ((e :: entries).map (fun e => some e.addr) ++ none :: back)) holds.owns (by simp)
    have parts : Exhausts σ ({(e.addr, .entry (e.obj.key.map Ptr.addr) (e.obj.value.map Ptr.addr))} +
        ({(keys, .array (front ++ ((e :: entries).map (fun e => some e.addr) ++ none :: back)))} +
          ((entries.map entryImage).sum + (contentsImage [e] + F)))) := by
      refine exhausts_tracks.congr holds ?_
      simp only [List.map_cons, List.sum_cons, entryImage, contentsImage, List.map_nil,
        List.sum_nil]
      abel
    obtain ⟨σ1, hfree, holds1, _⟩ := exhausts_tracks.free parts
    have next : Exhausts σ1 ({(keys, .array ((front ++ [some e.addr]) ++
        (entries.map (fun e => some e.addr) ++ none :: back)))} +
          ((entries.map entryImage).sum + (contentsImage [e] + F))) := by
      simpa using holds1
    obtain ⟨σ', hloop, holds'⟩ := ih _ (by simpa using enough) next
    rw [List.length_append, List.length_singleton] at hloop
    refine ⟨σ', by simp [freeLoop, hload, hfree, hloop], ?_⟩
    refine exhausts_tracks.congr holds' ?_
    simp only [List.map_cons, List.cons_append, List.append_assoc, List.nil_append, contentsImage,
      List.sum_cons, List.map_nil, List.sum_nil]
    abel

/-- `rtable_free_entries` keeps the keys and the values of all entries. -/
theorem rtableFreeEntries_image {entries : List (Ptr Entry)} {a : Nat} {back : List (Option Nat)}
    (holds : Exhausts σ ({(a, .array (entries.map (fun e => some e.addr) ++ none :: back))} +
      ((entries.map entryImage).sum + F))) :
    ∃ σ', rtableFreeEntries σ (some a) = .ok σ' ∧ Exhausts σ' (contentsImage entries + F) := by
  have hload := loadArray_exhausts a (entries.map (fun e => some e.addr) ++ none :: back)
    holds.owns (by simp)
  have enough : entries.length < (entries.map (fun e => some e.addr) ++ none :: back).length := by
    simp
  obtain ⟨σ1, hloop, holds1⟩ := freeEntries_image entries [] enough holds
  obtain ⟨σ2, hfree, holds2, _⟩ := exhausts_tracks.free holds1
  refine ⟨σ2, ?_, holds2⟩
  rw [List.length_nil] at hloop
  simp only [rtableFreeEntries, freeArray, hload, hloop, hfree, ok_bind, pure_eq_ok]

/-- `rtable_free_entries` on entries with blocks of their own releases the array and the
entries and keeps all keys and values, so the heap is as it was without them exactly if
there were none. -/
theorem entries_released_iff {σ0 : Store} {entries : List (Ptr Entry)} {a : Nat}
    {back : List (Option Nat)} (before : Exhausts σ0 F)
    (holds : Exhausts σ ({(a, .array (entries.map (fun e => some e.addr) ++ none :: back))} +
      ((entries.map entryImage).sum + F))) :
    ∃ σ', rtableFreeEntries σ (some a) = .ok σ' ∧ Exhausts σ' (contentsImage entries + F) ∧
      (σ'.cell = σ0.cell ↔ ∀ e ∈ entries, e.obj.key = none ∧ e.obj.value = none) := by
  obtain ⟨σ', freed, left⟩ := rtableFreeEntries_image holds
  exact ⟨σ', freed, left, (before.restored_iff left).trans (contentsImage_eq_zero_iff entries)⟩

/-- The key of the only entry stays. -/
theorem entries_released_sample : ∃ σ σ' : Store,
    σ.cell 2 = some (.array [some 1, none]) ∧ σ.cell 1 = some (.entry (some 0) none) ∧
    rtableFreeEntries σ (some 2) = .ok σ' ∧ σ'.cell ≠ Heap.empty.cell := by
  have before : Exhausts (Heap.empty : Store) 0 := exhausts_liveBlocks Heap.empty
  have named := exhausts_tracks.alloc (.chars keyA) before
  have created := exhausts_tracks.alloc (.entry (some 0) none) named
  have listed := exhausts_tracks.alloc (.array [some 1, none]) created
  let entries : List (Ptr Entry) := [⟨1, ⟨some ⟨0, keyA⟩, none⟩⟩]
  have holds : Exhausts _ ({(2, .array (entries.map (fun e => some e.addr) ++ [none]))} +
      ((entries.map entryImage).sum + 0)) := exhausts_tracks.congr listed rfl
  obtain ⟨σ', freed, _, same⟩ := entries_released_iff before holds
  refine ⟨_, σ', rfl, rfl, freed, ?_⟩
  rw [Ne, same]
  simp [entries]

end Lists

/-- At every point of a table's life the keys of a list can be had and released, unless
the list is empty or a removal has left a node in it. No string is released twice, and
the store is as before exactly if no copy succeeded after one that failed; printed are
the keys in front of the first that failed. -/
theorem listing_released_iff {mem array : Bool} {each : Nat → Bool} {σ0 σ1 σ : Store} {n : Int}
    {t : Nat} {history : List (Event Store Call Int)} (pos : 1 ≤ n)
    (created : TableMemory.tableCreate mem array each σ0 n = .ok (some t, σ1))
    (run : Run (callStep t) σ1 history σ) {i : Nat} (hi : i < n) (dup : Nat → Bool)
    (memory : Nat → Option Nat) :
    ∃ L T F l list, Represents σ L T F ∧ L.table = t ∧ T.lists[i]? = some list ∧
      element σ t i = .ok (some l) ∧
      (list.head = [] → listGetKeys true dup memory σ (some l) = .ok (none, σ)) ∧
      ((∃ n ∈ list.head, n.entry = none) →
        listGetKeys true dup memory σ (some l) = .error .nullPointer) ∧
      (list.head ≠ [] → (∀ n ∈ list.head, n.entry ≠ none) → ∃ keys σ' σ'',
        listGetKeys true dup memory σ (some l) = .ok (some keys, σ') ∧
        listFreeKeys σ' (some keys) = .ok (0, σ'') ∧
        tableFreeKeys σ' (some keys) = .ok (0, σ'') ∧
        rtableFreeKeys σ' (some keys) = .ok (leading dup 0 list.keys, σ'') ∧
        (σ''.cell = σ.cell ↔ FailAtEnd dup 0 list.keys.length)) := by
  obtain ⟨before, L, _, rfl, start⟩ := created_standing pos created
  obtain ⟨T, lost, standing, sound, size, _⟩ := run_accounted start (emptyTable_sound n) run
  have rep := standing.represents
  have inside : i < T.lists.length := by
    rw [T.length_eq, size]
    simp only [emptyTable]
    omega
  obtain ⟨l, R, hl, split, _⟩ := bucketsImage_split rep.length_eq inside
  have hsound := sound _ (List.getElem_mem inside)
  have holds : Exhausts σ (listImage l T.lists[i] + ({(L.table, .table (some L.array) T.size)} +
      ({(L.array, .array (L.lists.map some))} + (R + (lost + before))))) := by
    refine exhausts_tracks.congr standing.exhausts ?_
    rw [tableImage, split]
    abel
  obtain ⟨none, stops, lists⟩ := listGetKeys_image dup memory hsound holds
  refine ⟨L, T, _, l, _, rep, rfl, List.getElem?_eq_getElem inside, element_image rep hl, none,
    ?_, ?_⟩
  · rintro ⟨n, hn, hnone⟩
    exact stops ⟨n, hn, (hsound.keyless_iff hn).mpr hnone⟩
  · intro nonempty full
    obtain ⟨keys, σ', copies, back, got, copied, holds'⟩ := lists nonempty fun n hn hkey =>
      full n hn ((hsound.keyless_iff hn).mp hkey)
    obtain ⟨σ'', hlist, htable, hrtable, left⟩ := freeKeys_image holds'
    rw [copied.reached_eq] at hrtable
    refine ⟨keys, σ', σ'', got, hlist, htable, hrtable, ?_⟩
    rw [holds.restored_iff left, copied.stranded_iff]

theorem listing_released_sample : ∃ t σ1 history σ L T F l list,
    TableMemory.tableCreate true true (fun _ => true) Heap.empty 1 = .ok (some t, σ1) ∧
      Run (callStep t) σ1 history σ ∧ Represents σ L T F ∧ T.lists[0]? = some list ∧
      element σ t 0 = .ok (some l) ∧
      (list.head ≠ [] → (∀ n ∈ list.head, n.entry ≠ none) → ∃ keys σ' σ'',
        listGetKeys true (fun i => i == 1) (fun _ => none) σ (some l) = .ok (some keys, σ') ∧
        listFreeKeys σ' (some keys) = .ok (0, σ'') ∧
        (σ''.cell = σ.cell ↔ FailAtEnd (fun i => i == 1) 0 list.keys.length)) := by
  obtain ⟨t, σ1, history, σ, created, played⟩ : ∃ t σ1 history σ,
      TableMemory.tableCreate true true (fun _ => true) Heap.empty 1 = .ok (some t, σ1) ∧
      play (callStep t) [putA] [] σ1 = .ok (history, σ) := ⟨_, _, _, _, rfl, rfl⟩
  have run := play_run _ .start played
  obtain ⟨L, T, F, l, list, rep, _, hlist, helement, _, _, lists⟩ :=
    listing_released_iff (le_refl 1) created run (i := 0) (by decide) (fun i => i == 1)
      (fun _ => none)
  refine ⟨t, σ1, history, σ, L, T, F, l, list, created, run, rep, hlist, helement, ?_⟩
  intro nonempty full
  obtain ⟨keys, σ', σ'', got, freed, _, _, left⟩ := lists nonempty full
  exact ⟨keys, σ', σ'', got, freed, left⟩

end KeyArrays
