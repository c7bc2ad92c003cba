import RemoteTable.ListShape

/-!
# One addition and one removal on an arbitrary chain

The chain need not be sorted and may hold a key on several nodes. An addition
makes its entry the first one with its key, a removal takes the first one out;
both leave all other entries alone and in order.
-/

namespace ListEffects

open CStrings Memory Entries FirstMatch ListOps ListRuns ListShape

theorem unblocked_of_keyed (k : CString) {nodes : List Node} (keyed : ∀ n ∈ nodes, n.key ≠ none) :
    Unblocked k nodes := by
  induction nodes with
  | nil => trivial
  | cons n rest ih =>
    rw [List.forall_mem_cons] at keyed
    exact Or.inr ⟨keyed.1, ih keyed.2⟩

/-- On a chain without vacated nodes a lookup returns the first match. -/
theorem listGet_keyed {list : ListT} (nonempty : list.head ≠ [])
    (keyed : ∀ n ∈ list.head, n.key ≠ none) (k : CString) :
    listGet list (some k) = .ok (first keyOf k list.entries) := by
  obtain ⟨r, hr⟩ := (lookup_completes_iff list k).1.mpr ⟨nonempty, unblocked_of_keyed k keyed⟩
  rw [hr, listGet_first hr]

theorem added_nonempty {list : ListT} {a : Nat} {e : Ptr Entry} {k : CString} {out : Int × ListT}
    (added : Added list (some a) e k out) : out.2.head ≠ [] := by
  cases added with
  | found => simp
  | front => simp
  | behind => simp
  | last => simp
  | failed new => cases new

section Additions

variable {list : ListT} {a : Nat} {e : Ptr Entry} {k : CString}

/-- What an addition does to the entries, when the allocation succeeds. -/
theorem listAdd_effect (a : Nat) (list : ListT) (hk : keyOf e = some k) :
    ((listAdd (some a) list (some e)).1 = 0 ∨ (listAdd (some a) list (some e)).1 = 1) ∧
      first keyOf k (listAdd (some a) list (some e)).2.entries = some e ∧
      (∀ q, q ≠ k → first keyOf q (listAdd (some a) list (some e)).2.entries =
        first keyOf q list.entries) ∧
      (listAdd (some a) list (some e)).2.entries.filter (fun o => keyOf o ≠ some k) =
        list.entries.filter fun o => keyOf o ≠ some k := by
  rcases listAdd_entries hk (some a) list with ⟨l, hl, _, h⟩ | ⟨l, hl, _, h⟩ | ⟨_, failed⟩
  · rw [hl]
    exact ⟨Or.inr rfl, h.first_self hk, fun q hne => h.first_other hk hne, h.others hk⟩
  · rw [hl]
    exact ⟨Or.inl rfl, h.first_self hk, fun q hne => h.first_other hk hne, h.others hk⟩
  · cases failed

/-- The new entry is the one found under its key; every other key is found, or
not found, as before, and the entries with other keys keep their order. -/
theorem add_visible (keyed : ∀ n ∈ list.head, n.key ≠ none) (hk : keyOf e = some k) :
    ((listAdd (some a) list (some e)).1 = 0 ∨ (listAdd (some a) list (some e)).1 = 1) ∧
      listGet (listAdd (some a) list (some e)).2 (some k) = .ok (some e) ∧
      (∀ q, q ≠ k → q ∈ list.keys → ∃ o, listGet list (some q) = .ok (some o) ∧
        listGet (listAdd (some a) list (some e)).2 (some q) = .ok (some o)) ∧
      (∀ q, q ≠ k → q ∉ list.keys →
        listGet (listAdd (some a) list (some e)).2 (some q) = .ok none) ∧
      (listAdd (some a) list (some e)).2.entries.filter (fun o => keyOf o ≠ some k) =
        list.entries.filter fun o => keyOf o ≠ some k := by
  obtain ⟨hcode, hself, hother, hrest⟩ := listAdd_effect a list hk
  have added := listAdd_added hk (some a) list
  have nonempty := added_nonempty added
  have hget := listGet_keyed nonempty (added_keyed hk added keyed)
  refine ⟨hcode, ?_, ?_, ?_, hrest⟩
  · rw [hget, hself]
  · intro q hne hq
    rw [keys_eq] at hq
    obtain ⟨o, ho⟩ : ∃ o, first keyOf q list.entries = some o := by
      apply Option.ne_none_iff_exists'.mp
      rw [Ne, first_eq_none_iff, not_not]
      exact hq
    have hhead : list.head ≠ [] := by
      intro hnil
      simp [ListT.entries, hnil] at hq
    refine ⟨o, ?_, ?_⟩
    · rw [listGet_keyed hhead keyed, ho]
    · rw [hget, hother q hne, ho]
  · intro q hne hq
    rw [keys_eq] at hq
    rw [hget, hother q hne, first_eq_none_iff.mpr hq]

end Additions

def entryOf (addr : Nat) (k : CString) : Ptr Entry := ⟨addr, ⟨some ⟨addr + 1, k⟩, some sampleData⟩⟩

/-- Unsorted, with one key on two nodes. -/
def mixedNodes : List Node :=
  [⟨10, some (entryOf 20 keyB)⟩, ⟨11, some (entryOf 30 keyA)⟩, ⟨12, some (entryOf 40 keyB)⟩]

theorem add_visible_sample :
    listGet ⟨3, mixedNodes⟩ (some keyB) = .ok (some (entryOf 20 keyB)) ∧
      listGet (listAdd (some 13) ⟨3, mixedNodes⟩ (some (entryOf 50 keyA))).2 (some keyA) =
        .ok (some (entryOf 50 keyA)) :=
  ⟨rfl, (add_visible (by decide) rfl).2.1⟩

section Removals

variable {list : ListT} {k : CString}

/-- A removal takes the first entry with its key out of the chain and leaves
all others where they are; without such an entry it leaves the list alone. -/
theorem remove_first_match (nonempty : list.head ≠ []) (unblocked : Unblocked k list.head) :
    (k ∈ list.keys → ∃ list', listRemove list (some k) = .ok (0, list') ∧
      list'.size = list.size - 1 ∧
      list'.entries = list.entries.eraseP fun o => keyOf o = some k) ∧
    (k ∉ list.keys → listRemove list (some k) = .ok (1, list)) := by
  obtain ⟨⟨code, list'⟩, hr⟩ := (lookup_completes_iff list k).2.mpr ⟨nonempty, unblocked⟩
  rcases listRemove_entries hr with ⟨rfl, hsize, erased⟩ | ⟨rfl, rfl, absent⟩
  · constructor
    · intro _
      exact ⟨list', hr, hsize, erased.eq_eraseP⟩
    · intro habsent
      obtain ⟨old, hkey, perm⟩ := erased.perm
      have hold : old ∈ list.entries := perm.mem_iff.mpr List.mem_cons_self
      rw [keys_eq] at habsent
      exact absurd (List.mem_filterMap.mpr ⟨old, hold, hkey⟩) habsent
  · exact ⟨fun hmem => absurd hmem absent, fun _ => hr⟩

end Removals

/-- The doomed entry travels past a vacated node and another one with its key. -/
theorem remove_first_match_sample : ∃ list',
    listRemove ⟨3, mixedNodes ++ [⟨14, none⟩]⟩ (some keyB) = .ok (0, list') ∧
      list'.size = 2 ∧ list'.entries = [entryOf 30 keyA, entryOf 40 keyB] := by
  have nonempty : (ListT.mk 3 (mixedNodes ++ [⟨14, none⟩])).head ≠ [] := by decide
  have unblocked : Unblocked keyB (mixedNodes ++ [⟨14, none⟩]) := Or.inl rfl
  obtain ⟨list', hr, hsize, hentries⟩ := (remove_first_match nonempty unblocked).1 (by decide)
  exact ⟨list', hr, hsize, hentries⟩

end ListEffects
