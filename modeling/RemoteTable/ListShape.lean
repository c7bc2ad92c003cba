import RemoteTable.ListRuns

/-!
# The shape of the chain

A list is well formed when all its nodes hold an entry and its counter is the
number of nodes. `list_remove` unlinks no node: it moves the entries up and
leaves the last node empty, so a run keeps its lists well formed exactly as
long as it removes nothing.
-/

namespace ListShape

open CStrings Memory Entries FirstMatch ListOps ListRuns Runs

/-- Every node holds an entry with a key, and the counter counts the nodes. -/
structure WellFormed (list : ListT) : Prop where
  full : ∀ n ∈ list.head, ∃ e k, n.entry = some e ∧ e.obj.key = some k
  counted : list.size = list.head.length
  empty : list.head = [] ↔ list.size = 0

/-- The step takes no entry out. -/
def KeepsEntries (list : ListT) : ListOp → Prop
  | .remove k => k ∉ list.keys
  | _ => True

theorem wellFormed_iff {list : ListT} (sound : Sound list) :
    WellFormed list ↔ ∀ n ∈ list.head, n.key ≠ none := by
  constructor
  · intro h n hn
    obtain ⟨e, k, he, hk⟩ := h.full n hn
    simp [Node.key, he, keyOf, hk]
  · intro keyed
    have hsize := sound.size_eq_length keyed
    refine ⟨?_, hsize, ?_⟩
    · intro n hn
      obtain ⟨k, hk⟩ := Option.ne_none_iff_exists'.mp (keyed n hn)
      obtain ⟨e, he, hkey⟩ := entry_of_key hk
      obtain ⟨p, hp, _⟩ := Option.map_eq_some_iff.mp hkey
      exact ⟨e, p, he, hp⟩
    · rw [hsize, ← List.length_eq_zero_iff]
      norm_cast

theorem added_keyed {list : ListT} {mem : Option Nat} {e : Ptr Entry} {k : CString}
    {out : Int × ListT} (hk : keyOf e = some k) (added : Added list mem e k out)
    (keyed : ∀ n ∈ list.head, n.key ≠ none) : ∀ n ∈ out.2.head, n.key ≠ none := by
  have hnew : ∀ a, (Node.mk a (some e)).key ≠ none := fun _ => by simp [Node.key, hk]
  cases added with
  | @found pre n post chain below same =>
    simp only [chain, List.mem_append, List.mem_cons, or_imp, forall_and, forall_eq] at keyed ⊢
    exact ⟨keyed.1, hnew _, keyed.2.2⟩
  | front new chain larger lt =>
    rw [chain] at keyed
    simpa [hnew] using keyed
  | behind new chain inner below larger lt =>
    rw [chain] at keyed
    simpa [hnew, or_imp, forall_and] using keyed
  | last new below => simpa [hnew, or_imp, forall_and] using keyed
  | failed new => exact keyed

/-- Whatever is below it, the removed entry leaves a vacated node behind. -/
theorem removeNode_vacates (node : Node) (rest : List Node) :
    ∃ n ∈ (removeNode node rest).2, n.entry = none := by
  have hmem : none ∈ (removeNode node rest).2.map Node.entry := by
    simp [removeNode_entries]
  obtain ⟨n, hn, hentry⟩ := List.mem_map.mp hmem
  exact ⟨n, hn, hentry⟩

theorem keyed_step_iff {s s' : ListT} {op : ListOp} {r : ListResult}
    (keyed : ∀ n ∈ s.head, n.key ≠ none) (step : listStep s op = .ok (r, s')) :
    (∀ n ∈ s'.head, n.key ≠ none) ↔ KeepsEntries s op := by
  cases listStep_cases step with
  | @added mem node key data e create hk =>
    simp only [KeepsEntries, iff_true]
    exact added_keyed hk (listAdd_added hk node s) keyed
  | @removed key code t remove =>
    have hlook := looked s key
    rw [remove] at hlook
    generalize listGet s (some key) = got at hlook
    cases hlook with
    | @hit pre n post e chain other entry hkey =>
      have present : key ∈ s.keys := by simp [ListT.keys, chain, Node.key, entry, hkey]
      simp only [KeepsEntries, present, not_true_eq_false, iff_false, not_forall]
      obtain ⟨m, hm, hnone⟩ := removeNode_vacates n post
      exact ⟨m, List.mem_append_right _ hm, by simp [Node.key, hnone]⟩
    | miss nonempty other =>
      have absent : key ∉ s.keys := by
        intro hmem
        obtain ⟨m, hm, hkey⟩ := List.mem_filterMap.mp hmem
        obtain ⟨k', hk', hne⟩ := other m hm
        exact hne (Option.some.inj (hk'.symm.trans hkey))
      simp only [KeepsEntries, absent, not_false_eq_true, iff_true]
      exact keyed
  | refused create => simpa [KeepsEntries] using keyed
  | got => simpa [KeepsEntries] using keyed
  | listed => simpa [KeepsEntries] using keyed

/-- All lists of a run are well formed exactly when no removal finds its key. -/
theorem well_formed_iff_no_removal {history : List (Event ListT ListOp ListResult)}
    {list : ListT} (run : Run listStep emptyList history list) :
    (∀ e ∈ history, WellFormed e.after) ↔ ∀ e ∈ history, KeepsEntries e.before e.op := by
  have sound := (reachable_sound run).2
  rw [← run.good_iff_met KeepsEntries (fun s => ∀ n ∈ s.head, n.key ≠ none) (by simp [emptyList])]
  · exact forall₂_congr fun e he => wellFormed_iff (sound e he).2
  · intro e he keyed
    exact keyed_step_iff keyed (run.event_step e he)

/-- Adding one key and removing it leaves a node without an entry. -/
theorem removal_leaves_node : ∃ history list,
    play listStep [addKey keyA, .remove keyA] [] emptyList = .ok (history, list) ∧
      list = ⟨0, [⟨3, none⟩]⟩ ∧ ¬ WellFormed list :=
  ⟨_, _, rfl, rfl, fun h => absurd h.counted (by decide)⟩

theorem well_formed_sample : ∃ history list, Run listStep emptyList history list ∧
    ((∀ e ∈ history, WellFormed e.after) ↔ ∀ e ∈ history, KeepsEntries e.before e.op) := by
  obtain ⟨history, list, played⟩ : ∃ history list,
      play listStep [addKey keyB, .remove keyC, addKey keyA] [] emptyList =
        .ok (history, list) := ⟨_, _, rfl⟩
  have run := play_run _ .start played
  exact ⟨history, list, run, well_formed_iff_no_removal run⟩

end ListShape
