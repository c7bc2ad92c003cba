import Mathlib.Data.Finset.Card
import Mathlib.Data.List.Sort
import RemoteTable.ListRuns

/-!
# Order and distinctness of the keys

`list_add` walks as if the chain were ascending, but puts a key that belongs
between two others behind the larger one. So the order of the chain and the
search for a key that is present are right up to certain additions, which are
named exactly by the chain they find.
-/

namespace ListOrder

open CStrings Memory Entries FirstMatch ListOps ListRuns Runs

theorem keys_below {k : CString} {nodes : List Node} (h : ∀ m ∈ nodes, m.Below k) :
    ∀ k' ∈ nodes.filterMap Node.key, k' < k := by
  intro k' hk'
  obtain ⟨m, hm, hkey⟩ := List.mem_filterMap.mp hk'
  exact h m hm k' hkey

def Ascending (list : ListT) : Prop :=
  list.entries.Pairwise fun a b => entryCompare (some a) (some b) = -1

/-- `list_add` of a key keeps an ascending chain ascending: the key is there
already, or it goes in front of the head node, or it is larger than all others. -/
def FitsAt (k : CString) (list : ListT) : Prop :=
  k ∈ list.keys ∨ (∃ n rest k', list.head = n :: rest ∧ n.key = some k' ∧ k < k') ∨
    ∀ k' ∈ list.keys, k' < k

def FitsOrder (list : ListT) : ListOp → Prop
  | .add _ _ key _ => FitsAt key.obj list
  | _ => True

theorem ascending_iff {list : ListT} (sound : Sound list) :
    Ascending list ↔ list.keys.Pairwise (· < ·) := by
  rw [Ascending, keys_eq, List.pairwise_filterMap]
  apply List.Pairwise.iff_of_mem
  intro a b ha hb
  obtain ⟨ka, hka⟩ := sound.keyed a ha
  obtain ⟨kb, hkb⟩ := sound.keyed b hb
  have hkey : entryKey (some a) = some ka := hka
  rw [entryCompare_eq_neg_one_iff hkey hkb]
  simp [hka, hkb]

theorem added_pairwise_iff {list : ListT} {e : Ptr Entry} {k : CString} {a : Nat}
    {out : Int × ListT} (hk : keyOf e = some k) (sorted : list.keys.Pairwise (· < ·))
    (added : Added list (some a) e k out) :
    out.2.keys.Pairwise (· < ·) ↔ FitsAt k list := by
  have hnew : ∀ a, (Node.mk a (some e)).key = some k := fun _ => hk
  cases added with
  | @found pre n post chain below same =>
    have present : FitsAt k list := Or.inl (by simp [ListT.keys, chain, same])
    simpa [ListT.keys, chain, hnew, same, present] using sorted
  | @front a' n post k' new chain larger lt =>
    have first : FitsAt k list := Or.inr (Or.inl ⟨n, post, k', chain, larger, lt⟩)
    simp only [ListT.keys, chain, List.filterMap_cons, larger, hnew, List.pairwise_cons] at sorted ⊢
    simp only [first, iff_true]
    refine ⟨?_, sorted⟩
    intro q hq
    rcases List.mem_cons.mp hq with rfl | hq
    · exact lt
    · exact lt_trans lt (sorted.1 q hq)
  | @behind a' pre n post k' new chain inner below larger lt =>
    have hkeys : list.keys = pre.filterMap Node.key ++ k' :: post.filterMap Node.key := by
      simp [ListT.keys, chain, larger]
    rw [hkeys, List.pairwise_append] at sorted
    have misplaced : ¬ FitsAt k list := by
      rintro (present | ⟨m, rest, q, hhead, hq, hlt⟩ | largest)
      · rw [hkeys, List.mem_append, List.mem_cons] at present
        rcases present with h | rfl | h
        · exact lt_irrefl k (keys_below below k h)
        · exact lt_irrefl k lt
        · exact lt_asymm lt ((List.pairwise_cons.mp sorted.2.1).1 k h)
      · obtain ⟨x, pre, rfl⟩ := List.exists_cons_of_ne_nil inner
        obtain ⟨rfl, _⟩ := List.cons.inj (chain.symm.trans hhead)
        exact lt_asymm hlt (below x List.mem_cons_self q hq)
      · exact lt_asymm lt (largest k' (by simp [hkeys]))
    simp only [misplaced, iff_false]
    intro broken
    simp only [ListT.keys, List.filterMap_append, List.filterMap_cons, larger, hnew,
      List.pairwise_append, List.pairwise_cons] at broken
    exact lt_asymm lt (broken.2.1.1 k List.mem_cons_self)
  | @last a' new below =>
    have largest : FitsAt k list := Or.inr (Or.inr (keys_below below))
    have hkeys : ListT.keys ⟨list.size + 1, list.head ++ [⟨a', some e⟩]⟩ = list.keys ++ [k] := by
      simp [ListT.keys, hnew]
    simp only [largest, iff_true, hkeys, List.pairwise_append]
    refine ⟨sorted, List.pairwise_singleton _ _, ?_⟩
    intro q hq k' hk'
    obtain rfl := List.mem_singleton.mp hk'
    exact keys_below below q hq
  | failed new => cases new

/-- A list in order as its users see it. -/
structure Ordered (list : ListT) : Prop where
  ascending : Ascending list
  listed : ∀ mem ks, listGetKeys mem (fun _ => true) list = .ok (some ks) →
    ∃ keys : List CString, ks = keys.map some ++ [none] ∧ keys.Pairwise (· < ·)

theorem getKeys_listing {list : ListT} {mem : Option Nat} {ks : List (Option CString)}
    (h : listGetKeys mem (fun _ => true) list = .ok (some ks)) :
    ks = list.keys.map some ++ [none] := by
  cases hhead : list.head with
  | nil => simp [listGetKeys, hhead] at h
  | cons head rest =>
    cases mem with
    | none => simp [listGetKeys, hhead] at h
    | some a =>
      simp only [listGetKeys, hhead, bind_eq_ok_iff, pure_eq_ok, Except.ok.injEq,
        Option.some.injEq] at h
      obtain ⟨written, hwritten, rfl⟩ := h
      rw [ListT.keys, hhead]
      exact (fillKeys_ok hwritten).2 (fun _ => rfl)

theorem ordered_iff {list : ListT} (sound : Sound list) : Ordered list ↔ Ascending list := by
  constructor
  · exact Ordered.ascending
  · intro h
    refine ⟨h, fun mem ks hks => ⟨list.keys, getKeys_listing hks, (ascending_iff sound).mp h⟩⟩

theorem ascending_step_iff {s s' : ListT} {op : ListOp} {r : ListResult} (sound : Sound s)
    (sorted : Ascending s) (allocated : op.Allocated) (step : listStep s op = .ok (r, s')) :
    Ascending s' ↔ FitsOrder s op := by
  have sound' := sound_step sound step
  cases listStep_cases step with
  | @added mem node key data e create hk =>
    obtain ⟨b, rfl⟩ := Option.ne_none_iff_exists'.mp allocated.2
    rw [ascending_iff sound', FitsOrder]
    exact added_pairwise_iff hk ((ascending_iff sound).mp sorted) (listAdd_added hk (some b) s)
  | @refused mem node key data create =>
    obtain ⟨a, rfl⟩ := Option.ne_none_iff_exists'.mp allocated.1
    simp [entryCreate] at create
  | removed remove =>
    simp only [FitsOrder, iff_true]
    exact List.Pairwise.sublist (remove_sublist remove) sorted
  | got => simpa [FitsOrder] using sorted
  | listed => simpa [FitsOrder] using sorted

theorem emptyList_ascending : Ascending emptyList := List.Pairwise.nil

theorem in_order_of_fits {history : List (Event ListT ListOp ListResult)} {list : ListT}
    (run : Run listStep emptyList history list) (allocated : ∀ e ∈ history, e.op.Allocated)
    (fits : ∀ e ∈ history, FitsOrder e.before e.op) : list.keys.Pairwise (· < ·) := by
  have good := run.invariant_where (fun s op => FitsOrder s op ∧ op.Allocated)
    (fun s => Sound s ∧ Ascending s) ⟨emptyList_sound, emptyList_ascending⟩
    (fun s op r s' hs hc step => ⟨sound_step hs.1 step,
      (ascending_step_iff hs.1 hs.2 hc.2 step).mpr hc.1⟩)
    (fun e he => ⟨fits e he, allocated e he⟩)
  exact (ascending_iff good.1.1).mp good.1.2

/-- All lists of a run are in order exactly when every key added is present
already, smaller than the key of the head node, or larger than all keys; then
the key sequence depends on the set of keys alone. -/
theorem list_in_order_iff {history : List (Event ListT ListOp ListResult)} {list : ListT}
    (run : Run listStep emptyList history list) (allocated : ∀ e ∈ history, e.op.Allocated) :
    ((∀ e ∈ history, Ordered e.after) ↔ ∀ e ∈ history, FitsOrder e.before e.op) ∧
    ((∀ e ∈ history, FitsOrder e.before e.op) → ∀ history' list',
      Run listStep emptyList history' list' → (∀ e ∈ history', e.op.Allocated) →
      (∀ e ∈ history', FitsOrder e.before e.op) → (∀ k, k ∈ list.keys ↔ k ∈ list'.keys) →
      list.keys = list'.keys) := by
  have sound := (reachable_sound run).2
  constructor
  · rw [← run.good_iff_met FitsOrder Ascending emptyList_ascending]
    · exact forall₂_congr fun e he => ordered_iff (sound e he).2
    · intro e he sorted
      exact ascending_step_iff (sound e he).1 sorted (allocated e he) (run.event_step e he)
  · intro fits history' list' run' allocated' fits' same
    exact (in_order_of_fits run allocated fits).eq_of_mem_iff
      (in_order_of_fits run' allocated' fits') same

instance (list : ListT) : Decidable (Ascending list) :=
  inferInstanceAs (Decidable (list.entries.Pairwise _))

/-- A key between two others goes behind the larger one. -/
theorem middle_key_breaks_order : ∃ history list,
    play listStep [addKey keyA, addKey keyC, addKey keyB] [] emptyList = .ok (history, list) ∧
      (∀ e ∈ history, e.op.Allocated) ∧ list.keys = [keyA, keyC, keyB] ∧ ¬ Ascending list :=
  ⟨_, _, rfl, by simp [addKey, ListOp.Allocated], by decide, by decide⟩

theorem list_in_order_sample : ∃ history list,
    Run listStep emptyList history list ∧
      ((∀ e ∈ history, Ordered e.after) ↔ ∀ e ∈ history, FitsOrder e.before e.op) := by
  obtain ⟨history, list, played, allocated⟩ : ∃ history list,
      play listStep [addKey keyB, addKey keyA, .remove keyB] [] emptyList = .ok (history, list) ∧
        ∀ e ∈ history, e.op.Allocated :=
    ⟨_, _, rfl, by simp [addKey, ListOp.Allocated]⟩
  have run := play_run _ .start played
  exact ⟨history, list, run, (list_in_order_iff run allocated).1⟩

/-- No larger key stands in front of the first node that holds `k`. -/
def Visible (k : CString) (list : ListT) : Prop :=
  k ∈ list.keys → list.keys.find? (fun q => decide (k ≤ q)) = some k

/-- The code of a successful addition tells the first key not below the new one. -/
theorem added_code {list : ListT} {e : Ptr Entry} {k : CString} {a : Nat} {out : Int × ListT}
    (added : Added list (some a) e k out) :
    (out.1 = 1 ∧ list.keys.find? (fun q => decide (k ≤ q)) = some k) ∨
    (out.1 = 0 ∧ list.keys.find? (fun q => decide (k ≤ q)) ≠ some k) := by
  have skip : ∀ {nodes : List Node}, (∀ m ∈ nodes, m.Below k) →
      (nodes.filterMap Node.key).find? (fun q => decide (k ≤ q)) = none := by
    intro nodes below
    rw [List.find?_eq_none]
    intro q hq
    simpa using keys_below below q hq
  cases added with
  | found chain below same =>
    exact Or.inl ⟨rfl, by simp [ListT.keys, chain, List.find?_append, skip below, same]⟩
  | front new chain larger lt =>
    exact Or.inr ⟨rfl, by simp [ListT.keys, chain, larger, lt.le, lt.ne']⟩
  | behind new chain inner below larger lt =>
    refine Or.inr ⟨rfl, ?_⟩
    simp [ListT.keys, chain, List.find?_append, skip below, larger, lt.le, lt.ne']
  | last new below => exact Or.inr ⟨rfl, by simp [ListT.keys, skip below]⟩
  | failed new => cases new

section AddCode

variable {list : ListT} {e : Ptr Entry} {k : CString}

/-- The first key of the chain not below `k` is `k` itself. -/
def Reached (k : CString) (list : ListT) : Prop :=
  list.keys.find? (fun q => decide (k ≤ q)) = some k

/-- Replacing an entry needs no node. -/
theorem listAdd_without_node (a : Nat) : (listAdd none list (some e)).1 =
    if (listAdd (some a) list (some e)).1 = 1 then 1 else -1 := by
  obtain ⟨size, nodes⟩ := list
  cases nodes with
  | nil => rfl
  | cons head rest =>
    by_cases hzero : entryCompare head.entry (some e) = 0
    · simp [listAdd, hzero]
    by_cases hpos : entryCompare head.entry (some e) > 0
    · simp [listAdd, hzero, hpos]
    generalize hw : addWalk e head rest = w
    by_cases wzero : w.comp = 0
    · simp [listAdd, hzero, hpos, hw, wzero]
    by_cases wpos : w.comp > 0
    · simp [listAdd, hzero, hpos, hw, wzero, wpos]
    · by_cases hnext : w.next = []
      · simp [listAdd, hzero, hpos, hw, wzero, wpos, hnext]
      · simp [listAdd, hzero, hpos, hw, wzero, wpos, hnext]

theorem listAdd_code (hk : keyOf e = some k) (mem : Option Nat) (list : ListT) :
    (listAdd mem list (some e)).1 = 1 ∧ Reached k list ∨
    (listAdd mem list (some e)).1 = 0 ∧ mem ≠ none ∧ ¬ Reached k list ∨
    (listAdd mem list (some e)).1 = -1 ∧ mem = none ∧ ¬ Reached k list := by
  cases mem with
  | some a =>
    rcases added_code (listAdd_added hk (some a) list) with ⟨hcode, hfind⟩ | ⟨hcode, hfind⟩
    · exact Or.inl ⟨hcode, hfind⟩
    · exact Or.inr (Or.inl ⟨hcode, by simp, hfind⟩)
  | none =>
    rw [listAdd_without_node 0]
    rcases added_code (listAdd_added hk (some 0) list) with ⟨hcode, hfind⟩ | ⟨hcode, hfind⟩
    · rw [if_pos hcode]
      exact Or.inl ⟨rfl, hfind⟩
    · rw [hcode]
      exact Or.inr (Or.inr ⟨rfl, rfl, hfind⟩)

end AddCode

/-- The code is right exactly when the key is not hidden behind a larger one. -/
theorem code_right_iff {list : ListT} {e : Ptr Entry} {k : CString} {a : Nat}
    {out : Int × ListT} (added : Added list (some a) e k out) :
    ((out.1 = 1 ↔ k ∈ list.keys) ∧ (out.1 = 0 ↔ k ∉ list.keys)) ↔ Visible k list := by
  rcases added_code added with ⟨hcode, hfind⟩ | ⟨hcode, hfind⟩
  · have present : k ∈ list.keys := List.mem_of_find?_eq_some hfind
    simp [hcode, Visible, hfind, present]
  · simp [hcode, Visible, hfind]

/-- The addition finds its key if it is there at all. -/
def FindsKey (list : ListT) : ListOp → Prop
  | .add _ _ key _ => Visible key.obj list
  | _ => True

/-- The code of an addition says whether the key was there. -/
def CodeTells (list : ListT) : ListOp → ListResult → Prop
  | .add _ _ key _, .code c => (c = 1 ↔ key.obj ∈ list.keys) ∧ (c = 0 ↔ key.obj ∉ list.keys)
  | _, _ => True

theorem codeTells_iff {s s' : ListT} {op : ListOp} {r : ListResult} (allocated : op.Allocated)
    (step : listStep s op = .ok (r, s')) : CodeTells s op r ↔ FindsKey s op := by
  cases listStep_cases step with
  | @added mem node key data e create hk =>
    obtain ⟨b, rfl⟩ := Option.ne_none_iff_exists'.mp allocated.2
    exact code_right_iff (listAdd_added hk (some b) s)
  | @refused mem node key data create =>
    obtain ⟨a, rfl⟩ := Option.ne_none_iff_exists'.mp allocated.1
    simp [entryCreate] at create
  | removed remove => simp [CodeTells, FindsKey]
  | got => simp [CodeTells, FindsKey]
  | listed => simp [CodeTells, FindsKey]

/-- An addition stores a key twice exactly when the key is hidden. -/
theorem added_nodup_iff {list : ListT} {e : Ptr Entry} {k : CString} (hk : keyOf e = some k)
    (a : Nat) (nodup : list.keys.Nodup) :
    (listAdd (some a) list (some e)).2.keys.Nodup ↔ Visible k list := by
  have added := listAdd_added hk (some a) list
  rw [← code_right_iff added]
  rcases listAdd_entries hk (some a) list with ⟨t, ht, _, h⟩ | ⟨t, ht, _, h⟩ | ⟨_, hmem⟩
  · have present : k ∈ list.keys := by
      rw [ht] at added
      rcases added_code added with ⟨_, hfind⟩ | ⟨hcode, _⟩
      · exact List.mem_of_find?_eq_some hfind
      · cases hcode
    rw [ht, keys_eq, h.keys hk, ← keys_eq]
    simp [nodup, present]
  · have perm : t.keys.Perm (k :: list.keys) := by
      rw [keys_eq, keys_eq]
      simpa [hk] using h.perm.filterMap keyOf
    rw [ht, perm.nodup_iff, List.nodup_cons]
    simp [nodup]
  · cases hmem

theorem remove_nodup {list list' : ListT} {k : CString} {code : Int}
    (h : listRemove list (some k) = .ok (code, list')) (nodup : list.keys.Nodup) :
    list'.keys.Nodup := by
  rw [keys_eq] at nodup ⊢
  exact ((remove_sublist h).filterMap keyOf).nodup nodup

theorem nodup_step_iff {s s' : ListT} {op : ListOp} {r : ListResult} (nodup : s.keys.Nodup)
    (allocated : op.Allocated) (step : listStep s op = .ok (r, s')) :
    s'.keys.Nodup ↔ FindsKey s op := by
  cases listStep_cases step with
  | @added mem node key data e create hk =>
    obtain ⟨b, rfl⟩ := Option.ne_none_iff_exists'.mp allocated.2
    exact added_nodup_iff hk b nodup
  | @refused mem node key data create =>
    obtain ⟨a, rfl⟩ := Option.ne_none_iff_exists'.mp allocated.1
    simp [entryCreate] at create
  | removed remove => simpa [FindsKey] using remove_nodup remove nodup
  | got => simpa [FindsKey] using nodup
  | listed => simpa [FindsKey] using nodup

theorem size_distinct_iff {list : ListT} (sound : Sound list) :
    listSize list = list.keys.toFinset.card ↔ list.keys.Nodup := by
  rw [listSize, sound.size_eq_keys, Nat.cast_inj, eq_comm]
  exact Multiset.toFinset_card_eq_card_iff_nodup (m := (list.keys : Multiset CString))

/-- In a run every addition tells whether its key was there, and every list has
as many entries as distinct keys, exactly when no added key is hidden. -/
theorem keys_detected_iff {history : List (Event ListT ListOp ListResult)} {list : ListT}
    (run : Run listStep emptyList history list) (allocated : ∀ e ∈ history, e.op.Allocated) :
    ((∀ e ∈ history, CodeTells e.before e.op e.result) ↔
      ∀ e ∈ history, FindsKey e.before e.op) ∧
    ((∀ e ∈ history, listSize e.after = e.after.keys.toFinset.card) ↔
      ∀ e ∈ history, FindsKey e.before e.op) := by
  constructor
  · exact forall₂_congr fun e he => codeTells_iff (allocated e he) (run.event_step e he)
  · rw [← run.good_iff_met FindsKey (fun s => s.keys.Nodup) (by simp [emptyList, ListT.keys])]
    · exact forall₂_congr fun e he => size_distinct_iff ((reachable_sound run).2 e he).2
    · intro e he nodup
      exact nodup_step_iff nodup (allocated e he) (run.event_step e he)

end ListOrder
