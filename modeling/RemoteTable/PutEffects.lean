import RemoteTable.ListEffects
import RemoteTable.Skeleton

/-!
# What a put changes

`entry_create` and one node of `list_add` are allocated during a put, and
either allocation can fail. Whatever chain the key's bucket holds, a put that
fails has changed nothing; one that succeeds has placed its entry in one node
of that chain, a new node or an old one.
-/

namespace PutEffects

open CStrings Memory Entries ListOps ListRuns ListEffects Tables TableRuns Skeleton

/-- One new node with the entry, and one more on the counter. -/
inductive Grown (e : Ptr Entry) (list : ListT) : ListT → Prop
  | intro {pre post} (a : Nat) (chain : list.head = pre ++ post) :
      Grown e list ⟨list.size + 1, pre ++ ⟨a, some e⟩ :: post⟩

/-- One node has its entry exchanged for one with the same key. -/
inductive Exchanged (e : Ptr Entry) (list : ListT) : ListT → Prop
  | intro {pre n post old} (chain : list.head = pre ++ n :: post) (held : n.entry = some old)
      (same : keyOf old = keyOf e) :
      Exchanged e list ⟨list.size, pre ++ { n with entry := some e } :: post⟩

/-- Everything `table_put` can do, with the code it returns. -/
inductive PutEffect (t : Table) (key : Option (Ptr CString)) (value : Option (Ptr Data)) :
    Int → Table → Prop
  | failed : PutEffect t key value (-1) t
  | added {k v e list} (hkey : key = some k) (hvalue : value = some v)
      (made : e.obj = ⟨some k, some v⟩) (grown : Grown e (t.chain k.obj) list) :
      PutEffect t key value 0 (t.setChain k.obj list)
  | replaced {k v e list} (hkey : key = some k) (hvalue : value = some v)
      (made : e.obj = ⟨some k, some v⟩) (exchanged : Exchanged e (t.chain k.obj) list) :
      PutEffect t key value 1 (t.setChain k.obj list)

/-- An addition by what it does to the chain, the place in it left open. -/
theorem listAdd_chain {e : Ptr Entry} {k : CString} (hk : keyOf e = some k) (mem : Option Nat)
    (list : ListT) :
    listAdd mem list (some e) = (-1, list) ∨
    (∃ list', listAdd mem list (some e) = (0, list') ∧ Grown e list list') ∨
    ∃ list', listAdd mem list (some e) = (1, list') ∧ Exchanged e list list' := by
  have added := listAdd_added hk mem list
  generalize listAdd mem list (some e) = out at added ⊢
  cases added with
  | @found pre n post chain below same =>
    obtain ⟨old, held, hold⟩ := entry_of_key same
    have exchanged := Exchanged.intro (e := e) chain held (hold.trans hk.symm)
    exact Or.inr (Or.inr ⟨_, rfl, exchanged⟩)
  | @front a n post k' new chain larger lt =>
    have grown : Grown e list ⟨list.size + 1, [] ++ ⟨a, some e⟩ :: n :: post⟩ :=
      .intro a (by simpa using chain)
    exact Or.inr (Or.inl ⟨_, rfl, grown⟩)
  | @behind a pre n post k' new chain inner below larger lt =>
    have grown : Grown e list ⟨list.size + 1, (pre ++ [n]) ++ ⟨a, some e⟩ :: post⟩ :=
      .intro a (by simpa using chain)
    exact Or.inr (Or.inl ⟨_, rfl, by simpa using grown⟩)
  | @last a new below =>
    have grown : Grown e list ⟨list.size + 1, list.head ++ ⟨a, some e⟩ :: []⟩ :=
      .intro a (by simp)
    exact Or.inr (Or.inl ⟨_, rfl, grown⟩)
  | failed new => exact Or.inl rfl

section Puts

variable {t : Table} {key : Option (Ptr CString)}

theorem tablePut_effect (mem node : Option Nat) (value : Option (Ptr Data))
    (range : ∀ k, key = some k → InRange t k.obj) :
    ∃ code t', tablePut mem node t key value = .ok (code, t') ∧ PutEffect t key value code t' := by
  match key, value with
  | none, _ => exact ⟨-1, t, rfl, .failed⟩
  | some _, none => exact ⟨-1, t, rfl, .failed⟩
  | some k, some v =>
    have hrange := range k rfl
    have unchanged : PutEffect t (some k) (some v) (-1) (t.setChain k.obj (t.chain k.obj)) := by
      rw [setChain_self hrange]
      exact .failed
    rw [tablePut_eq hrange]
    refine ⟨_, _, rfl, ?_⟩
    cases create : entryCreate mem (some k) (some v) with
    | none => exact unchanged
    | some e =>
      obtain ⟨_, _, hk, hv, made⟩ := entryCreate_key create
      cases hk
      cases hv
      rcases listAdd_chain (created_key create) node (t.chain k.obj) with
        hadd | ⟨list, hadd, grown⟩ | ⟨list, hadd, exchanged⟩
      · rw [hadd]
        exact unchanged
      · rw [hadd]
        exact .added rfl rfl made grown
      · rw [hadd]
        exact .replaced rfl rfl made exchanged

/-- A put leaves the array of lists as long as it was, and all chains but its own. -/
theorem PutEffect.frame {value : Option (Ptr Data)} {code : Int} {t' : Table}
    (effect : PutEffect t key value code t') :
    t'.size = t.size ∧ ∀ i : Nat, (∀ k, key = some k → i ≠ (t.index k.obj).toNat) →
      t'.lists[i]? = t.lists[i]? := by
  cases effect with
  | failed => exact ⟨rfl, fun _ _ => rfl⟩
  | added hkey =>
    exact ⟨rfl, fun i hi => by simp [Table.setChain, Table.setBucket, (hi _ hkey).symm]⟩
  | replaced hkey =>
    exact ⟨rfl, fun i hi => by simp [Table.setChain, Table.setBucket, (hi _ hkey).symm]⟩

/-- A put returns with one of three codes: -1 and nothing has changed, 0 and
the chain of the key has one node and one count more, 1 and one node of that
chain holds the new entry instead of its old one. -/
theorem put_changes (mem node : Option Nat) (value : Option (Ptr Data))
    (range : ∀ k, key = some k → InRange t k.obj) :
    ∃ code t', tablePut mem node t key value = .ok (code, t') ∧
      (code = -1 ∨ code = 0 ∨ code = 1) ∧
      (code = -1 → t' = t) ∧
      (code = 0 → ∃ k v e list, key = some k ∧ value = some v ∧ e.obj = ⟨some k, some v⟩ ∧
        Grown e (t.chain k.obj) list ∧ t' = t.setChain k.obj list) ∧
      (code = 1 → ∃ k v e list, key = some k ∧ value = some v ∧ e.obj = ⟨some k, some v⟩ ∧
        Exchanged e (t.chain k.obj) list ∧ t' = t.setChain k.obj list) ∧
      t'.size = t.size ∧
      ∀ i : Nat, (∀ k, key = some k → i ≠ (t.index k.obj).toNat) →
        t'.lists[i]? = t.lists[i]? := by
  obtain ⟨code, t', hput, effect⟩ := tablePut_effect mem node value range
  have frame := effect.frame
  refine ⟨code, t', hput, ?_⟩
  cases effect with
  | failed => exact ⟨Or.inl rfl, fun _ => rfl, by simp, by simp, frame⟩
  | @added k v e list hkey hvalue made grown =>
    exact ⟨Or.inr (Or.inl rfl), by simp, fun _ => ⟨k, v, e, list, hkey, hvalue, made, grown, rfl⟩,
      by simp, frame⟩
  | @replaced k v e list hkey hvalue made exchanged =>
    exact ⟨Or.inr (Or.inr rfl), by simp, by simp,
      fun _ => ⟨k, v, e, list, hkey, hvalue, made, exchanged, rfl⟩, frame⟩

end Puts

/-- One bucket whose chain is unsorted and ends in a vacated node. -/
def crookedTable : Table := ⟨1, [⟨3, mixedNodes ++ [⟨14, none⟩]⟩], rfl⟩

theorem put_changes_sample :
    (∃ t', tablePut (some 20) none crookedTable (some ⟨21, keyC⟩) (some sampleData) =
        .ok (-1, t') ∧ t' = crookedTable) ∧
      ∃ t', tablePut (some 20) (some 22) crookedTable (some ⟨21, keyC⟩) (some sampleData) =
        .ok (0, t') ∧ t'.size = 1 := by
  have range : ∀ k : Ptr CString, some (⟨21, keyC⟩ : Ptr CString) = some k →
      InRange crookedTable k.obj := by
    intro k hk
    cases hk
    decide
  obtain ⟨c, t', hput, _, same, _⟩ := put_changes (some 20) none (some sampleData) range
  obtain ⟨c2, t2, hput2, _, _, _, _, hsize, _⟩ :=
    put_changes (some 20) (some 22) (some sampleData) range
  refine ⟨⟨t', ?_, ?_⟩, t2, ?_, hsize⟩
  · rw [hput]
    cases hput
    rfl
  · apply same
    cases hput
    rfl
  · rw [hput2]
    cases hput2
    rfl

end PutEffects
