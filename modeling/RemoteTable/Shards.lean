import Mathlib.Tactic.Common

/-!
# States made of components

Operations that each read and write one component of the state, or write none,
do not meet: a component comes to what the operations on it alone make of it,
with the same results, and of the order of all operations only the order
within each component matters.
-/

namespace Shards

universe u v w x y

variable {σ : Type u} {ω : Type v} {ρ : Type w} {ι : Type x} {κ : Type y}

/-- Operations performed one after another from `s`, with their results. -/
inductive Performed (exec : ω → σ → ρ × σ) (s : σ) : List (ω × ρ) → σ → Prop
  | none : Performed exec s [] s
  | snoc {earlier now} (before : Performed exec s earlier now) (op : ω) :
      Performed exec s (earlier ++ [(op, (exec op now).1)]) (exec op now).2

/-- On good states every operation reads the component at its place at most, and
writes no other. -/
structure Local (Good : σ → Prop) (read : σ → ι → κ) (place : ω → Option ι)
    (exec : ω → σ → ρ × σ) : Prop where
  good : ∀ op s, Good s → Good (exec op s).2
  elsewhere : ∀ op s i, Good s → place op ≠ some i → read (exec op s).2 i = read s i
  here : ∀ op s t i, Good s → Good t → place op = some i → read s i = read t i →
    (exec op s).1 = (exec op t).1 ∧ read (exec op s).2 i = read (exec op t).2 i

/-- What was performed on one component. -/
def performedAt [DecidableEq ι] (place : ω → Option ι) (i : ι) (done : List (ω × ρ)) :
    List (ω × ρ) :=
  done.filter fun d => place d.1 = some i

namespace Performed

variable {exec : ω → σ → ρ × σ} {s last last' : σ} {done done' : List (ω × ρ)}

/-- The operations determine their results and the state they lead to. -/
theorem unique (first : Performed exec s done last) (second : Performed exec s done' last')
    (same : done.map Prod.fst = done'.map Prod.fst) : done = done' ∧ last = last' := by
  induction first generalizing done' last' with
  | none =>
    cases second with
    | none => exact ⟨rfl, rfl⟩
    | snoc => simp at same
  | @snoc earlier now before op ih =>
    cases second with
    | none => simp at same
    | @snoc earlier' now' before' op' =>
      simp only [List.map_append, List.map_cons, List.map_nil] at same
      obtain ⟨same_earlier, same_op⟩ := List.append_inj' same rfl
      obtain ⟨rfl, rfl⟩ := ih before' same_earlier
      cases same_op
      exact ⟨rfl, rfl⟩

theorem good {Good : σ → Prop} (keeps : ∀ op s, Good s → Good (exec op s).2) (h0 : Good s)
    (performed : Performed exec s done last) : Good last := by
  induction performed with
  | none => exact h0
  | snoc _ op ih => exact keeps op _ ih

variable [DecidableEq ι] {Good : σ → Prop} {read : σ → ι → κ} {place : ω → Option ι}

/-- A component comes to what its own operations make of it, with the same results. -/
theorem alone (splits : Local Good read place exec) (h0 : Good s)
    (performed : Performed exec s done last) (i : ι) :
    ∃ now, Performed exec s (performedAt place i done) now ∧ read now i = read last i := by
  induction performed with
  | none => exact ⟨s, .none, rfl⟩
  | @snoc earlier whole before op ih =>
    obtain ⟨now, own, same⟩ := ih
    have good_whole := before.good splits.good h0
    have good_now := own.good splits.good h0
    rw [performedAt, List.filter_append]
    by_cases hop : place op = some i
    · obtain ⟨result, reads⟩ := splits.here op now whole i good_now good_whole hop same
      refine ⟨(exec op now).2, ?_, reads⟩
      rw [List.filter_cons_of_pos (by simpa using hop), List.filter_nil, ← result]
      exact own.snoc op
    · refine ⟨now, ?_, ?_⟩
      · rw [List.filter_cons_of_neg (by simpa using hop), List.filter_nil, List.append_nil]
        exact own
      · rw [same, splits.elsewhere op whole i good_whole hop]

/-- Performances that agree on the order within every component agree on all results
there, and lead to the same state where a state is its components. -/
theorem agree (splits : Local Good read place exec) (h0 : Good s)
    (whole : ∀ a b, Good a → Good b → (∀ i, read a i = read b i) → a = b)
    (first : Performed exec s done last) (second : Performed exec s done' last')
    (same : ∀ i, (performedAt place i done).map Prod.fst =
      (performedAt place i done').map Prod.fst) :
    (∀ i, performedAt place i done = performedAt place i done') ∧ last = last' := by
  have at_each : ∀ i, performedAt place i done = performedAt place i done' ∧
      read last i = read last' i := by
    intro i
    obtain ⟨now, own, reads⟩ := first.alone splits h0 i
    obtain ⟨now', own', reads'⟩ := second.alone splits h0 i
    obtain ⟨results, rfl⟩ := own.unique own' (same i)
    exact ⟨results, reads.symm.trans reads'⟩
  constructor
  · intro i
    exact (at_each i).1
  · apply whole
    · exact first.good splits.good h0
    · exact second.good splits.good h0
    · intro i
      exact (at_each i).2

end Performed

end Shards
