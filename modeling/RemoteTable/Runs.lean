import Mathlib.Tactic.Common

/-!
# Runs of a partial, deterministic step function

A run is a history of completed steps, latest first, each with the states
before and after it. Invariants are derived here once: unconditionally, along
runs whose steps all meet a condition, and as an equivalence where a step from
a good state stays good exactly under the condition.
-/

namespace Runs

universe u v w x

variable {σ : Type u} {ω : Type v} {ρ : Type u} {ε : Type w}

structure Event (σ : Type u) (ω : Type v) (ρ : Type u) where
  before : σ
  op : ω
  result : ρ
  after : σ

inductive Run (step : σ → ω → Except ε (ρ × σ)) (init : σ) : List (Event σ ω ρ) → σ → Prop
  | start : Run step init [] init
  | next {history s op result s'} (earlier : Run step init history s)
      (last : step s op = .ok (result, s')) :
      Run step init (⟨s, op, result, s'⟩ :: history) s'

variable {step : σ → ω → Except ε (ρ × σ)} {init : σ}

namespace Run

/-- Every event of a run is a completed step. -/
theorem event_step {history : List (Event σ ω ρ)} {s : σ} (run : Run step init history s) :
    ∀ e ∈ history, step e.before e.op = .ok (e.result, e.after) := by
  induction run with
  | start => simp
  | next _ last ih =>
    intro e he
    rcases List.mem_cons.mp he with rfl | he
    · exact last
    · exact ih e he

theorem earlier {later before : List (Event σ ω ρ)} {s : σ}
    (run : Run step init (later ++ before) s) : ∃ middle, Run step init before middle := by
  induction later generalizing s with
  | nil => exact ⟨s, run⟩
  | cons e later ih =>
    cases run with
    | next run last => exact ih run

/-- Along a run whose steps meet `C`, an invariant that such steps keep holds
at the end and around every event. -/
theorem invariant_where (C : σ → ω → Prop) (I : σ → Prop) (h0 : I init)
    (keeps : ∀ s op r s', I s → C s op → step s op = .ok (r, s') → I s')
    {history : List (Event σ ω ρ)} {s : σ} (run : Run step init history s)
    (met : ∀ e ∈ history, C e.before e.op) :
    I s ∧ ∀ e ∈ history, I e.before ∧ I e.after := by
  induction run with
  | start => exact ⟨h0, by simp⟩
  | @next history s op r s' earlier last ih =>
    obtain ⟨hs, hevents⟩ := ih (fun e he => met e (List.mem_cons_of_mem _ he))
    have hs' := keeps s op r s' hs (met _ List.mem_cons_self) last
    refine ⟨hs', ?_⟩
    intro e he
    rcases List.mem_cons.mp he with rfl | he
    · exact ⟨hs, hs'⟩
    · exact hevents e he

theorem invariant (I : σ → Prop) (h0 : I init)
    (keeps : ∀ s op r s', I s → step s op = .ok (r, s') → I s')
    {history : List (Event σ ω ρ)} {s : σ} (run : Run step init history s) :
    I s ∧ ∀ e ∈ history, I e.before ∧ I e.after :=
  invariant_where (fun _ _ => True) I h0 (fun s op r s' hs _ h => keeps s op r s' hs h) run
    (fun _ _ => trivial)

/-- Where a step from a good state leads to a good state exactly under `C`,
all states of a run are good exactly when all its steps meet `C`. -/
theorem good_iff_met (C : σ → ω → Prop) (I : σ → Prop) (h0 : I init)
    {history : List (Event σ ω ρ)} {s : σ} (run : Run step init history s)
    (keeps : ∀ e ∈ history, I e.before → (I e.after ↔ C e.before e.op)) :
    (∀ e ∈ history, I e.after) ↔ ∀ e ∈ history, C e.before e.op := by
  suffices h : ((∀ e ∈ history, I e.after) → I s) ∧
      ((∀ e ∈ history, I e.after) ↔ ∀ e ∈ history, C e.before e.op) from h.2
  induction run with
  | start => exact ⟨fun _ => h0, by simp⟩
  | @next history s op r s' earlier last ih =>
    obtain ⟨hs, hiff⟩ := ih (fun e he => keeps e (List.mem_cons_of_mem _ he))
    have hlast := keeps _ List.mem_cons_self
    simp only [List.mem_cons, forall_eq_or_imp]
    refine ⟨fun h => h.1, ?_, ?_⟩
    · rintro ⟨hs', hall⟩
      exact ⟨(hlast (hs hall)).mp hs', hiff.mp hall⟩
    · rintro ⟨hc, hall⟩
      have hgood := hiff.mpr hall
      exact ⟨(hlast (hs hgood)).mpr hc, hgood⟩

end Run

/-- What every event shows, given the events before it. -/
def Along (P : List (Event σ ω ρ) → Event σ ω ρ → Prop) : List (Event σ ω ρ) → Prop
  | [] => True
  | e :: earlier => P earlier e ∧ Along P earlier

namespace Run

/-- Where a step from a related state shows `P` exactly under `C`, and then
leads to a related state, every event of a run shows `P` exactly when all its
steps meet `C`. All steps are taken to meet `A`. -/
theorem along_iff (A C : σ → ω → Prop) (R : List (Event σ ω ρ) → σ → Prop)
    (P : List (Event σ ω ρ) → Event σ ω ρ → Prop) (h0 : R [] init)
    (keeps : ∀ history s op r s', R history s → A s op → step s op = .ok (r, s') →
      (P history ⟨s, op, r, s'⟩ ↔ C s op) ∧ (C s op → R (⟨s, op, r, s'⟩ :: history) s'))
    {history : List (Event σ ω ρ)} {s : σ} (run : Run step init history s)
    (met : ∀ e ∈ history, A e.before e.op) :
    (Along P history ↔ ∀ e ∈ history, C e.before e.op) ∧
      ((∀ e ∈ history, C e.before e.op) → R history s) := by
  induction run with
  | start => exact ⟨by simp [Along], fun _ => h0⟩
  | @next history s op r s' earlier last ih =>
    obtain ⟨hiff, hrel⟩ := ih (fun e he => met e (List.mem_cons_of_mem _ he))
    have hlast := fun hR => keeps history s op r s' hR (met _ List.mem_cons_self) last
    simp only [Along, List.mem_cons, forall_eq_or_imp]
    refine ⟨?_, fun h => (hlast (hrel h.2)).2 h.1⟩
    rw [hiff]
    constructor
    · rintro ⟨hP, hall⟩
      exact ⟨(hlast (hrel hall)).1.mp hP, hall⟩
    · rintro ⟨hC, hall⟩
      exact ⟨(hlast (hrel hall)).1.mpr hC, hall⟩

/-- Simulation: a relation between history and state that is kept by steps
under `C`, which show `P`, holds along every run of such steps. -/
theorem simulation (C : σ → ω → Prop) (R : List (Event σ ω ρ) → σ → Prop)
    (P : List (Event σ ω ρ) → Event σ ω ρ → Prop) (h0 : R [] init)
    (keeps : ∀ history s op r s', R history s → C s op → step s op = .ok (r, s') →
      P history ⟨s, op, r, s'⟩ ∧ R (⟨s, op, r, s'⟩ :: history) s')
    {history : List (Event σ ω ρ)} {s : σ} (run : Run step init history s)
    (met : ∀ e ∈ history, C e.before e.op) : Along P history ∧ R history s := by
  have h := run.along_iff C (fun _ _ => True) R P h0
    (fun history s op r s' hR hC hstep => by
      obtain ⟨hP, hR'⟩ := keeps history s op r s' hR hC hstep
      exact ⟨by simp [hP], fun _ => hR'⟩) met
  exact ⟨h.1.mpr (fun _ _ => trivial), h.2 (fun _ _ => trivial)⟩

end Run

/-- Execute a list of operations, collecting the history. -/
def play (step : σ → ω → Except ε (ρ × σ)) :
    List ω → List (Event σ ω ρ) → σ → Except ε (List (Event σ ω ρ) × σ)
  | [], history, s => .ok (history, s)
  | op :: ops, history, s => match step s op with
    | .error e => .error e
    | .ok (r, s') => play step ops (⟨s, op, r, s'⟩ :: history) s'

/-- The conditions of all steps of the execution, each on the state before it. -/
def Meets (step : σ → ω → Except ε (ρ × σ)) (C : σ → ω → Prop) : σ → List ω → Prop
  | _, [] => True
  | s, op :: ops => C s op ∧ ∀ r s', step s op = .ok (r, s') → Meets step C s' ops

theorem play_run (ops : List ω) {history history' : List (Event σ ω ρ)} {s s' : σ}
    (run : Run step init history s) (played : play step ops history s = .ok (history', s')) :
    Run step init history' s' := by
  induction ops generalizing history s with
  | nil =>
    simp only [play, Except.ok.injEq, Prod.mk.injEq] at played
    obtain ⟨rfl, rfl⟩ := played
    exact run
  | cons op ops ih =>
    cases hstep : step s op with
    | error e => simp [play, hstep] at played
    | ok out =>
      obtain ⟨r, t⟩ := out
      exact ih (run.next hstep) (by simpa [play, hstep] using played)

/-- If on good states a step completes exactly under `C`, and good states stay
good, an execution completes exactly when each of its steps meets `C`. -/
theorem play_completes_iff (C : σ → ω → Prop) (I : σ → Prop)
    (keeps : ∀ s op r s', I s → step s op = .ok (r, s') → I s')
    (completes : ∀ s op, I s → ((∃ out, step s op = .ok out) ↔ C s op))
    (ops : List ω) (history : List (Event σ ω ρ)) (s : σ) (hs : I s) :
    (∃ out, play step ops history s = .ok out) ↔ Meets step C s ops := by
  induction ops generalizing history s with
  | nil => simp [play, Meets]
  | cons op ops ih =>
    have hc := completes s op hs
    cases hstep : step s op with
    | error e =>
      have hnot : ¬ C s op := by rw [← hc, hstep]; simp
      simp [play, Meets, hstep, hnot]
    | ok out =>
      obtain ⟨r, t⟩ := out
      have hC : C s op := hc.mp ⟨_, hstep⟩
      have hrest := ih (⟨s, op, r, t⟩ :: history) t (keeps s op r t hs hstep)
      simpa [play, Meets, hstep, hC] using hrest

/-- What the steps of an execution return, and the error it stops with, if any. -/
def trace (step : σ → ω → Except ε (ρ × σ)) : List ω → σ → List ρ × Option ε
  | [], _ => ([], none)
  | op :: ops, s => match step s op with
    | .error e => ([], some e)
    | .ok (r, s') => (r :: (trace step ops s').1, (trace step ops s').2)

/-- If related states make the same steps, with the same results and errors, every
execution shows the same from related states on. -/
theorem trace_eq {τ : Type u} {step' : τ → ω → Except ε (ρ × τ)} (R : σ → τ → Prop)
    (agree : ∀ s t op, R s t → (∀ e, step' t op = .error e → step s op = .error e) ∧
      ∀ r t', step' t op = .ok (r, t') → ∃ s', step s op = .ok (r, s') ∧ R s' t')
    (ops : List ω) {s : σ} {t : τ} (related : R s t) : trace step ops s = trace step' ops t := by
  induction ops generalizing s t with
  | nil => rfl
  | cons op ops ih =>
    obtain ⟨fails, goes⟩ := agree s t op related
    cases h : step' t op with
    | error e => simp only [trace, h, fails e h]
    | ok out =>
      obtain ⟨s', hstep, related'⟩ := goes out.1 out.2 h
      simp only [trace, h, hstep, ih related']

end Runs
