import Mathlib

/-!
# Runs of a deterministic machine and invariants of their histories

A machine takes an input in a state, answers it and moves to the next state.  A run is described by
the state it ends in (`final`) and the list of its events (`events`).  The induction rule
(`history_invariant`) carries an invariant that relates the two.
-/

namespace Run

/-- One step of a run, with the states around it. -/
structure Event (σ ε ρ : Type*) where
  before : σ
  input : ε
  result : ρ
  after : σ

variable {σ ε ρ : Type*} (step : σ → ε → ρ × σ)

/-- The event of taking input `i` in state `s`. -/
def event (s : σ) (i : ε) : Event σ ε ρ :=
  ⟨s, i, (step s i).1, (step s i).2⟩

/-- The events of a run, oldest first. -/
def events : σ → List ε → List (Event σ ε ρ)
  | _, [] => []
  | s, i :: is => event step s i :: events (step s i).2 is

/-- The state a run ends in. -/
def final : σ → List ε → σ
  | s, [] => s
  | s, i :: is => final (step s i).2 is

@[simp] theorem event_before (s : σ) (i : ε) : (event step s i).before = s := rfl
@[simp] theorem event_input (s : σ) (i : ε) : (event step s i).input = i := rfl
@[simp] theorem event_result (s : σ) (i : ε) : (event step s i).result = (step s i).1 := rfl
@[simp] theorem event_after (s : σ) (i : ε) : (event step s i).after = (step s i).2 := rfl

theorem events_append (s : σ) (is js : List ε) : events step s (is ++ js) =
      events step s is ++ events step (final step s is) js := by
  induction is generalizing s with
  | nil => rfl
  | cons i is ih => simp [events, final, ih]

theorem final_append (s : σ) (is js : List ε) :
    final step s (is ++ js) = final step (final step s is) js := by
  induction is generalizing s with
  | nil => rfl
  | cons i is ih => simp [final, ih]

/-- **Invariants of histories.**  What holds at the start, and what every step meeting `ok` extends
by its own event, holds of every run whose events all meet `ok`. -/
theorem history_invariant (P : List (Event σ ε ρ) → σ → Prop)
    (ok : Event σ ε ρ → Prop) {s : σ} (start : P [] s)
    (extend : ∀ log t i, P log t → ok (event step t i) → P (log ++ [event step t i]) (step t i).2) :
    ∀ is, (∀ e ∈ events step s is, ok e) → P (events step s is) (final step s is) := by
  have general : ∀ is log t, P log t → (∀ e ∈ events step t is, ok e) →
      P (log ++ events step t is) (final step t is) := by
    intro is
    induction is with
    | nil => intro log t h _; simpa [events, final] using h
    | cons i is ih =>
      intro log t h hok
      have hstep := extend log t i h (hok _ List.mem_cons_self)
      have htail := ih _ _ hstep (fun e he => hok e (List.mem_cons_of_mem _ he))
      simpa [events, final] using htail
  intro is hok
  simpa using general is [] s start hok

/-- An invariant of the states alone. -/
theorem state_invariant (P : σ → Prop) (ok : Event σ ε ρ → Prop) {s : σ} (start : P s)
    (preserved : ∀ t i, P t → ok (event step t i) → P (step t i).2) :
    ∀ is, (∀ e ∈ events step s is, ok e) → P (final step s is) :=
  history_invariant step (fun _ t => P t) ok start (fun _ t i h hok => preserved t i h hok)

/-- Every event of a run is the step of one of its inputs, taken in the state
the inputs before it lead to. -/
theorem mem_events {s : σ} {is : List ε} {e : Event σ ε ρ} (he : e ∈ events step s is) :
    ∃ before after, is = before ++ e.input :: after ∧
      e = event step (final step s before) e.input := by
  induction is generalizing s with
  | nil => simp [events] at he
  | cons i is ih =>
    rcases List.mem_cons.mp he with rfl | he
    · exact ⟨[], is, rfl, rfl⟩
    · obtain ⟨before, after, rfl, h⟩ := ih he
      exact ⟨i :: before, after, rfl, h⟩

end Run
