/-
# Runs of a machine

A machine changes its state at each event. What one step keeps, every run keeps;
what one step does to the state, a run does by reflexivity and transitivity. A
condition on the steps of a run may be assumed where the step needs it.

Key definitions: `run`, `Meets`.
Key theorems: `run_invariant`, `run_relation`, `run_invariant_of_meets`.
-/
import Mathlib

namespace Run

variable {σ ε : Type*} (step : σ → ε → σ)

/-- The state after the events. -/
def run (s : σ) (events : List ε) : σ := events.foldl step s

@[simp]
theorem run_nil (s : σ) : run step s [] = s := rfl

@[simp]
theorem run_cons (s : σ) (e : ε) (events : List ε) : run step s (e :: events) = run step (step s e) events := rfl

theorem run_append (s : σ) (events more : List ε) :
    run step s (events ++ more) = run step (run step s events) more := List.foldl_append

theorem run_concat (s : σ) (events : List ε) (e : ε) :
    run step s (events ++ [e]) = step (run step s events) e := by
  rw [run_append, run_cons, run_nil]

variable {step}

/-- What every step keeps holds after every run. -/
theorem run_invariant {inv : σ → Prop} (hstep : ∀ s e, inv s → inv (step s e)) :
    ∀ {s : σ} (events : List ε), inv s → inv (run step s events)
  | _, [], h => h
  | s, e :: events, h => run_invariant hstep events (hstep s e h)

/-- Where an invariant holds, a step changes the state as a reflexive and transitive relation says, and so
does a run. -/
theorem run_relation {inv : σ → Prop} {rel : σ → σ → Prop} (hrefl : ∀ s, rel s s)
    (htrans : ∀ {a b c}, rel a b → rel b c → rel a c) (hinv : ∀ s e, inv s → inv (step s e))
    (hstep : ∀ s e, inv s → rel s (step s e)) :
    ∀ {s : σ} (events : List ε), inv s → rel s (run step s events)
  | s, [], _ => hrefl s
  | s, e :: events, h =>
    htrans (hstep s e h) (run_relation hrefl htrans hinv hstep events (hinv s e h))

/-! ### Runs whose steps meet a condition -/

variable (step) in
/-- Every step of the run meets the condition in the state it is taken in. -/
def Meets (ok : σ → ε → Prop) : σ → List ε → Prop
  | _, [] => True
  | s, e :: events => ok s e ∧ Meets ok (step s e) events

theorem meets_append {ok : σ → ε → Prop} : ∀ {s : σ} {events more : List ε},
    Meets step ok s (events ++ more) ↔ Meets step ok s events ∧ Meets step ok (run step s events) more
  | s, [], more => by simp [Meets]
  | s, e :: events, more => by
    simp only [List.cons_append, Meets, run_cons, meets_append, and_assoc]

theorem run_invariant_of_meets {ok : σ → ε → Prop} {inv : σ → Prop}
    (hstep : ∀ s e, ok s e → inv s → inv (step s e)) :
    ∀ {s : σ} (events : List ε), Meets step ok s events → inv s → inv (run step s events)
  | _, [], _, h => h
  | s, e :: events, hmeets, h => run_invariant_of_meets hstep events hmeets.2 (hstep s e hmeets.1 h)

end Run
