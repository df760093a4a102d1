/-!
# Runs of calls

Registries, settings and sessions take calls one after another: each call gives an answer and leaves
the state that the next one finds. `stateAfter` and `answers` are the run of any such `step`. Where
a call leaves the state as it was, the answers to all other calls are the same without it
(`answers_eraseIdx`).
-/

namespace BackoffLM.Run

variable {σ ι ο : Type _} (step : σ → ι → ο × σ)

/-- The state that calls leave. -/
def stateAfter (s : σ) (calls : List ι) : σ := calls.foldl (fun s call => (step s call).2) s

/-- The answers to calls. -/
def answers : σ → List ι → List ο
  | _, [] => []
  | s, call :: calls => (step s call).1 :: answers (step s call).2 calls

variable (s : σ)

theorem stateAfter_cons (call : ι) (calls : List ι) :
    stateAfter step s (call :: calls) = stateAfter step (step s call).2 calls := rfl

/-- Calls find the state that those before them leave. -/
theorem stateAfter_append (before later : List ι) :
    stateAfter step s (before ++ later) = stateAfter step (stateAfter step s before) later :=
  List.foldl_append

theorem stateAfter_concat (before : List ι) (call : ι) :
    stateAfter step s (before ++ [call]) = (step (stateAfter step s before) call).2 := by
  rw [stateAfter_append, stateAfter_cons]
  rfl

/-- What every call keeps is kept by all of them. -/
theorem stateAfter_invariant (holds : σ → Prop) {calls : List ι}
    (hstep : ∀ s, ∀ call ∈ calls, holds s → holds (step s call).2) {s : σ} (h : holds s) :
    holds (stateAfter step s calls) := by
  induction calls generalizing s with
  | nil => exact h
  | cons call calls ih =>
    exact ih (fun s call hcall => hstep s call (List.mem_cons_of_mem _ hcall))
      (hstep s call List.mem_cons_self h)

theorem length_answers (calls : List ι) : (answers step s calls).length = calls.length := by
  induction calls generalizing s with
  | nil => rfl
  | cons call calls ih => rw [answers, List.length_cons, List.length_cons, ih]

/-- Each call is answered in the state that those before it leave. -/
theorem getElem?_answers (calls : List ι) (place : Nat) :
    (answers step s calls)[place]? =
      calls[place]?.map fun call => (step (stateAfter step s (calls.take place)) call).1 := by
  induction calls generalizing s place with
  | nil => rfl
  | cons call calls ih =>
    cases place with
    | zero => rfl
    | succ place => exact ih (step s call).2 place

theorem answers_append (before later : List ι) :
    answers step s (before ++ later) =
      answers step s before ++ answers step (stateAfter step s before) later := by
  induction before generalizing s with
  | nil => rfl
  | cons call before ih =>
    rw [List.cons_append, answers, answers, List.cons_append, ih, stateAfter_cons]

/-- A call that leaves the state as it was changes no answer but its own. -/
theorem answers_eraseIdx {before : List ι} {call : ι}
    (h : (step (stateAfter step s before) call).2 = stateAfter step s before) (later : List ι) :
    (answers step s (before ++ call :: later)).eraseIdx before.length =
      answers step s (before ++ later) := by
  rw [answers_append, answers_append, answers, h,
    List.eraseIdx_append_of_length_le (Nat.le_of_eq (length_answers step s before)), length_answers,
    Nat.sub_self, List.eraseIdx_cons_zero]

end BackoffLM.Run
