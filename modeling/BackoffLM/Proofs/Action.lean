import BackoffLM.Action

/-!
# What operations do

An operation on a state is run step by step: a step that ended well hands its result and its state
to the next one, and the first step that fails is the last. An operation on a part of a state, or on
a value behind a lock, does to the whole what it does to the part (`run_within`, `run_change`).

What a failing step did until then stays, so that it changes nothing has to be proved of each
operation. `Atomic` says so, and that it does not panic. Such an operation ends with its outcome and
the state of that, or with the state of before (`ended`), and so do operations that are put together
from steps of which at most the last changes anything (`run_bind_ended`).
-/

namespace BackoffLM.Action

variable {σ τ α β : Type} {x : Action σ α} {f : α → Action σ β} {s s' : σ}

/-- After an operation that ended well the next one goes on with its result and its state. -/
theorem run_bind_ok {a : α} (h : x.run.run s = (.ok a, s')) :
    (x >>= f).run.run s = (f a).run.run s' := by
  rw [ExceptT.run_bind, StateT.run_bind, h]
  rfl

/-- An operation that failed is the last one. -/
theorem run_bind_error {e : CallError} (h : x.run.run s = (.error e, s')) :
    (x >>= f).run.run s = (.error e, s') := by
  rw [ExceptT.run_bind, StateT.run_bind, h]
  rfl

/-- Two operations end well when the first does and the second does with what that leaves. -/
theorem run_bind_eq_ok {b : β} {s'' : σ} :
    (x >>= f).run.run s = (.ok b, s'') ↔
      ∃ a s', x.run.run s = (.ok a, s') ∧ (f a).run.run s' = (.ok b, s'') := by
  constructor
  · intro h
    obtain ⟨outcome, s', hx⟩ : ∃ outcome s', x.run.run s = (outcome, s') := ⟨_, _, rfl⟩
    cases outcome with
    | error e =>
      rw [run_bind_error hx] at h
      cases h
    | ok a =>
      rw [run_bind_ok hx] at h
      exact ⟨a, s', hx, h⟩
  · rintro ⟨a, s', hx, h⟩
    rw [run_bind_ok hx, h]

/-- The state is read and left as it is. -/
theorem run_get : (get : Action σ σ).run.run s = (.ok s, s) := rfl

/-- The state is changed. -/
theorem run_modify (g : σ → σ) : (modify g : Action σ PUnit).run.run s = (.ok ⟨⟩, g s) := rfl

/-- An outcome that has nothing to do with the state leaves it as it is. -/
theorem run_lift (outcome : Except CallError α) :
    (liftM outcome : Action σ α).run.run s = (outcome, s) := by
  cases outcome with
  | error | ok => rfl

/-- Neither does one that is read off it. -/
theorem run_read (f : σ → Except CallError α) :
    (do f (← get) : Action σ α).run.run s = (f s, s) := by
  rw [run_bind_ok run_get, run_lift]

/-- What an operation makes of a part of the state becomes of the whole. -/
theorem run_within {part : σ → τ} {replace : τ → σ → σ} {body : Action τ α}
    {answer : Except CallError α} {t : τ} (h : body.run.run (part s) = (answer, t)) :
    (within part replace body).run.run s = (answer, replace t s) :=
  congrArg (fun done : Except CallError α × τ => (done.1, replace done.2 s)) h

/-! ## Operations that change nothing when they fail -/

/-- What an operation comes to: its result and the state with it, or why it failed. -/
def result (body : Action σ α) (s : σ) : Except CallError (α × σ) :=
  match body.run.run s with
  | (.ok a, s') => .ok (a, s')
  | (.error e, _) => .error e

/-- The end of an operation that came to an outcome and changed nothing if it failed. -/
def ended (s : σ) : Except CallError (α × σ) → Except CallError α × σ
  | .ok (a, s') => (.ok a, s')
  | .error e => (.error e, s)

/-- An operation changes nothing when it fails, and it does not panic. -/
def Atomic (body : Action σ α) : Prop :=
  ∀ ⦃s s' : σ⦄ ⦃e : CallError⦄, body.run.run s = (.error e, s') →
    s' = s ∧ ∀ message, e ≠ .panicked message

/-- Such an operation ends with what it comes to. -/
theorem Atomic.run_eq (h : x.Atomic) (s : σ) : x.run.run s = ended s (x.result s) := by
  obtain ⟨answer, s', hx⟩ : ∃ answer s', x.run.run s = (answer, s') := ⟨_, _, rfl⟩
  rw [result, hx]
  cases answer with
  | ok a => rfl
  | error e => rw [(h hx).1]; rfl

/-- An operation whose run is known comes to the outcome of that. -/
theorem result_eq {answer : Except CallError α} (h : x.run.run s = (answer, s')) :
    x.result s = answer.map (·, s') := by
  rw [result, h]
  cases answer with
  | error | ok => rfl

theorem Atomic.ne_panicked (h : x.Atomic) {e : CallError} (hx : x.result s = .error e)
    (message : String) : e ≠ .panicked message := by
  obtain ⟨answer, s', hrun⟩ : ∃ answer s', x.run.run s = (answer, s') := ⟨_, _, rfl⟩
  rw [result, hrun] at hx
  cases answer with
  | ok a => cases hx
  | error e' =>
    cases hx
    exact (h hrun).2 message

/-- Reading changes nothing. -/
theorem atomic_read {f : σ → Except CallError α}
    (h : ∀ ⦃s e⦄, f s = .error e → ∀ message, e ≠ .panicked message) :
    Atomic (do f (← get) : Action σ α) := by
  intro s s' e hrun
  obtain ⟨hf, hs⟩ := Prod.mk.inj ((run_read f).symm.trans hrun)
  exact ⟨hs.symm, h hf⟩

/-- After a step that changes nothing the others decide on the end. -/
theorem run_bind_ended {outcome : Except CallError α} {g : α → Except CallError (β × σ)}
    (hx : x.run.run s = (outcome, s))
    (hf : ∀ {a}, outcome = .ok a → (f a).run.run s = ended s (g a)) :
    (x >>= f).run.run s = ended s (outcome >>= g) := by
  cases outcome with
  | error e => exact run_bind_error hx
  | ok a => exact (run_bind_ok hx).trans (hf rfl)

/-- An operation on a part that changed nothing changes nothing of the whole. -/
theorem run_within_ended {part : σ → τ} {replace : τ → σ → σ} {body : Action τ α}
    {outcome : Except CallError (α × τ)} (hsame : replace (part s) s = s)
    (h : body.run.run (part s) = ended (part s) outcome) :
    (within part replace body).run.run s =
      ended s (outcome.map fun (a, t) => (a, replace t s)) := by
  cases outcome with
  | ok done => exact run_within h
  | error e => rw [run_within h, hsame]; rfl

end BackoffLM.Action

namespace BackoffLM.Locked

variable {α β : Type} {refusal : CallError} {body : Action α β}

/-- A lock that is poisoned refuses everyone. -/
theorem run_change_of_poisoned {l : Locked α} (h : l.poisoned = true) :
    (change refusal body).run.run l = (.error refusal, l) := if_pos h

/-- Any other lets the operation do what it does, and is poisoned if that panics. -/
theorem run_change {value value' : α} {answer : Except CallError β}
    (h : body.run.run value = (answer, value')) :
    (change refusal body).run.run (sound value) = (answer, ⟨value', Action.isPanic answer⟩) :=
  congrArg (fun done : Except CallError β × α =>
    (done.1, Locked.mk done.2 (Action.isPanic done.1))) h

/-- A value whose lock is not poisoned is there for reading. -/
theorem read_eq_ok_iff {l : Locked α} {value : α} :
    l.read refusal = .ok value ↔ l = sound value := by
  obtain ⟨found, poisoned⟩ := l
  cases poisoned with
  | true => exact iff_of_false nofun nofun
  | false =>
    show Except.ok found = Except.ok value ↔ _
    rw [Except.ok.injEq, sound, Locked.mk.injEq, eq_self, and_true]

theorem read_eq_error_iff {l : Locked α} {e : CallError} :
    l.read refusal = .error e ↔ l.poisoned = true ∧ e = refusal := by
  obtain ⟨found, poisoned⟩ := l
  cases poisoned with
  | true =>
    show Except.error refusal = Except.error e ↔ _
    rw [Except.error.injEq, eq_comm, eq_self, true_and]
  | false => exact iff_of_false nofun nofun

/-- What an operation behind a lock comes to if it changes nothing when it fails. -/
def outcome (refusal : CallError) (body : Action α β) (l : Locked α) :
    Except CallError (β × Locked α) :=
  (l.read refusal >>= body.result).map fun done => (done.1, sound done.2)

/-- Such an operation comes to that, and leaves the lock sound. -/
theorem run_change_ended (h : body.Atomic) (l : Locked α) :
    (change refusal body).run.run l = Action.ended l (outcome refusal body l) := by
  obtain ⟨value, poisoned⟩ := l
  cases poisoned with
  | true => exact run_change_of_poisoned rfl
  | false =>
    show (change refusal body).run.run (sound value) =
      Action.ended (sound value) ((body.result value).map fun done => (done.1, sound done.2))
    rw [run_change (h.run_eq value)]
    cases hresult : body.result value with
    | ok done => rfl
    | error e =>
      cases e with
      | panicked message => exact absurd rfl (h.ne_panicked hresult message)
      | _ => rfl

end BackoffLM.Locked
