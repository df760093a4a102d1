import BackoffLM.Proofs.Action
import BackoffLM.Proofs.Outcome
import BackoffLM.Proofs.Runs
import BackoffLM.Registry
import Mathlib.Data.List.Induction

/-!
# The life cycle of a registry

A registry answers loads, scores and teardowns in any order. `Lifecycle` says what is known of it
after any calls: it has a model exactly when a load succeeded since the last teardown, it then has
the model that this one load read and scores with no other, and a call that fails is as if it had
not been made. `LoadFails` says why a registry without a model refuses a load, and in which order
the causes are looked for: the arguments come before the file.

The proof keeps two facts through a run. As long as there is no teardown a model stays
(`loaded_stateAfter`), and a registry with a model owes it to a load since the last teardown
(`exists_loadedBy`).
-/

namespace BackoffLM.Registry

/-! ## Calls -/

/-- A call on a registry. -/
inductive Call where
  | load (order : Int) (path : String) (code : Int)
  /-- The context is given newest word first. -/
  | score (word : String) (context : List String)
  | teardown
  deriving DecidableEq, Repr

/-- Answers a call: with a log probability if it asks for one. -/
def serve (files : Files) (r : Registry) : Call → Except CallError (Option LogProb) × Registry
  | .load order path code =>
    let (answer, after) := (load files order path code).run.run r
    (answer.map fun _ => none, after)
  | .score word context => ((r.score word context).map some, r)
  | .teardown => (.ok none, r.teardown)

/-- The registry after calls, without a model before them. -/
def afterCalls (files : Files) (calls : List Call) : Registry :=
  Run.stateAfter (serve files) empty calls

/-- The answers to calls, without a model before them. -/
def answersTo (files : Files) (calls : List Call) : List (Except CallError (Option LogProb)) :=
  Run.answers (serve files) empty calls

/-- What a model answers to a score: no word may be empty. -/
def scoreWith (model : LoadedModel) (word : String) (context : List String) :
    Except CallError (Option LogProb) :=
  if word = "" then .error .emptyWord
  else
    match context.findIdx? String.isEmpty with
    | some place => .error (.emptyContextWord place)
    | none => .ok (some (model.logProb word context))

/-- Why a registry without a model refuses a load. -/
inductive LoadFails (files : Files) (order : Int) (path : String) (code : Int) : CallError → Prop
  | unknownFamily :
    Family.ofCode? code = none → LoadFails files order path code (.unknownFamily code)
  | invalidOrder {family : Family} :
    Family.ofCode? code = some family → order < 1 →
      LoadFails files order path code (.invalidOrder order)
  | emptyPath {family : Family} :
    Family.ofCode? code = some family → 1 ≤ order → path = "" →
      LoadFails files order path code (.unreadable path (.file .emptyName))
  | unreadableFile {family : Family} {fault : FileFault} :
    Family.ofCode? code = some family → 1 ≤ order → path ≠ "" → files.read path = .error fault →
      LoadFails files order path code (.unreadable path (.file fault))
  | unparsable {family : Family} {bytes : List UInt8} {cause : LoadError} :
    Family.ofCode? code = some family → 1 ≤ order → path ≠ "" → files.read path = .ok bytes →
      LoadedModel.ofBytes family (min order.toNat orderLimit) bytes = .error cause →
      LoadFails files order path code (.unreadable path cause)

/-- The load at a place among calls succeeded, and there was no teardown since. -/
structure LoadedAt (files : Files) (calls : List Call) (place : Nat) (order : Int) (path : String)
    (code : Int) : Prop where
  call : calls[place]? = some (.load order path code)
  succeeded : (answersTo files calls)[place]? = some (.ok none)
  since : .teardown ∉ calls.drop (place + 1)

/-- What is known of a registry after calls. -/
structure Lifecycle (files : Files) (calls : List Call) : Prop where
  /-- There is a model exactly when some load succeeded after the last teardown. -/
  isLoaded_iff : (afterCalls files calls).isLoaded = true ↔
    ∃ place order path code, LoadedAt files calls place order path code
  /-- No other load succeeded after the last teardown. -/
  single {place place' : Nat} {order order' : Int} {path path' : String} {code code' : Int} :
    LoadedAt files calls place order path code → LoadedAt files calls place' order' path' code' →
      place = place'
  /-- Every score is answered with the model that this load read. -/
  scores {place : Nat} {order : Int} {path : String} {code : Int} :
    LoadedAt files calls place order path code →
      ∃ family model, Family.ofCode? code = some family ∧
        read files family order.toNat path = .ok model ∧
        ∀ word context, serve files (afterCalls files calls) (.score word context) =
          (scoreWith model word context, afterCalls files calls)
  /-- As long as there is a model another load is out of turn, and the model stays. -/
  second_load : (afterCalls files calls).isLoaded = true → ∀ order path code,
    ∃ e, e.group = .state ∧ serve files (afterCalls files calls) (.load order path code) =
      (.error e, afterCalls files calls)
  /-- A call that fails changes no later answer. -/
  failed {call : Call} {e : CallError} (later : List Call) :
    (serve files (afterCalls files calls) call).1 = .error e →
      (answersTo files (calls ++ call :: later)).eraseIdx calls.length =
        answersTo files (calls ++ later)
  /-- Without a model a load fails for the causes that there are, and for no others. -/
  load_fails_iff : (afterCalls files calls).isLoaded = false → ∀ order path code e,
    (serve files (afterCalls files calls) (.load order path code)).1 = .error e ↔
      LoadFails files order path code e
  /-- A load with an unknown family or an order below 1 fails for that, whatever the file. -/
  arguments_first {order : Int} {path : String} {code : Int} {e : CallError} :
    LoadFails files order path code e →
      e.group = if Family.ofCode? code = none ∨ order < 1 then .argument else .file

/-! ## Single calls -/

variable {files : Files} {r : Registry} {calls : List Call}

/-- A refused load belongs to the arguments if they are at fault, whatever the file. -/
theorem LoadFails.group_eq {order : Int} {path : String} {code : Int} {e : CallError}
    (h : LoadFails files order path code e) :
    e.group = if Family.ofCode? code = none ∨ order < 1 then .argument else .file := by
  cases h with
  | unknownFamily hfamily => rw [if_pos (.inl hfamily)]; rfl
  | invalidOrder _ horder => rw [if_pos (.inr horder)]; rfl
  | emptyPath hfamily horder _ | unreadableFile hfamily horder _ _
  | unparsable hfamily horder _ _ _ =>
    rw [if_neg (by simp [hfamily, horder])]
    rfl

/-- A model cannot be read when its path is empty, its file cannot be read, or what the file holds
is no model of the family. -/
theorem read_eq_error_iff {family : Family} {order : Nat} {path : String} {cause : LoadError} :
    read files family order path = .error cause ↔
      (path = "" ∧ cause = .file .emptyName) ∨
      (path ≠ "" ∧ ∃ fault, files.read path = .error fault ∧ cause = .file fault) ∨
      (path ≠ "" ∧ ∃ bytes, files.read path = .ok bytes ∧
        LoadedModel.ofBytes family (min order orderLimit) bytes = .error cause) := by
  rw [read]
  by_cases hpath : path = ""
  · simp [hpath, eq_comm (a := cause)]
  · rw [if_neg (by simpa using hpath), bind_eq_error]
    simp only [Files.load, mapError_eq_error, mapError_eq_ok, hpath, false_and, ne_eq,
      not_false_eq_true, true_and, false_or, eq_comm (a := cause)]

/-- A model is fetched unless one of the causes is there for which a load fails. -/
theorem fetch_eq_error_iff {order : Int} {path : String} {code : Int} {e : CallError} :
    fetch files order path code = .error e ↔ LoadFails files order path code e := by
  rw [fetch]
  constructor
  · intro h
    cases hfamily : Family.ofCode? code with
    | none =>
      rw [hfamily] at h
      cases h
      exact .unknownFamily hfamily
    | some family =>
      rw [hfamily] at h
      by_cases horder : order < 1
      · cases (if_pos horder).symm.trans h
        exact .invalidOrder hfamily horder
      have hpositive := Int.not_lt.1 horder
      obtain ⟨cause, hcause, rfl⟩ := mapError_eq_error.1 ((if_neg horder).symm.trans h)
      rcases read_eq_error_iff.1 hcause with
        ⟨hpath, rfl⟩ | ⟨hpath, fault, hfault, rfl⟩ | ⟨hpath, bytes, hbytes, hcause⟩
      · exact .emptyPath hfamily hpositive hpath
      · exact .unreadableFile hfamily hpositive hpath hfault
      · exact .unparsable hfamily hpositive hpath hbytes hcause
  · -- The three causes in the file are those for which reading fails.
    have hunread {family : Family} {cause : LoadError} (hfamily : Family.ofCode? code = some family)
        (horder : 1 ≤ order) (h : read files family order.toNat path = .error cause) :
        fetch files order path code = .error (.unreadable path cause) := by
      rw [fetch, hfamily]
      exact (if_neg (Int.not_lt.2 horder)).trans (by rw [h]; rfl)
    intro h
    cases h with
    | unknownFamily hfamily => rw [hfamily]
    | invalidOrder hfamily horder => rw [hfamily]; exact if_pos horder
    | emptyPath hfamily horder hpath =>
      exact hunread hfamily horder (read_eq_error_iff.2 (.inl ⟨hpath, rfl⟩))
    | unreadableFile hfamily horder hpath hfault =>
      exact hunread hfamily horder (read_eq_error_iff.2 (.inr (.inl ⟨hpath, _, hfault, rfl⟩)))
    | unparsable hfamily horder hpath hbytes hcause =>
      exact hunread hfamily horder (read_eq_error_iff.2 (.inr (.inr ⟨hpath, _, hbytes, hcause⟩)))

/-- A model that is fetched was read. -/
theorem exists_read_of_fetch {model : LoadedModel} {order : Int} {path : String} {code : Int}
    (h : fetch files order path code = .ok model) :
    ∃ family, Family.ofCode? code = some family ∧
      read files family order.toNat path = .ok model := by
  rw [fetch] at h
  cases hfamily : Family.ofCode? code with
  | none =>
    rw [hfamily] at h
    cases h
  | some family =>
    rw [hfamily, ite_error_eq_ok] at h
    exact ⟨family, rfl, mapError_eq_ok.1 h.2⟩

/-- A registry with a model refuses another load. -/
theorem run_load_of_loaded {model : LoadedModel} (hr : r.loaded = some model) (order : Int)
    (path : String) (code : Int) :
    (load files order path code).run.run r = (.error .alreadyLoaded, r) := by
  rw [load, Action.run_bind_ok Action.run_get, isLoaded, hr]
  rfl

/-- A registry without one gets the model that is fetched. -/
theorem run_load_of_fetch_ok (hr : r.loaded = none) {order : Int} {path : String} {code : Int}
    {model : LoadedModel} (h : fetch files order path code = .ok model) :
    (load files order path code).run.run r = (.ok (), ⟨some model⟩) := by
  rw [load, Action.run_bind_ok Action.run_get, isLoaded, hr, h]
  rfl

/-- It stays as it was if none is. -/
theorem run_load_of_fetch_error (hr : r.loaded = none) {order : Int} {path : String} {code : Int}
    {e : CallError} (h : fetch files order path code = .error e) :
    (load files order path code).run.run r = (.error e, r) := by
  rw [load, Action.run_bind_ok Action.run_get, isLoaded, hr, h]
  rfl

/-- There is no other way for a load to end. -/
theorem run_load_cases (files : Files) (r : Registry) (order : Int) (path : String) (code : Int) :
    (∃ model, r.loaded = some model ∧
      (load files order path code).run.run r = (.error .alreadyLoaded, r)) ∨
    (∃ e, r.loaded = none ∧ fetch files order path code = .error e ∧
      (load files order path code).run.run r = (.error e, r)) ∨
    (∃ model, r.loaded = none ∧ fetch files order path code = .ok model ∧
      (load files order path code).run.run r = (.ok (), ⟨some model⟩)) := by
  cases hr : r.loaded with
  | some model => exact .inl ⟨model, rfl, run_load_of_loaded hr order path code⟩
  | none =>
    cases hfetch : fetch files order path code with
    | error e => exact .inr (.inl ⟨e, rfl, rfl, run_load_of_fetch_error hr hfetch⟩)
    | ok model => exact .inr (.inr ⟨model, rfl, rfl, run_load_of_fetch_ok hr hfetch⟩)

/-- A model that is not fetched is not so because of a panic. -/
theorem LoadFails.ne_panicked {order : Int} {path : String} {code : Int} {e : CallError}
    (h : LoadFails files order path code e) (message : String) : e ≠ .panicked message := by
  cases h with
  | unknownFamily | invalidOrder | emptyPath | unreadableFile | unparsable => nofun

/-- A registry that does not load a model stays as it is. -/
theorem atomic_load (files : Files) (order : Int) (path : String) (code : Int) :
    Action.Atomic (load files order path code) := by
  intro r r' e h
  rcases run_load_cases files r order path code with
    ⟨model, -, hrun⟩ | ⟨e', -, hfetch, hrun⟩ | ⟨model, -, -, hrun⟩
  · cases hrun.symm.trans h
    exact ⟨rfl, fun _ => nofun⟩
  · cases hrun.symm.trans h
    exact ⟨rfl, (fetch_eq_error_iff.1 hfetch).ne_panicked⟩
  · cases hrun.symm.trans h

/-- A load fails when there is a model, and otherwise for the causes that there are. -/
theorem result_load_eq_error_iff {order : Int} {path : String} {code : Int} {e : CallError} :
    Action.result (load files order path code) r = .error e ↔
      (r.isLoaded = true ∧ e = .alreadyLoaded) ∨
        (r.isLoaded = false ∧ LoadFails files order path code e) := by
  rw [← fetch_eq_error_iff, isLoaded]
  rcases run_load_cases files r order path code with
    ⟨model, hmodel, hrun⟩ | ⟨e', hnone, hfetch, hrun⟩ | ⟨model, hnone, hfetch, hrun⟩
  · rw [Action.result_eq hrun]
    simp [hmodel, eq_comm, Except.map]
  · rw [Action.result_eq hrun]
    simp [hnone, hfetch, Except.map]
  · rw [Action.result_eq hrun]
    simp [hnone, hfetch, Except.map]

/-- A registry with a model refuses another load. -/
theorem serve_load_of_loaded {model : LoadedModel} (hr : r.loaded = some model) (order : Int)
    (path : String) (code : Int) :
    serve files r (.load order path code) = (.error .alreadyLoaded, r) := by
  rw [serve, run_load_of_loaded hr]
  rfl

/-- Without a model a load fails exactly for the causes that there are. -/
theorem serve_load_eq_error_iff (hr : r.loaded = none) {order : Int} {path : String} {code : Int}
    {e : CallError} :
    (serve files r (.load order path code)).1 = .error e ↔ LoadFails files order path code e := by
  rw [← fetch_eq_error_iff, serve]
  cases hfetch : fetch files order path code with
  | error e' =>
    rw [run_load_of_fetch_error hr hfetch, Except.error.injEq]
    exact Except.error.injEq e' e ▸ Iff.rfl
  | ok model =>
    rw [run_load_of_fetch_ok hr hfetch]
    exact iff_of_false nofun nofun

/-- A load that succeeds fills a registry without a model with the one that it read. -/
theorem exists_read_of_serve_load {order : Int} {path : String} {code : Int}
    (h : (serve files r (.load order path code)).1 = .ok none) :
    r.loaded = none ∧ ∃ family model, Family.ofCode? code = some family ∧
      read files family order.toNat path = .ok model ∧
      (serve files r (.load order path code)).2 = ⟨some model⟩ := by
  rw [serve] at h ⊢
  rcases run_load_cases files r order path code with
    ⟨model, -, hrun⟩ | ⟨e, -, -, hrun⟩ | ⟨model, hnone, hfetch, hrun⟩
  · rw [hrun] at h
    cases h
  · rw [hrun] at h
    cases h
  · obtain ⟨family, hfamily, hread⟩ := exists_read_of_fetch hfetch
    rw [hrun]
    exact ⟨hnone, family, model, hfamily, hread, rfl⟩

/-- A registry with a model scores with it. -/
theorem serve_score_of_loaded {model : LoadedModel} (hr : r.loaded = some model) (word : String)
    (context : List String) :
    serve files r (.score word context) = (scoreWith model word context, r) := by
  simp only [serve, score, hr, scoreWith, String.isEmpty_iff]
  by_cases hword : word = ""
  · rw [if_pos hword, if_pos hword]
    rfl
  · rw [if_neg hword, if_neg hword]
    cases context.findIdx? String.isEmpty with
    | none | some => rfl

/-- A call that fails leaves the registry as it is. -/
theorem serve_of_error {call : Call} {e : CallError} (h : (serve files r call).1 = .error e) :
    (serve files r call).2 = r := by
  cases call with
  | score => rfl
  | teardown => cases h
  | load order path code =>
    rw [serve] at h ⊢
    rcases run_load_cases files r order path code with
      ⟨model, -, hrun⟩ | ⟨e, -, -, hrun⟩ | ⟨model, -, -, hrun⟩
    · rw [hrun]
    · rw [hrun]
    · rw [hrun] at h
      cases h

/-- Nothing but a teardown takes a model away. -/
theorem serve_of_loaded {model : LoadedModel} (hr : r.loaded = some model) {call : Call}
    (hcall : call ≠ .teardown) : (serve files r call).2 = r := by
  cases call with
  | load order path code => rw [serve_load_of_loaded hr]
  | score => rfl
  | teardown => exact absurd rfl hcall

/-! ## Runs -/

/-- A model stays as long as there is no teardown. -/
theorem stateAfter_of_loaded {model : LoadedModel} (hr : r.loaded = some model)
    (hcalls : .teardown ∉ calls) : Run.stateAfter (serve files) r calls = r := by
  refine Run.stateAfter_invariant (serve files) (· = r) ?_ rfl
  rintro _ call hcall rfl
  exact serve_of_loaded hr (ne_of_mem_of_not_mem hcall hcalls)

/-- The registry then has the model that the load read. -/
theorem LoadedAt.exists_read {place : Nat} {order : Int} {path : String} {code : Int}
    (h : LoadedAt files calls place order path code) :
    (afterCalls files (calls.take place)).loaded = none ∧
      ∃ family model, Family.ofCode? code = some family ∧
        read files family order.toNat path = .ok model ∧
        afterCalls files calls = ⟨some model⟩ := by
  have hsucceeded := h.succeeded
  rw [answersTo, Run.getElem?_answers, h.call, Option.map_some, Option.some.injEq] at hsucceeded
  change (serve files (afterCalls files (calls.take place)) _).1 = _ at hsucceeded
  obtain ⟨hplace, hcall⟩ := List.getElem?_eq_some_iff.1 h.call
  have hsplit : calls.take place ++ .load order path code :: calls.drop (place + 1) = calls := by
    rw [← hcall, List.getElem_cons_drop hplace, List.take_append_drop]
  obtain ⟨hnone, family, model, hfamily, hread, hserve⟩ := exists_read_of_serve_load hsucceeded
  refine ⟨hnone, family, model, hfamily, hread, ?_⟩
  calc afterCalls files calls
      = afterCalls files
          (calls.take place ++ .load order path code :: calls.drop (place + 1)) := by
        rw [hsplit]
    _ = Run.stateAfter (serve files) ⟨some model⟩ (calls.drop (place + 1)) := by
        rw [afterCalls, Run.stateAfter_append, Run.stateAfter_cons]
        exact congrArg (Run.stateAfter (serve files) · (calls.drop (place + 1))) hserve
    _ = ⟨some model⟩ := stateAfter_of_loaded rfl h.since

/-- A later call leaves the load where it is, unless it is a teardown. -/
theorem LoadedAt.concat {place : Nat} {order : Int} {path : String} {code : Int}
    (h : LoadedAt files calls place order path code) {call : Call} (hcall : call ≠ .teardown) :
    LoadedAt files (calls ++ [call]) place order path code := by
  obtain ⟨hplace, -⟩ := List.getElem?_eq_some_iff.1 h.call
  refine ⟨?_, ?_, ?_⟩
  · rw [List.getElem?_append_left hplace, h.call]
  · have hanswered : place < (answersTo files calls).length := by
      rw [answersTo, Run.length_answers]
      exact hplace
    rw [answersTo, Run.answers_append]
    exact (List.getElem?_append_left hanswered).trans h.succeeded
  · rw [List.drop_append_of_le_length hplace, List.mem_append, List.mem_singleton]
    exact not_or.2 ⟨h.since, Ne.symm hcall⟩

/-- Among the first calls the load is where it is among all. -/
theorem LoadedAt.take {place : Nat} {order : Int} {path : String} {code : Int}
    (h : LoadedAt files calls place order path code) {count : Nat} (hcount : place < count) :
    LoadedAt files (calls.take count) place order path code := by
  have hanswers : (answersTo files (calls.take count))[place]? =
      (answersTo files calls)[place]? := by
    rw [answersTo, answersTo, Run.getElem?_answers, Run.getElem?_answers,
      List.getElem?_take_of_lt hcount, List.take_take, Nat.min_eq_left (Nat.le_of_lt hcount)]
  refine ⟨?_, hanswers.trans h.succeeded, fun hmem => ?_⟩
  · rw [List.getElem?_take_of_lt hcount, h.call]
  · rw [List.drop_take] at hmem
    exact h.since (List.mem_of_mem_take hmem)

/-- A registry with a model owes it to a load since the last teardown. -/
theorem exists_loadedAt (h : (afterCalls files calls).isLoaded = true) :
    ∃ place order path code, LoadedAt files calls place order path code := by
  induction calls using List.reverseRecOn with
  | nil => cases h
  | append_singleton calls call ih =>
    rw [afterCalls, Run.stateAfter_concat] at h
    change (serve files (afterCalls files calls) call).2.isLoaded = true at h
    by_cases hteardown : call = .teardown
    · subst hteardown
      cases h
    cases hloaded : (afterCalls files calls).loaded with
    | some model =>
      -- The model was there before, and the load that it is owed to is the same.
      obtain ⟨place, order, path, code, hat⟩ := ih (by rw [isLoaded, hloaded]; rfl)
      exact ⟨place, order, path, code, hat.concat hteardown⟩
    | none =>
      cases call with
      | teardown => exact absurd rfl hteardown
      | score word context =>
        change (afterCalls files calls).isLoaded = true at h
        rw [isLoaded, hloaded] at h
        cases h
      | load order path code =>
        have hlast : (calls ++ [Call.load order path code])[calls.length]? =
            some (.load order path code) := List.getElem?_concat_length
        rw [serve] at h
        rcases run_load_cases files (afterCalls files calls) order path code with
          ⟨model, hsome, -⟩ | ⟨e, -, -, hrun⟩ | ⟨model, -, -, hrun⟩
        · cases hloaded.symm.trans hsome
        · rw [hrun] at h
          change (afterCalls files calls).isLoaded = true at h
          rw [isLoaded, hloaded] at h
          cases h
        · refine ⟨calls.length, order, path, code, hlast, ?_, ?_⟩
          · rw [answersTo, Run.getElem?_answers, hlast, List.take_left]
            change some (serve files (afterCalls files calls) _).1 = _
            rw [serve, hrun]
            rfl
          · rw [← List.length_concat (a := Call.load order path code), List.concat_eq_append,
              List.drop_length]
            exact List.not_mem_nil

/-- No load after the one that the model is owed to succeeds. -/
theorem LoadedAt.not_lt {place place' : Nat} {order order' : Int} {path path' : String}
    {code code' : Int} (h : LoadedAt files calls place order path code)
    (h' : LoadedAt files calls place' order' path' code') : ¬ place < place' := by
  intro hlt
  obtain ⟨-, family, model, -, -, hloaded⟩ := (h.take hlt).exists_read
  obtain ⟨hnone, -⟩ := h'.exists_read
  rw [hloaded] at hnone
  cases hnone

/-- The life cycle of a registry: after any calls with the same files, there is a model exactly when
some load succeeded after the last teardown; every score is answered with the model that this one
load read; another load is refused out of turn; a load or a score that fails changes no later
answer; and without a model a load fails for its arguments before it fails for the file. -/
theorem lifecycle (files : Files) (calls : List Call) : Lifecycle files calls where
  isLoaded_iff := by
    constructor
    · exact exists_loadedAt
    · rintro ⟨place, order, path, code, hat⟩
      obtain ⟨-, family, model, -, -, hloaded⟩ := hat.exists_read
      rw [hloaded]
      rfl
  single h h' := Nat.le_antisymm (Nat.not_lt.1 (h'.not_lt h)) (Nat.not_lt.1 (h.not_lt h'))
  scores h := by
    obtain ⟨-, family, model, hfamily, hread, hloaded⟩ := h.exists_read
    refine ⟨family, model, hfamily, hread, fun word context => ?_⟩
    exact serve_score_of_loaded (by rw [hloaded]) word context
  second_load h order path code := by
    obtain ⟨model, hmodel⟩ := Option.isSome_iff_exists.1 h
    exact ⟨.alreadyLoaded, rfl, serve_load_of_loaded hmodel order path code⟩
  failed later h := Run.answers_eraseIdx (serve files) empty (serve_of_error h) later
  load_fails_iff h order path code e := by
    have hnone : (afterCalls files calls).loaded = none := by
      rw [← Option.not_isSome_iff_eq_none]
      exact Bool.not_eq_true _ ▸ h
    exact serve_load_eq_error_iff hnone
  arguments_first h := h.group_eq

/-- Counts are loaded at the second attempt, since the first asks for order 0, and stay after a
third that asks for a model of the other family. -/
theorem lifecycle_counts :
    let files : Files := ⟨fun _ => .ok (Text.Utf8.encode "a 1\n".toList)⟩
    let calls : List Call := [.load 0 "m" 1, .load 2 "m" 1, .load 2 "m" 0]
    LoadedAt files calls 1 2 "m" 1 ∧ (afterCalls files calls).isLoaded = true := by
  intro files calls
  have hat : LoadedAt files calls 1 2 "m" 1 := ⟨rfl, rfl, by decide⟩
  exact ⟨hat, (lifecycle files calls).isLoaded_iff.2 ⟨1, 2, "m", 1, hat⟩⟩

end BackoffLM.Registry
