import BackoffLM.Proofs.Registry.Lifecycle
import BackoffLM.Proofs.Scoring.Registration
import BackoffLM.Proofs.Session.Arguments

/-!
# What a call does to its session

A call adds a model, puts another in place of one, releases one, changes the registry, or does none
of these (`Effect`). Which of them, and what it writes, is its outcome (`Call.outcome`): it depends
on the model under the handle that the call names if it names one, and on the registry if it is a
call on that, but on nothing else that the session has.

A call works step by step, and nothing is undone when a step fails. `run_attempt` says that each
call nevertheless comes to its outcome and does nothing more: what failed wrote nothing and left the
session as it was, with all locks, and every other call changed what its effect says. There is one
such law for each call (`run_construct` and those after it), and a step that may fail after it took
the lock of a model or of the registry leaves what is behind the lock as it was (`run_changeModel`,
`run_withRegistry`).
-/

namespace BackoffLM

/-! ## Effects -/

/-- What becomes of a session. -/
inductive Effect where
  | keep
  /-- There is a new model. -/
  | add (scorer : Scorer)
  /-- Under the handle of the call there is another model. -/
  | put (scorer : Scorer)
  /-- Under the handle of the call there is no model. -/
  | release
  | install (registry : Registry)

/-- The session after a call with a handle. -/
def Effect.apply (s : Session) (handle : Handle) : Effect → Session
  | .keep => s
  | .add scorer => s.add scorer
  | .put scorer => if handle ∈ s.scorers then s.put handle (.sound scorer) else s
  | .release => s.release handle
  | .install registry => { s with registry := .sound registry }

/-- What is written, with the handle `handle` if it is one. -/
def Written.withHandle (handle : Handle) : Written → Written
  | .handle _ => .handle handle
  | written => written

/-- The call under another handle, if it names one. -/
def Call.withHandle (handle : Handle) : Call → Call
  | .destroy _ => .destroy handle
  | .order _ => .order handle
  | .register _ word id out => .register handle word id out
  | .prob _ ids out => .prob handle ids out
  | .probString _ ids start out => .probString handle ids start out
  | call => call

/-- The handle that a call names, 0 if it names none. -/
def Call.handle : Call → Handle
  | .destroy handle | .order handle | .register handle _ _ _ | .prob handle _ _
  | .probString handle _ _ _ => handle
  | .construct _ _ _ | .load _ _ _ | .score _ _ _ | .finalize => 0

/-- Whether a call is on the registry. -/
def Call.onRegistry : Call → Bool
  | .load _ _ _ | .score _ _ _ | .finalize => true
  | .construct _ _ _ | .destroy _ | .order _ | .register _ _ _ _ | .prob _ _ _
  | .probString _ _ _ _ => false

/-- The model that a call finds under its handle. -/
def foundModel : Option (Locked Scorer) → Except CallError (Locked Scorer)
  | some model => .ok model
  | none => .error .nullHandle

/-- What a call writes and does, with the model under its handle and the registry. The handle of a
new model is left open. -/
def Call.outcome (files : Files) (memory : Memory) (oov : OovScoring)
    (model : Option (Locked Scorer)) (registry : Locked Registry) :
    Call → Except CallError (Written × Effect)
  | .construct path fakeCost _ => do
    let scorer ← Scorer.ofFile files (path.read.getD "") { oov with fakeCost }
    .ok (.handle 0, .add scorer)
  | .destroy _ => .ok (.nothing, .release)
  | .order _ => do
    let model ← foundModel model
    let scorer ← model.read .modelPoisoned
    .ok (.order scorer.model.order, .keep)
  | .register _ word id _ => do
    let model ← foundModel model
    let scorer ← model.read .modelPoisoned
    let (known, scorer) ← Action.result (Scorer.register (word.read.getD "") id memory) scorer
    .ok (.known known, .put scorer)
  | .prob _ ids _ => do
    let model ← foundModel model
    let ids ← readIds ids
    let scorer ← model.read .modelPoisoned
    .ok (.prob (scorer.prob ids), .keep)
  | .probString _ ids start _ => do
    let model ← foundModel model
    let ids ← readIds ids
    if start < 0 then .error (.negativeStart start)
    else
      let scorer ← model.read .modelPoisoned
      .ok (.prob (scorer.probString ids start.toNat), .keep)
  | .load highest path family => do
    let registry ← registry.read .registryPoisoned
    let (_, registry) ←
      Action.result (Registry.load files highest (path.read.getD "") family) registry
    .ok (.nothing, .install registry)
  | .score word context _ => do
    let registry ← registry.read .registryPoisoned
    let prob ← registry.scoreForeign word context
    .ok (.prob prob, .keep)
  | .finalize => do
    let registry ← registry.read .registryPoisoned
    .ok (.nothing, .install registry.teardown)

/-- The settings after a call: loading a model reads them, which fixes them even if it fails. -/
def Call.settingsAfter (settings : Settings.Cell) : Call → Settings.Cell
  | .construct _ _ _ => settings.read.2
  | _ => settings

/-- What a call that is not declined tries to do. -/
def Call.attempt (files : Files) (memory : Memory) : Call → Action Scene Unit
  | .construct path fakeCost _ => Scene.construct files (path.read.getD "") fakeCost
  | .destroy handle => modify fun scene => { scene with session := scene.session.release handle }
  | .order handle => Scene.order handle
  | .register handle word id _ => Scene.register handle (word.read.getD "") id memory
  | .prob handle ids _ => Scene.prob handle ids
  | .probString handle ids start _ => Scene.probString handle ids start
  | .load highest path family => Scene.load files highest path family
  | .score word context _ => Scene.score word context
  | .finalize => Scene.finalize

/-! ## Sessions -/

namespace Session

variable {s : Session} {handle : Handle} {model : Locked Scorer}

/-- Putting back the model that is there changes nothing. -/
theorem put_self (h : s.scorers[handle]? = some model) : s.put handle model = s := by
  have hscorers : s.scorers.insert handle model = s.scorers := by
    apply Std.ExtHashMap.ext_getElem?
    intro other
    rw [Std.ExtHashMap.getElem?_insert]
    split
    · rename_i hother
      rw [← beq_iff_eq.1 hother, h]
    · rfl
  rw [put, hscorers]

theorem mem_scorers (h : s.scorers[handle]? = some model) : handle ∈ s.scorers := by
  rw [Std.ExtHashMap.mem_iff_isSome_getElem?, h]
  rfl

end Session

/-! ## Steps of a call -/

namespace Scene

open BackoffLM.Action (Atomic ended run_bind_ended run_bind_error run_bind_ok run_get run_lift
  run_within_ended)

variable {α : Type} {scene : Scene} {handle : Handle} {files : Files} {memory : Memory}
  {oov : OovScoring} {model : Option (Locked Scorer)} {registry : Locked Registry}

/-- The scene after a call with a handle. -/
def apply (scene : Scene) (handle : Handle) (done : Written × Effect) : Scene where
  session := done.2.apply scene.session handle
  settings := scene.settings
  written := done.1.withHandle scene.session.nextHandle

/-- The end of a call that came to an outcome and did nothing more. -/
def conclude (scene : Scene) (handle : Handle) (outcome : Except CallError (Written × Effect)) :
    Except CallError Unit × Scene :=
  ended scene (outcome.map fun done => ((), scene.apply handle done))

theorem run_modelAt (scene : Scene) (handle : Handle) :
    (modelAt handle).run.run scene = (foundModel scene.session.scorers[handle]?, scene) := by
  rw [modelAt, run_bind_ok run_get]
  cases scene.session.scorers[handle]? with
  | none | some => rfl

theorem foundModel_eq_ok_iff {found : Locked Scorer} :
    foundModel model = .ok found ↔ model = some found := by
  cases model with
  | none => exact iff_of_false nofun nofun
  | some other => rw [foundModel, Except.ok.injEq, Option.some.injEq]

theorem foundModel_eq_error_iff {e : CallError} :
    foundModel model = .error e ↔ model = none ∧ e = .nullHandle := by
  cases model with
  | none => rw [foundModel, Except.error.injEq, eq_comm, eq_self, true_and]
  | some other => exact iff_of_false nofun nofun

/-- A change of a model that may fail leaves the model and its lock as they are if it does. -/
theorem run_changeModel {body : Action Scorer α} (h : Atomic body) (scene : Scene)
    (handle : Handle) :
    (changeModel handle body).run.run scene = ended scene
      (foundModel scene.session.scorers[handle]? >>= fun model =>
        (Locked.outcome .modelPoisoned body model).map fun done =>
          (done.1, { scene with session := scene.session.put handle done.2 })) := by
  refine run_bind_ended (run_modelAt scene handle) fun {model} hmodel => ?_
  refine run_within_ended ?_ (Locked.run_change_ended h model)
  rw [Session.put_self (foundModel_eq_ok_iff.1 hmodel)]

/-- So does work on the registry. -/
theorem run_withRegistry {body : Action Registry α} (h : Atomic body) (scene : Scene) :
    (withRegistry body).run.run scene = ended scene
      ((Locked.outcome .registryPoisoned body scene.session.registry).map fun done =>
        (done.1, { scene with session.registry := done.2 })) :=
  run_within_ended rfl (Locked.run_change_ended h scene.session.registry)

/-! ## Calls -/

/-- After a step that changes nothing the others decide on the end of a call. -/
theorem run_bind_conclude {x : Action Scene α} {f : α → Action Scene Unit}
    {outcome : Except CallError α} {g : α → Except CallError (Written × Effect)}
    (hx : x.run.run scene = (outcome, scene))
    (hf : ∀ {a}, outcome = .ok a → (f a).run.run scene = scene.conclude handle (g a)) :
    (x >>= f).run.run scene = scene.conclude handle (outcome >>= g) := by
  rw [conclude, map_bind_eq]
  exact run_bind_ended hx hf

/-- What a step came to may be written at the end. -/
theorem run_bind_write {x : Action Scene α} {outcome : Except CallError (α × Scene)}
    (hx : x.run.run scene = ended scene outcome) (written : α → Written) :
    (x >>= fun a => write (written a)).run.run scene =
      ended scene (outcome.map fun done => ((), { done.2 with written := written done.1 })) := by
  cases outcome with
  | error e => exact run_bind_error hx
  | ok done => exact run_bind_ok hx

/-- A call that only changes the registry comes to what its work on that comes to. -/
theorem run_withRegistry_conclude {body : Action Registry Unit} (h : Atomic body)
    (hwritten : scene.written = .nothing) (handle : Handle) :
    (withRegistry body).run.run scene = scene.conclude handle (do
      let registry ← scene.session.registry.read .registryPoisoned
      let (_, registry) ← body.result registry
      .ok (.nothing, .install registry)) := by
  refine (run_withRegistry h scene).trans ?_
  obtain ⟨⟨scorers, next, ⟨r, poisoned⟩, message⟩, settings, written⟩ := scene
  obtain rfl : written = .nothing := hwritten
  cases poisoned with
  | true => rfl
  | false =>
    show ended _ (((body.result r).map _).map _) = ended _ ((body.result r >>= _).map _)
    cases body.result r with
    | error | ok => rfl

/-- Loading a model reads the settings first, and does no more unless there is a model. -/
theorem run_construct (scene : Scene) (handle : Handle) (files : Files) (path : ForeignText)
    (fakeCost : LogProb) (out : Bool) :
    (construct files (path.read.getD "") fakeCost).run.run scene =
      { scene with settings := scene.settings.read.2 }.conclude handle
        ((Call.construct path fakeCost out).outcome files memory scene.settings.value.oov model
          registry) := by
  have hread : (oovInForce fakeCost).run.run scene =
      (.ok { scene.settings.value.oov with fakeCost },
        { scene with settings := scene.settings.read.2 }) := rfl
  rw [construct, run_bind_ok hread]
  exact run_bind_conclude (run_lift _) fun _ => rfl

theorem run_order (scene : Scene) (handle : Handle) :
    (order handle).run.run scene = scene.conclude handle ((Call.order handle).outcome files memory
      oov scene.session.scorers[handle]? registry) :=
  run_bind_conclude (run_modelAt scene handle) fun _ => run_bind_conclude (run_lift _) fun _ => rfl

theorem run_prob (scene : Scene) (handle : Handle) (ids : ForeignArray ExternalId) (out : Bool) :
    (prob handle ids).run.run scene = scene.conclude handle ((Call.prob handle ids out).outcome
      files memory oov scene.session.scorers[handle]? registry) :=
  run_bind_conclude (run_modelAt scene handle) fun _ => run_bind_conclude (run_lift _) fun _ =>
    run_bind_conclude (run_lift _) fun _ => rfl

theorem run_probString (scene : Scene) (handle : Handle) (ids : ForeignArray ExternalId)
    (start : Int) (out : Bool) :
    (probString handle ids start).run.run scene = scene.conclude handle
      ((Call.probString handle ids start out).outcome files memory oov
        scene.session.scorers[handle]? registry) := by
  refine run_bind_conclude (run_modelAt scene handle) fun _ =>
    run_bind_conclude (run_lift _) fun _ => ?_
  by_cases hstart : start < 0
  · rw [if_pos hstart, if_pos hstart]
    rfl
  · rw [if_neg hstart, if_neg hstart]
    exact run_bind_conclude (run_lift _) fun _ => rfl

/-- A word is registered, or the table of numbers stays what it is, and the lock of the model is not
poisoned. -/
theorem run_register (scene : Scene) (handle : Handle) (word : ForeignText) (id : ExternalId)
    (memory : Memory) (out : Bool) :
    (register handle (word.read.getD "") id memory).run.run scene = scene.conclude handle
      ((Call.register handle word id out).outcome files memory oov
        scene.session.scorers[handle]? registry) := by
  have hchange :=
    run_changeModel (Scorer.atomic_register (word.read.getD "") id memory) scene handle
  refine (run_bind_write hchange _).trans ?_
  cases hmodel : scene.session.scorers[handle]? with
  | none => rfl
  | some model =>
    obtain ⟨scorer, poisoned⟩ := model
    cases poisoned with
    | true => rfl
    | false =>
      show ended scene ((((Action.result _ scorer).map _).map _).map _) =
        ended scene ((Action.result _ scorer >>= _).map _)
      generalize Action.result _ scorer = outcome
      cases outcome with
      | error e => rfl
      | ok done =>
        show _ = (_, { scene with session := Effect.apply _ _ (.put done.2), written := _ })
        rw [Effect.apply, if_pos (Session.mem_scorers hmodel)]
        rfl

/-- A model is loaded into the registry, or that stays as it is, and its lock is not poisoned. -/
theorem run_load (hwritten : scene.written = .nothing) (handle : Handle) (files : Files)
    (highest : Int) (path : ForeignText) (family : Int) :
    (load files highest path family).run.run scene = scene.conclude handle
      ((Call.load highest path family).outcome files memory oov model
        scene.session.registry) :=
  run_withRegistry_conclude (Registry.atomic_load files highest (path.read.getD "") family)
    hwritten handle

/-- A word is scored with the registry, which stays as it is, as its lock does. -/
theorem run_score (scene : Scene) (handle : Handle) (word : ForeignText)
    (context : ForeignArray ForeignText) (out : Bool) :
    (score word context).run.run scene = scene.conclude handle
      ((Call.score word context out).outcome files memory oov model scene.session.registry) := by
  have hscore := run_withRegistry (Registry.atomic_scoreForeign word context) scene
  refine (run_bind_write hscore _).trans ?_
  obtain ⟨⟨scorers, next, ⟨r, poisoned⟩, message⟩, settings, written⟩ := scene
  cases poisoned with
  | true => rfl
  | false =>
    show ended _ ((((Action.result _ r).map _).map _).map _) =
      ended _ ((r.scoreForeign word context >>= _).map _)
    rw [Action.result, Action.run_read]
    cases r.scoreForeign word context with
    | error | ok => rfl

theorem run_finalize (hwritten : scene.written = .nothing) (handle : Handle) :
    finalize.run.run scene = scene.conclude handle
      (Call.finalize.outcome files memory oov model scene.session.registry) := by
  have hatomic : Atomic (modify Registry.teardown : Action Registry PUnit) :=
    fun _ _ _ h => nomatch (Prod.mk.inj h).1
  exact run_withRegistry_conclude hatomic hwritten handle

/-- Each call comes to its outcome under the handle that it names, and does nothing more. -/
theorem run_attempt (hwritten : scene.written = .nothing) {call : Call}
    (hnames : call.withHandle handle = call) :
    (call.attempt files memory).run.run scene =
      { scene with settings := call.settingsAfter scene.settings }.conclude handle
        (call.outcome files memory scene.settings.value.oov scene.session.scorers[handle]?
          scene.session.registry) := by
  cases call with
  | construct path fakeCost out => exact run_construct scene handle files path fakeCost out
  | destroy =>
    cases hnames
    obtain ⟨session, settings, written⟩ := scene
    obtain rfl : written = .nothing := hwritten
    rfl
  | order =>
    cases hnames
    exact run_order scene handle
  | register _ word id out =>
    cases hnames
    exact run_register scene handle word id memory out
  | prob _ ids out =>
    cases hnames
    exact run_prob scene handle ids out
  | probString _ ids start out =>
    cases hnames
    exact run_probString scene handle ids start out
  | load highest path family => exact run_load hwritten handle files highest path family
  | score word context out => exact run_score scene handle word context out
  | finalize => exact run_finalize hwritten handle

end Scene

end BackoffLM
