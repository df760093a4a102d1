import BackoffLM.Proofs.Session.Effects

/-!
# Processes and their calls

A `Process` is a session with the settings that its calls may read, and serves requests one after
another. A request brings the files and the memory that its call finds. The proofs about sessions
go by `serve_cases`: a call releases a model, or is declined for want of its text or its place for a
result, or is made and comes to its outcome, with which the session ends it (`Session.finish`).

No lock is ever poisoned (`locksSound_serveAll`): what a call does behind a lock does not panic.
-/

namespace BackoffLM

namespace Call

/-- Whether a call brings the text and the place for a result that it needs. -/
def isComplete : Call → Bool
  | .construct text _ out | .register _ text _ out => text.read.isSome && out
  | .prob _ _ out | .probString _ _ _ out | .score _ _ out => out
  | .destroy _ | .order _ | .load _ _ _ | .finalize => true

theorem withHandle_handle (call : Call) : call.withHandle call.handle = call := by
  cases call with
  | construct | destroy | order | register | prob | probString | load | score | finalize => rfl

theorem withHandle_withHandle (call : Call) (first second : Handle) :
    (call.withHandle first).withHandle second = call.withHandle second := by
  cases call with
  | construct | destroy | order | register | prob | probString | load | score | finalize => rfl

theorem isComplete_withHandle (call : Call) (handle : Handle) :
    (call.withHandle handle).isComplete = call.isComplete := by
  cases call with
  | construct | destroy | order | register | prob | probString | load | score | finalize => rfl

/-- What a call comes to depends on what is under its handle, but not on the handle itself. -/
theorem outcome_withHandle (call : Call) (handle : Handle) (files : Files) (memory : Memory)
    (oov : OovScoring) (model : Option (Locked Scorer)) (registry : Locked Registry) :
    (call.withHandle handle).outcome files memory oov model registry =
      call.outcome files memory oov model registry := by
  cases call with
  | construct | destroy | order | register | prob | probString | load | score | finalize => rfl

end Call

/-! ## Ends of calls -/

theorem Effect.apply_withMessage (effect : Effect) (s : Session) (message : Option String)
    (handle : Handle) :
    effect.apply (s.withMessage message) handle = (effect.apply s handle).withMessage message := by
  cases effect with
  | keep | add | release | install => rfl
  | put scorer =>
    rw [apply, apply, apply_ite (Session.withMessage · message)]
    rfl

namespace Session

variable {s : Session} {handle : Handle}

/-- The end of a call with a handle that came to an outcome. -/
def finish (s : Session) (handle : Handle) :
    Except CallError (Written × Effect) → Reply × Session
  | .ok (written, effect) =>
    (⟨.ok, written.withHandle s.nextHandle⟩, (effect.apply s handle).withMessage none)
  | .error e => (⟨.refused e.group, .nothing⟩, s.withMessage (some (foreignMessage e.message)))

variable {files : Files} {memory : Memory} {call : Call}

/-- A call that lacks its text or its place for a result changes nothing at all. -/
theorem serve_of_incomplete (s : Session) (h : call.isComplete = false) :
    s.serve files call memory = pure s.decline := by
  cases call with
  | destroy | order | load | finalize => cases h
  | prob _ _ out | probString _ _ _ out | score _ _ out =>
    obtain rfl : out = false := h
    rfl
  | construct text _ out | register _ text _ out =>
    cases hread : text.read with
    | none => simp only [serve, hread]
    | some read =>
      obtain rfl : out = false := by simpa [Call.isComplete, hread] using h
      simp only [serve, hread]

/-- Any other call that does not release a model is made. -/
theorem serve_eq_run (s : Session) (h : call.isComplete = true)
    (hkeeps : ∀ old, call ≠ .destroy old) :
    s.serve files call memory = s.run (call.attempt files memory) := by
  cases call with
  | destroy old => exact absurd rfl (hkeeps old)
  | order | load | finalize => rfl
  | prob _ _ out | probString _ _ _ out | score _ _ out =>
    obtain rfl : out = true := h
    rfl
  | construct text _ out | register _ text _ out =>
    obtain ⟨hsome, rfl⟩ : text.read.isSome = true ∧ out = true := by
      simpa [Call.isComplete] using h
    obtain ⟨read, hread⟩ := Option.isSome_iff_exists.1 hsome
    simp only [serve, Call.attempt, hread, Option.getD_some]

/-- It then comes to its outcome under the handle that it names, and the session ends it so. -/
theorem run_attempt (s : Session) (hnames : call.withHandle handle = call)
    (settings : Settings.Cell) :
    (s.run (call.attempt files memory)).run settings =
      (s.finish handle (call.outcome files memory settings.value.oov s.scorers[handle]? s.registry),
        call.settingsAfter settings) := by
  show s.run (call.attempt files memory) settings = _
  rw [run, Scene.run_attempt rfl hnames]
  show (match Scene.conclude ⟨s.withMessage none, call.settingsAfter settings, .nothing⟩ handle
    (call.outcome files memory settings.value.oov s.scorers[handle]? s.registry) with
    | (.ok (), scene) => _
    | (.error e, scene) => _) = _
  cases call.outcome files memory settings.value.oov s.scorers[handle]? s.registry with
  | error e => rfl
  | ok done =>
    rw [finish, ← Effect.apply_withMessage]
    rfl

end Session

/-! ## Processes -/

/-- A call with the files and the memory that it finds. -/
structure Request where
  files : Files
  memory : Memory
  call : Call

/-- A session and the settings of its process. -/
structure Process where
  session : Session
  settings : Settings.Cell

namespace Process

/-- No models, no failure, and settings that nobody gave or read. -/
def fresh : Process := ⟨.empty, .fresh⟩

/-- Serves a request. -/
def serve (p : Process) (r : Request) : Reply × Process :=
  let ((reply, session), settings) := (p.session.serve r.files r.call r.memory).run p.settings
  (reply, ⟨session, settings⟩)

/-- Serves requests one after another. -/
def serveAll (p : Process) : List Request → List Reply × Process
  | [] => ([], p)
  | r :: requests =>
    let (reply, p) := p.serve r
    let (replies, p) := p.serveAll requests
    (reply :: replies, p)

theorem serveAll_cons (p : Process) (r : Request) (requests : List Request) :
    p.serveAll (r :: requests) =
      ((p.serve r).1 :: ((p.serve r).2.serveAll requests).1, ((p.serve r).2.serveAll requests).2) :=
  rfl

/-- Requests are served in the process that those before them leave. -/
theorem serveAll_append (p : Process) (before after : List Request) :
    p.serveAll (before ++ after) =
      ((p.serveAll before).1 ++ ((p.serveAll before).2.serveAll after).1,
        ((p.serveAll before).2.serveAll after).2) := by
  induction before generalizing p with
  | nil => rfl
  | cons r before ih => rw [List.cons_append, serveAll_cons, ih, serveAll_cons, List.cons_append]

theorem length_serveAll (p : Process) (requests : List Request) :
    (p.serveAll requests).1.length = requests.length := by
  induction requests generalizing p with
  | nil => rfl
  | cons r requests ih => rw [serveAll_cons, List.length_cons, List.length_cons, ih]

variable {p : Process} {r : Request} {handle : Handle}

/-- What a request comes to under a handle. -/
def outcome (p : Process) (handle : Handle) (r : Request) : Except CallError (Written × Effect) :=
  r.call.outcome r.files r.memory p.settings.value.oov p.session.scorers[handle]? p.session.registry

/-- Serving a request that is made under a handle. -/
structure Concludes (p : Process) (handle : Handle) (r : Request) : Prop where
  reply : (p.serve r).1 = (p.session.finish handle (p.outcome handle r)).1
  session : (p.serve r).2.session = (p.session.finish handle (p.outcome handle r)).2
  /-- Reading the settings may fix their value, but does not change it. -/
  settings : (p.serve r).2.settings.value = p.settings.value

/-- A call that is declined changes nothing at all. -/
theorem serve_of_incomplete (h : r.call.isComplete = false) :
    p.serve r = (⟨.refused .argument, .nothing⟩, p) := by
  rw [serve, p.session.serve_of_incomplete h]
  rfl

/-- A call that is made ends with its outcome. -/
theorem concludes (h : r.call.isComplete = true) (hkeeps : ∀ old, r.call ≠ .destroy old)
    (hnames : r.call.withHandle handle = r.call) : p.Concludes handle r := by
  have hserve : p.serve r =
      ((p.session.finish handle (p.outcome handle r)).1,
        ⟨(p.session.finish handle (p.outcome handle r)).2, r.call.settingsAfter p.settings⟩) := by
    rw [serve, p.session.serve_eq_run h hkeeps, p.session.run_attempt hnames]
    rfl
  refine ⟨by rw [hserve], by rw [hserve], ?_⟩
  rw [hserve]
  cases r.call with
  | construct | destroy | order | register | prob | probString | load | score | finalize => rfl

/-- Releasing a model leaves all else as it is. -/
theorem serve_of_destroy (h : r.call = .destroy handle) :
    p.serve r = (⟨.ok, .nothing⟩, { p with session := p.session.release handle }) := by
  simp only [serve, h]
  rfl

/-- What serving a request can do. -/
theorem serve_cases (p : Process) (hnames : r.call.withHandle handle = r.call) :
    (r.call = .destroy handle ∧
      p.serve r = (⟨.ok, .nothing⟩, { p with session := p.session.release handle })) ∨
    (r.call.isComplete = false ∧ p.serve r = (⟨.refused .argument, .nothing⟩, p)) ∨
    (r.call.isComplete = true ∧ (∀ old, r.call ≠ .destroy old) ∧ p.Concludes handle r) := by
  by_cases hrelease : ∃ old, r.call = .destroy old
  · obtain ⟨old, hcall⟩ := hrelease
    rw [hcall] at hnames
    cases hnames
    exact .inl ⟨hcall, serve_of_destroy hcall⟩
  · have hkeeps : ∀ old, r.call ≠ .destroy old := fun old hcall => hrelease ⟨old, hcall⟩
    cases hcomplete : r.call.isComplete with
    | false => exact .inr (.inl ⟨rfl, serve_of_incomplete hcomplete⟩)
    | true => exact .inr (.inr ⟨rfl, hkeeps, concludes hcomplete hkeeps hnames⟩)

end Process

/-! ## Locks -/

/-- No lock of a session is poisoned. -/
structure Session.LocksSound (s : Session) : Prop where
  models {handle : Handle} {model : Locked Scorer} :
    s.scorers[handle]? = some model → model.poisoned = false
  registry : s.registry.poisoned = false

theorem Session.LocksSound.put {s : Session} (hs : s.LocksSound) (handle : Handle)
    (scorer : Scorer) : (s.put handle (.sound scorer)).LocksSound where
  models {other model} h := by
    change (s.scorers.insert handle (.sound scorer))[other]? = some model at h
    rw [Std.ExtHashMap.getElem?_insert] at h
    split at h
    · cases h
      rfl
    · exact hs.models h
  registry := hs.registry

theorem Session.LocksSound.release {s : Session} (hs : s.LocksSound) (handle : Handle) :
    (s.release handle).LocksSound where
  models {other model} h := by
    change (s.scorers.erase handle)[other]? = some model at h
    rw [Std.ExtHashMap.getElem?_erase] at h
    split at h
    · cases h
    · exact hs.models h
  registry := hs.registry

/-- No effect leaves a poisoned lock behind. -/
theorem Effect.locksSound_apply {s : Session} (hs : s.LocksSound) (effect : Effect)
    (handle : Handle) : (effect.apply s handle).LocksSound := by
  cases effect with
  | keep => exact hs
  | install registry => exact ⟨hs.models, rfl⟩
  | release => exact hs.release handle
  | add scorer =>
    have hput := hs.put s.nextHandle scorer
    exact ⟨hput.models, hput.registry⟩
  | put scorer =>
    rw [apply]
    split
    · exact hs.put handle scorer
    · exact hs

namespace Process

/-- A call poisons no lock. -/
theorem locksSound_serve {p : Process} (hp : p.session.LocksSound) (r : Request) :
    (p.serve r).2.session.LocksSound := by
  rcases p.serve_cases r.call.withHandle_handle with ⟨-, hserve⟩ | ⟨-, hserve⟩ | ⟨-, -, hserve⟩
  · rw [hserve]
    exact hp.release r.call.handle
  · rw [hserve]
    exact hp
  · rw [hserve.session]
    cases p.outcome r.call.handle r with
    | error e => exact ⟨hp.models, hp.registry⟩
    | ok done =>
      have hdone := Effect.locksSound_apply hp done.2 r.call.handle
      exact ⟨hdone.models, hdone.registry⟩

/-- So no process ever refuses a call because of a poisoned lock. -/
theorem locksSound_serveAll (settings : Settings.Cell) (requests : List Request) :
    ((⟨.empty, settings⟩ : Process).serveAll requests).2.session.LocksSound := by
  have hall (p : Process) (hp : p.session.LocksSound) :
      (p.serveAll requests).2.session.LocksSound := by
    induction requests generalizing p with
    | nil => exact hp
    | cons r requests ih => exact ih _ (locksSound_serve hp r)
  refine hall _ ⟨fun {handle model} h => ?_, rfl⟩
  change (∅ : Std.ExtHashMap Handle (Locked Scorer))[handle]? = some model at h
  rw [Std.ExtHashMap.getElem?_empty] at h
  cases h

end Process

end BackoffLM
