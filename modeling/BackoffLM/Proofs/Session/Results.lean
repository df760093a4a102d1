import BackoffLM.Proofs.Session.Process

/-!
# What a request gives and does

What a call replies and does to its session depends on little: on the model under the handle that it
names if it names one, and on the registry if it is a call on that. `Request.result` is worked out
from these two, and `Process.performs` says that every process comes to it, whatever else its
session has.
-/

namespace BackoffLM

/-- The request under another handle, if its call names one. -/
def Request.withHandle (handle : Handle) (r : Request) : Request :=
  { r with call := r.call.withHandle handle }

/-- The reply without the number of a handle. -/
def Reply.anonymous (reply : Reply) : Reply := { reply with written := reply.written.withHandle 0 }

namespace Effect

/-- The handle of a caller's model after a call with a handle. -/
def handleAfter (s : Session) (handle : Handle) : Effect → Handle
  | .add _ => s.nextHandle
  | .release => 0
  | .keep | .put _ | .install _ => handle

/-- A caller's model after a call, by the one before. -/
def model (found : Option (Locked Scorer)) : Effect → Option (Locked Scorer)
  | .keep | .install _ => found
  | .add scorer => some (.sound scorer)
  | .put scorer => found.map fun _ => .sound scorer
  | .release => none

/-- The registry after a call, by the one before. -/
def registry (before : Locked Registry) : Effect → Locked Registry
  | .install registry => .sound registry
  | .keep | .add _ | .put _ | .release => before

end Effect

/-- The handle of a caller's model after a call with a handle, by the reply. -/
def Call.handleAfter (call : Call) (reply : Reply) (handle : Handle) : Handle :=
  match call, reply.written with
  | .destroy _, _ => 0
  | _, .handle new => new
  | _, _ => handle

/-- What each call writes and does when it succeeds. -/
inductive Call.Does : Call → Written → Effect → Prop
  | construct (path : ForeignText) (fakeCost : LogProb) (out : Bool) (scorer : Scorer) :
    Does (.construct path fakeCost out) (.handle 0) (.add scorer)
  | destroy (handle : Handle) : Does (.destroy handle) .nothing .release
  | order (handle : Handle) (order : Nat) : Does (.order handle) (.order order) .keep
  | register (handle : Handle) (word : ForeignText) (id : ExternalId) (out known : Bool)
    (scorer : Scorer) : Does (.register handle word id out) (.known known) (.put scorer)
  | prob (handle : Handle) (ids : ForeignArray ExternalId) (out : Bool) (prob : LogProb) :
    Does (.prob handle ids out) (.prob prob) .keep
  | probString (handle : Handle) (ids : ForeignArray ExternalId) (start : Int) (out : Bool)
    (prob : LogProb) : Does (.probString handle ids start out) (.prob prob) .keep
  | load (order : Int) (path : ForeignText) (family : Int) (registry : Registry) :
    Does (.load order path family) .nothing (.install registry)
  | score (word : ForeignText) (context : ForeignArray ForeignText) (out : Bool) (prob : LogProb) :
    Does (.score word context out) (.prob prob) .keep
  | finalize (registry : Registry) : Does .finalize .nothing (.install registry)

/-- What a call has to do with in a session: the model under a handle, or the registry. -/
structure Session.Sees (s : Session) (handle : Handle) (call : Call)
    (model : Option (Locked Scorer)) (registry : Locked Registry) : Prop where
  model : call.onRegistry = false → s.scorers[handle]? = model
  registry : call.onRegistry = true → s.registry = registry

variable {files : Files} {memory : Memory} {oov : OovScoring} {call : Call}
  {model : Option (Locked Scorer)} {registry : Locked Registry} {s : Session} {handle : Handle}

/-- A call does what it is for. -/
theorem Call.does_of_outcome {written : Written} {effect : Effect}
    (h : call.outcome files memory oov model registry = .ok (written, effect)) :
    call.Does written effect := by
  cases call with
  | construct path fakeCost out =>
    obtain ⟨scorer, -, h⟩ := bind_eq_ok.1 h
    cases h
    exact .construct path fakeCost out scorer
  | destroy old =>
    cases h
    exact .destroy old
  | order old =>
    obtain ⟨found, -, h⟩ := bind_eq_ok.1 h
    obtain ⟨scorer, -, h⟩ := bind_eq_ok.1 h
    cases h
    exact .order old _
  | register old word id out =>
    obtain ⟨found, -, h⟩ := bind_eq_ok.1 h
    obtain ⟨scorer, -, h⟩ := bind_eq_ok.1 h
    obtain ⟨⟨known, scorer⟩, -, h⟩ := bind_eq_ok.1 h
    cases h
    exact .register old word id out known scorer
  | prob old ids out =>
    obtain ⟨found, -, h⟩ := bind_eq_ok.1 h
    obtain ⟨numbers, -, h⟩ := bind_eq_ok.1 h
    obtain ⟨scorer, -, h⟩ := bind_eq_ok.1 h
    cases h
    exact .prob old ids out _
  | probString old ids start out =>
    obtain ⟨found, -, h⟩ := bind_eq_ok.1 h
    obtain ⟨numbers, -, h⟩ := bind_eq_ok.1 h
    obtain ⟨-, h⟩ := ite_error_eq_ok.1 h
    obtain ⟨scorer, -, h⟩ := bind_eq_ok.1 h
    cases h
    exact .probString old ids start out _
  | load highest path family =>
    obtain ⟨found, -, h⟩ := bind_eq_ok.1 h
    obtain ⟨⟨⟨⟩, registry⟩, -, h⟩ := bind_eq_ok.1 h
    cases h
    exact .load highest path family registry
  | score word context out =>
    obtain ⟨found, -, h⟩ := bind_eq_ok.1 h
    obtain ⟨prob, -, h⟩ := bind_eq_ok.1 h
    cases h
    exact .score word context out prob
  | finalize =>
    obtain ⟨found, -, h⟩ := bind_eq_ok.1 h
    cases h
    exact .finalize _

/-- What a call comes to depends on nothing else. -/
theorem Session.Sees.outcome_eq (h : s.Sees handle call model registry) :
    call.outcome files memory oov s.scorers[handle]? s.registry =
      call.outcome files memory oov model registry := by
  cases call with
  | construct | destroy => rfl
  | order | register | prob | probString =>
    rw [Call.outcome, h.model rfl]
    rfl
  | load | score | finalize =>
    rw [Call.outcome, h.registry rfl]
    rfl

/-! ## Requests -/

/-- What a request replies and does, with the model under its handle and the registry. The handle of
a new model is left open. -/
def Request.result (r : Request) (oov : OovScoring) (model : Option (Locked Scorer))
    (registry : Locked Registry) :
    Reply × Effect :=
  if r.call.isComplete then
    match r.call.outcome r.files r.memory oov model registry with
    | .ok (written, effect) => (⟨.ok, written⟩, effect)
    | .error e => (⟨.refused e.group, .nothing⟩, .keep)
  else (⟨.refused .argument, .nothing⟩, .keep)

/-- Only calls on the registry change it. -/
theorem Request.registry_result {r : Request} (h : r.call.onRegistry = false)
    (before : Locked Registry) : (r.result oov model registry).2.registry before = before := by
  rw [result]
  split
  · split
    · rename_i written effect houtcome
      have hdoes := Call.does_of_outcome houtcome
      generalize r.call = call at hdoes h
      cases hdoes with
      | load | finalize => cases h
      | construct | destroy | order | register | prob | probString | score => rfl
    · rfl
  · rfl

/-- A process comes to a result of a request under a handle: up to the number of a new handle it
replies so, and up to the last message its session is what the effect makes of it. -/
structure Process.Performs (p : Process) (handle : Handle) (r : Request) (result : Reply × Effect) :
    Prop where
  reply : (p.serve (r.withHandle handle)).1.anonymous = result.1.anonymous
  held : r.call.handleAfter (p.serve (r.withHandle handle)).1 handle =
    result.2.handleAfter p.session handle
  session : ∃ message, (p.serve (r.withHandle handle)).2.session =
    (result.2.apply p.session handle).withMessage message
  settings : (p.serve (r.withHandle handle)).2.settings.value = p.settings.value

/-- A call that fails leaves its caller the handle, unless it releases the model. -/
theorem Call.handleAfter_of_nothing (hkeeps : ∀ old, call ≠ .destroy old) (status : Status) :
    call.handleAfter ⟨status, .nothing⟩ handle = handle := by
  cases call with
  | destroy old => exact absurd rfl (hkeeps old)
  | construct | order | register | prob | probString | load | score | finalize => rfl

/-- A call that succeeds leaves its caller the handle that its effect says. -/
theorem Call.Does.handleAfter_eq {written : Written} {effect : Effect}
    (h : call.Does written effect) (s : Session) (handle : Handle) :
    call.handleAfter ⟨.ok, written.withHandle s.nextHandle⟩ handle =
      effect.handleAfter s handle := by
  cases h with
  | construct | destroy | order | register | prob | probString | load | score | finalize => rfl

theorem Written.withHandle_withHandle (written : Written) (first second : Handle) :
    (written.withHandle first).withHandle second = written.withHandle second := by
  cases written with
  | nothing | handle | order | known | prob => rfl

/-- Every process comes to the result that the request has with what its call has to do with. -/
theorem Process.performs {p : Process} {r : Request}
    (hsees : p.session.Sees handle r.call model registry) :
    p.Performs handle r (r.result p.settings.value.oov model registry) := by
  have hnames : (r.withHandle handle).call.withHandle handle = (r.withHandle handle).call :=
    r.call.withHandle_withHandle handle handle
  have hsame : (r.withHandle handle).call.isComplete = r.call.isComplete :=
    r.call.isComplete_withHandle handle
  rcases p.serve_cases hnames with ⟨hcall, hp⟩ | ⟨hcomplete, hp⟩ | ⟨hcomplete, hkeeps, hp⟩
  · -- The call releases the model under the handle.
    obtain ⟨files, memory, call⟩ := r
    cases call with
    | destroy =>
      exact ⟨by rw [hp]; rfl, by rw [hp]; rfl, ⟨p.session.lastError, by rw [hp]; rfl⟩, by rw [hp]⟩
    | construct | order | register | prob | probString | load | score | finalize => cases hcall
  · -- It is declined, and so releases no model.
    rw [hsame] at hcomplete
    have hkeeps : ∀ old, r.call ≠ .destroy old := by
      intro old h
      rw [h] at hcomplete
      cases hcomplete
    rw [Request.result, if_neg (by rw [hcomplete]; decide)]
    refine ⟨by rw [hp], ?_, ⟨p.session.lastError, by rw [hp]; rfl⟩, by rw [hp]⟩
    rw [hp]
    exact Call.handleAfter_of_nothing hkeeps _
  · -- It is made and comes to its outcome, well or not.
    rw [hsame] at hcomplete
    have hkeeps : ∀ old, r.call ≠ .destroy old := by
      intro old h
      exact hkeeps handle (by rw [Request.withHandle, h]; rfl)
    have houtcome : p.outcome handle (r.withHandle handle) =
        r.call.outcome r.files r.memory p.settings.value.oov model registry :=
      (r.call.outcome_withHandle handle r.files r.memory _ _ _).trans hsees.outcome_eq
    have hreply := hp.reply
    have hsession := hp.session
    rw [houtcome] at hreply hsession
    rw [Request.result, if_pos hcomplete]
    cases hdone : r.call.outcome r.files r.memory p.settings.value.oov model registry with
    | error e =>
      rw [hdone] at hreply hsession
      refine ⟨by rw [hreply]; rfl, ?_, ⟨_, hsession⟩, hp.settings⟩
      rw [hreply]
      exact Call.handleAfter_of_nothing hkeeps _
    | ok done =>
      obtain ⟨written, effect⟩ := done
      rw [hdone] at hreply hsession
      refine ⟨?_, ?_, ⟨_, hsession⟩, hp.settings⟩
      · rw [hreply]
        exact congrArg (Reply.mk .ok) (written.withHandle_withHandle _ 0)
      · rw [hreply]
        exact (Call.does_of_outcome hdone).handleAfter_eq p.session handle

end BackoffLM
