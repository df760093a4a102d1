import BackoffLM.Proofs.Runs
import BackoffLM.Proofs.Session.Results
import Mathlib.Logic.Function.Basic

/-!
# Clients that share a process

Clients take turns in calling one process, each with a model of its own: it makes the model, has its
handle, and names no other. What a client is answered is what it would be answered without those
clients that it does not share the registry with (`answersTo_beside`). So a client that only uses
its model is answered as if it were alone, and so is one that is alone in using the registry.
Clients that share the registry can tell, as a second load is refused (`answersTo_loads`).

The proof compares the process with one that serves fewer clients. A turn of a client that both
serve is answered alike, since they agree on what it has to do with (`Alike.serve`); a turn of any
other client leaves them in agreement (`Alike.serve_other`).
-/

namespace BackoffLM

/-- A call of a client. The handle that it names stands for that of the client's model. -/
structure Turn where
  client : Nat
  request : Request

/-- A process that serves clients. -/
structure Host where
  process : Process
  /-- The handle of each client's model, 0 without one. -/
  held : Nat → Handle

namespace Host

/-- No client has a model. -/
def start (settings : Settings.Cell) : Host := ⟨⟨.empty, settings⟩, fun _ => 0⟩

/-- Serves a turn. The answer goes to the client, and leaves out the number of a handle. -/
def serve (h : Host) (t : Turn) : (Nat × Reply) × Host :=
  let handle := h.held t.client
  let (reply, process) := h.process.serve (t.request.withHandle handle)
  let held := Function.update h.held t.client (t.request.call.handleAfter reply handle)
  ((t.client, reply.anonymous), ⟨process, held⟩)

/-- The answers to a client when clients take turns. -/
def answersTo (settings : Settings.Cell) (client : Nat) (turns : List Turn) : List (Nat × Reply) :=
  (Run.answers serve (start settings) turns).filter (·.1 = client)

/-- Whether a client uses the registry. -/
def usesRegistry (turns : List Turn) (client : Nat) : Bool :=
  turns.any fun t => t.client = client && t.request.call.onRegistry

/-- Whether two clients are the same, or both use the registry. -/
def beside (turns : List Turn) (client other : Nat) : Bool :=
  other = client || (usesRegistry turns client && usesRegistry turns other)

end Host

/-! ## Sessions in order -/

/-- The handles of a session's models are the ones given so far. -/
structure Session.Tidy (s : Session) : Prop where
  next_pos : 0 < s.nextHandle
  numbered {handle : Handle} : handle ∈ s.scorers → 0 < handle ∧ handle < s.nextHandle

/-- Nothing is ever under handle 0. -/
theorem Session.Tidy.getElem?_zero {s : Session} (hs : s.Tidy) : s.scorers[0]? = none :=
  Std.ExtHashMap.getElem?_eq_none fun hmem => Nat.lt_irrefl 0 (hs.numbered hmem).1

namespace Effect

variable {s : Session} {handle : Handle}

theorem registry_apply (effect : Effect) (s : Session) (handle : Handle) :
    (effect.apply s handle).registry = effect.registry s.registry := by
  cases effect with
  | keep | add | release | install => rfl
  | put scorer =>
    rw [apply]
    split
    · rfl
    · rfl

/-- No handle is given back. -/
theorem le_nextHandle_apply (effect : Effect) (s : Session) (handle : Handle) :
    s.nextHandle ≤ (effect.apply s handle).nextHandle := by
  cases effect with
  | keep | release | install => exact Nat.le_refl _
  | add => exact Nat.le_succ _
  | put scorer =>
    rw [apply]
    split
    · exact Nat.le_refl _
    · exact Nat.le_refl _

/-- Every call leaves a session in order. -/
theorem tidy_apply (hs : s.Tidy) (effect : Effect) (handle : Handle) :
    (effect.apply s handle).Tidy := by
  cases effect with
  | keep => exact hs
  | install registry => exact ⟨hs.next_pos, hs.numbered⟩
  | release =>
    exact ⟨hs.next_pos, fun hmem => hs.numbered (Std.ExtHashMap.mem_erase.1 hmem).2⟩
  | add scorer =>
    refine ⟨Nat.succ_pos _, fun {other} hmem => ?_⟩
    show 0 < other ∧ other < s.nextHandle + 1
    rcases Std.ExtHashMap.mem_insert.1 hmem with hnew | hmem
    · obtain rfl : s.nextHandle = other := beq_iff_eq.1 hnew
      exact ⟨hs.next_pos, Nat.lt_succ_self _⟩
    · obtain ⟨hpos, hlt⟩ := hs.numbered hmem
      exact ⟨hpos, Nat.lt_succ_of_lt hlt⟩
  | put scorer =>
    rw [apply]
    split
    · rename_i hold
      refine ⟨hs.next_pos, fun {other} hmem => ?_⟩
      rcases Std.ExtHashMap.mem_insert.1 hmem with heq | hmem
      · obtain rfl : handle = other := beq_iff_eq.1 heq
        exact hs.numbered hold
      · exact hs.numbered hmem
    · exact hs

/-- The model of the caller after a call. -/
theorem getElem?_apply_handleAfter (hs : s.Tidy) (effect : Effect) (handle : Handle) :
    (effect.apply s handle).scorers[effect.handleAfter s handle]? =
      effect.model s.scorers[handle]? := by
  cases effect with
  | keep | install => rfl
  | release => exact (tidy_apply hs .release handle).getElem?_zero
  | add scorer => exact Std.ExtHashMap.getElem?_insert_self
  | put scorer =>
    rw [apply, model]
    split
    · rename_i hold
      rw [Std.ExtHashMap.getElem?_eq_some_getElem hold]
      exact Std.ExtHashMap.getElem?_insert_self
    · rename_i hnone
      rw [handleAfter, Std.ExtHashMap.getElem?_eq_none hnone]
      rfl

/-- Models under other handles stay. -/
theorem getElem?_apply_of_ne {other : Handle} (hne : handle ≠ other) (hnew : other < s.nextHandle)
    (effect : Effect) : (effect.apply s handle).scorers[other]? = s.scorers[other]? := by
  cases effect with
  | keep | install => rfl
  | release =>
    show (s.scorers.erase handle)[other]? = _
    rw [Std.ExtHashMap.getElem?_erase, if_neg (by simpa using hne)]
  | add scorer =>
    show (s.scorers.insert s.nextHandle (.sound scorer))[other]? = _
    rw [Std.ExtHashMap.getElem?_insert, if_neg (by simpa using Nat.ne_of_gt hnew)]
  | put scorer =>
    rw [apply]
    split
    · show (s.scorers.insert handle (.sound scorer))[other]? = _
      rw [Std.ExtHashMap.getElem?_insert, if_neg (by simpa using hne)]
    · rfl

/-- The caller's handle after a call is one that was given. -/
theorem handleAfter_lt (hs : s.Tidy) (hlt : handle < s.nextHandle) (effect : Effect) :
    effect.handleAfter s handle < (effect.apply s handle).nextHandle := by
  cases effect with
  | add scorer => exact Nat.lt_succ_self _
  | release => exact hs.next_pos
  | keep | put | install => exact Nat.lt_of_lt_of_le hlt (le_nextHandle_apply _ s handle)

/-- It is the next one, none, or that of before. -/
theorem handleAfter_cases (effect : Effect) (s : Session) (handle : Handle) :
    effect.handleAfter s handle = s.nextHandle ∨ effect.handleAfter s handle = 0 ∨
      effect.handleAfter s handle = handle := by
  cases effect with
  | add => exact .inl rfl
  | release => exact .inr (.inl rfl)
  | keep | put | install => exact .inr (.inr rfl)

end Effect

namespace Host

/-! ## Turns -/

variable {h h' : Host} {t : Turn} {result : Reply × Effect}

/-- The model of a client. -/
def model (h : Host) (client : Nat) : Option (Locked Scorer) :=
  h.process.session.scorers[h.held client]?

/-- The session is in order, and no two clients have one model. -/
structure Tidy (h : Host) : Prop where
  session : h.process.session.Tidy
  held_lt (client : Nat) : h.held client < h.process.session.nextHandle
  distinct {client other : Nat} : client ≠ other → h.held client = h.held other → h.held client = 0

theorem tidy_start (settings : Settings.Cell) : (start settings).Tidy where
  session := ⟨Nat.one_pos, fun hmem => absurd hmem Std.ExtHashMap.not_mem_empty⟩
  held_lt _ := Nat.one_pos
  distinct _ _ := rfl

/-- A host comes to a result of a turn: it answers so, and changes the session and the handle of the
client as the effect says. -/
structure Serves (h : Host) (t : Turn) (result : Reply × Effect) : Prop where
  answer : (h.serve t).1 = (t.client, result.1.anonymous)
  session : ∃ message, (h.serve t).2.process.session =
    (result.2.apply h.process.session (h.held t.client)).withMessage message
  held : (h.serve t).2.held =
    Function.update h.held t.client (result.2.handleAfter h.process.session (h.held t.client))
  settings : (h.serve t).2.process.settings.value = h.process.settings.value

/-- A host comes to the result that the request has with what its call has to do with. -/
theorem serves {model : Option (Locked Scorer)} {registry : Locked Registry}
    (hsees : h.process.session.Sees (h.held t.client) t.request.call model registry) :
    h.Serves t (t.request.result h.process.settings.value.oov model registry) := by
  have hp := Process.performs hsees
  exact ⟨congrArg (Prod.mk t.client) hp.reply, hp.session,
    congrArg (Function.update h.held t.client) hp.held, hp.settings⟩

namespace Serves

/-- The registry changes as the effect says. -/
theorem registry_eq (hs : h.Serves t result) :
    (h.serve t).2.process.session.registry = result.2.registry h.process.session.registry := by
  obtain ⟨message, hsession⟩ := hs.session
  rw [hsession, ← Effect.registry_apply]
  rfl

/-- The model of the client changes as the effect says. -/
theorem model_self (hs : h.Serves t result) (hh : h.Tidy) :
    (h.serve t).2.model t.client = result.2.model (h.model t.client) := by
  obtain ⟨message, hsession⟩ := hs.session
  rw [Host.model, hsession, hs.held, Function.update_self]
  exact Effect.getElem?_apply_handleAfter hh.session result.2 (h.held t.client)

/-- No turn unsettles the order. -/
theorem tidy (hs : h.Serves t result) (hh : h.Tidy) : (h.serve t).2.Tidy := by
  obtain ⟨message, hsession⟩ := hs.session
  have htidy := Effect.tidy_apply hh.session result.2 (h.held t.client)
  have hlt := Effect.handleAfter_lt hh.session (hh.held_lt t.client) result.2
  have hle := Effect.le_nextHandle_apply result.2 h.process.session (h.held t.client)
  -- The handle of the client is that of no other, unless it is none.
  have hfree (other : Nat) (hne : other ≠ t.client)
      (heq : result.2.handleAfter h.process.session (h.held t.client) = h.held other) :
      h.held other = 0 := by
    rcases result.2.handleAfter_cases h.process.session (h.held t.client) with hnew | hnone | hold
    · exact absurd (hh.held_lt other) (Nat.not_lt_of_ge (Nat.le_of_eq (hnew.symm.trans heq)))
    · exact heq.symm.trans hnone
    · exact hh.distinct hne (heq.symm.trans hold)
  refine ⟨?_, fun client => ?_, fun {client other} hne heq => ?_⟩
  · rw [hsession]
    exact ⟨htidy.next_pos, htidy.numbered⟩
  · rw [hsession, hs.held]
    by_cases hclient : client = t.client
    · rw [hclient, Function.update_self]
      exact hlt
    · rw [Function.update_of_ne hclient]
      exact Nat.lt_of_lt_of_le (hh.held_lt client) hle
  · rw [hs.held] at heq ⊢
    by_cases hclient : client = t.client
    · have hother : other ≠ t.client := fun hother => hne (hclient.trans hother.symm)
      rw [hclient, Function.update_self, Function.update_of_ne hother] at heq
      rw [hclient, Function.update_self, heq]
      exact hfree other hother heq
    · rw [Function.update_of_ne hclient] at heq ⊢
      by_cases hother : other = t.client
      · rw [hother, Function.update_self] at heq
        exact hfree client hclient heq.symm
      · rw [Function.update_of_ne hother] at heq
        exact hh.distinct hne heq

/-- The models of all others stay. -/
theorem model_of_ne (hs : h.Serves t result) (hh : h.Tidy) {other : Nat} (hne : other ≠ t.client) :
    (h.serve t).2.model other = h.model other := by
  have htidy := (hs.tidy hh).session
  obtain ⟨message, hsession⟩ := hs.session
  have hheld : (h.serve t).2.held other = h.held other := by
    rw [hs.held, Function.update_of_ne hne]
  rw [Host.model, Host.model, hheld]
  by_cases heq : h.held t.client = h.held other
  · -- Neither has a model then.
    have hzero : h.held other = 0 := heq ▸ hh.distinct (Ne.symm hne) heq
    rw [hzero, htidy.getElem?_zero, hh.session.getElem?_zero]
  · rw [hsession]
    exact Effect.getElem?_apply_of_ne heq (hh.held_lt other) result.2

end Serves

/-! ## Hosts in agreement -/

/-- Two hosts agree on the models of some clients, and on the registry if it is shared by them. -/
structure Alike (kept : Nat → Bool) (shared : Bool) (h h' : Host) : Prop where
  tidy : h.Tidy
  tidy' : h'.Tidy
  settings : h'.process.settings.value = h.process.settings.value
  models {client : Nat} : kept client = true → h'.model client = h.model client
  registry : shared = true → h'.process.session.registry = h.process.session.registry

variable {kept : Nat → Bool} {shared : Bool}

/-- A turn of one of these clients is answered alike, and leaves the hosts in agreement. -/
theorem Alike.serve (ha : Alike kept shared h h') (hkept : kept t.client = true)
    (hshared : t.request.call.onRegistry = true → shared = true) :
    (h'.serve t).1 = (h.serve t).1 ∧ Alike kept shared (h.serve t).2 (h'.serve t).2 := by
  have hs := serves (h := h) (t := t) ⟨fun _ => rfl, fun _ => rfl⟩
  -- The other host has the same model, or the same registry if the call is on that.
  have hs' : h'.Serves t (t.request.result h'.process.settings.value.oov (h.model t.client)
      h.process.session.registry) :=
    serves ⟨fun _ => ha.models hkept, fun hon => ha.registry (hshared hon)⟩
  rw [ha.settings] at hs'
  refine ⟨hs'.answer.trans hs.answer.symm, hs.tidy ha.tidy, hs'.tidy ha.tidy', ?_, ?_, ?_⟩
  · rw [hs'.settings, hs.settings, ha.settings]
  · intro client hclient
    by_cases heq : client = t.client
    · rw [heq, hs'.model_self ha.tidy', hs.model_self ha.tidy, ha.models hkept]
      rfl
    · rw [hs'.model_of_ne ha.tidy' heq, hs.model_of_ne ha.tidy heq, ha.models hclient]
  · intro hshared
    rw [hs'.registry_eq, hs.registry_eq, ha.registry hshared]
    rfl

/-- A turn of any other client leaves the hosts in agreement, unless it is on the registry that
these clients share. -/
theorem Alike.serve_other (ha : Alike kept shared h h') (hkept : kept t.client = false)
    (hshared : t.request.call.onRegistry = true → shared = false) :
    Alike kept shared (h.serve t).2 h' := by
  have hs := serves (h := h) (t := t) ⟨fun _ => rfl, fun _ => rfl⟩
  refine ⟨hs.tidy ha.tidy, ha.tidy', ?_, ?_, ?_⟩
  · rw [hs.settings, ha.settings]
  · intro client hclient
    have hne : client ≠ t.client := by
      rintro rfl
      exact absurd (hclient.symm.trans hkept) (by decide)
    rw [hs.model_of_ne ha.tidy hne, ha.models hclient]
  · intro hon
    have hoff : t.request.call.onRegistry = false := by
      rw [← Bool.not_eq_true]
      intro hcall
      exact absurd (hon.symm.trans (hshared hcall)) (by decide)
    rw [hs.registry_eq, Request.registry_result hoff, ha.registry hon]

/-- Hosts in agreement answer these clients alike, whether the others take their turns or not. -/
theorem Alike.answers (ha : Alike kept shared h h') {turns : List Turn}
    (hshared : ∀ t ∈ turns, t.request.call.onRegistry = true → kept t.client = shared) :
    Run.answers Host.serve h' (turns.filter fun t => kept t.client) =
      (Run.answers Host.serve h turns).filter fun answer => kept answer.1 := by
  induction turns generalizing h h' with
  | nil => rfl
  | cons t turns ih =>
    obtain ⟨ht, hturns⟩ := List.forall_mem_cons.1 hshared
    have hclient : kept (h.serve t).1.1 = kept t.client := rfl
    rw [Run.answers, List.filter_cons, List.filter_cons, hclient]
    cases hkept : kept t.client with
    | true =>
      obtain ⟨hanswer, hafter⟩ := ha.serve hkept fun hon => (ht hon).symm.trans hkept
      rw [if_pos rfl, if_pos rfl, Run.answers, hanswer, ih hafter hturns]
    | false =>
      have hafter := ha.serve_other hkept fun hon => (ht hon).symm.trans hkept
      rw [if_neg Bool.false_ne_true, if_neg Bool.false_ne_true, ih hafter hturns]

/-! ## Answers -/

theorem beside_self (turns : List Turn) (client : Nat) : beside turns client client = true := by
  rw [beside, decide_eq_true rfl, Bool.true_or]

/-- Whoever uses the registry shares it with a client if that uses it at all. -/
theorem beside_of_onRegistry {turns : List Turn} (ht : t ∈ turns)
    (hon : t.request.call.onRegistry = true) (client : Nat) :
    beside turns client t.client = usesRegistry turns client := by
  have huses : usesRegistry turns t.client = true :=
    List.any_eq_true.2 ⟨t, ht, by rw [hon, Bool.and_true]; exact decide_eq_true rfl⟩
  rw [beside, huses, Bool.and_true]
  by_cases hclient : t.client = client
  · rw [← hclient, huses, Bool.or_true]
  · rw [decide_eq_false hclient, Bool.false_or]

/-- A client is answered as if it were alone with those that it shares the registry with. If it does
not use the registry, or no other does, it is answered as if it were quite alone. -/
theorem answersTo_beside (settings : Settings.Cell) (turns : List Turn) (client : Nat) :
    answersTo settings client turns =
        answersTo settings client (turns.filter fun t => beside turns client t.client) ∧
      ((usesRegistry turns client = true →
          ∀ other, other ≠ client → usesRegistry turns other = false) →
        answersTo settings client turns =
          answersTo settings client (turns.filter fun t => t.client = client)) := by
  have hstart : Alike (beside turns client) (usesRegistry turns client) (start settings)
      (start settings) :=
    ⟨tidy_start settings, tidy_start settings, rfl, fun _ => rfl, fun _ => rfl⟩
  have hbeside : answersTo settings client turns =
      answersTo settings client (turns.filter fun t => beside turns client t.client) := by
    rw [answersTo, answersTo, hstart.answers fun t ht hon => beside_of_onRegistry ht hon client,
      List.filter_filter]
    refine List.filter_congr fun answer _ => ?_
    by_cases hclient : answer.1 = client
    · rw [hclient, beside_self, Bool.and_true]
    · rw [decide_eq_false hclient, Bool.false_and]
  refine ⟨hbeside, fun halone => ?_⟩
  rw [hbeside]
  refine congrArg (answersTo settings client) (List.filter_congr fun t _ => ?_)
  by_cases hclient : t.client = client
  · rw [hclient, beside_self, decide_eq_true rfl]
  · rw [beside, decide_eq_false hclient, Bool.false_or]
    cases huses : usesRegistry turns client with
    | false => rfl
    | true => rw [halone huses t.client hclient, Bool.and_false]

/-- Two clients that share the registry can tell. Both load the same counts: the second load is out
of turn, although it succeeds when its client is alone. -/
theorem answersTo_loads :
    let load : Request :=
      ⟨⟨fun _ => .ok (Text.Utf8.encode "a 1\n".toList)⟩, .ample, .load 2 (some [109]) 1⟩
    answersTo .fresh 1 [⟨0, load⟩, ⟨1, load⟩] = [(1, ⟨.refused .state, .nothing⟩)] ∧
      answersTo .fresh 1 ([⟨0, load⟩, ⟨1, load⟩].filter fun t => t.client = 1) =
        [(1, ⟨.ok, .nothing⟩)] :=
  ⟨by decide, by decide⟩

end Host

end BackoffLM
