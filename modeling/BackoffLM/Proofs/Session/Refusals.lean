import BackoffLM.Proofs.Session.Process

/-!
# Why calls are refused

`Refuses` says which causes refuse a call, and in what order they are looked for: a model is looked
for before the other arguments, and its lock is taken after them, while a call on the registry takes
that lock first. A call that brings its text and its place for a result fails for exactly these
causes (`outcome_eq_error_iff`), of which there is one at most. So the last message is that of the
cause (`lastError_of_givesStatus`), but for a call that is declined, after which callers find an
earlier message or none.
-/

namespace BackoffLM

/-! ## Calls -/

/-- Whether a call gives its caller a status. The others give a number or nothing. -/
def Call.givesStatus : Call → Bool
  | .construct _ _ _ | .register _ _ _ _ | .prob _ _ _ | .probString _ _ _ _ | .load _ _ _
  | .score _ _ _ => true
  | .destroy _ | .order _ | .finalize => false

/-- The handle of the model that a call works with. -/
def Call.handle? : Call → Option Handle
  | .order handle | .register handle _ _ _ | .prob handle _ _ | .probString handle _ _ _ =>
    some handle
  | .construct _ _ _ | .destroy _ | .load _ _ _ | .score _ _ _ | .finalize => none

/-- The numbers that a call scores. -/
def Call.ids? : Call → Option (ForeignArray ExternalId)
  | .prob _ ids _ | .probString _ ids _ _ => some ids
  | .construct _ _ _ | .destroy _ | .order _ | .register _ _ _ _ | .load _ _ _ | .score _ _ _
  | .finalize => none

/-- Whether a call can read what it reads before it takes a lock. -/
def Call.isReadable : Call → Bool
  | .prob _ ids _ => ids.read.isSome
  | .probString _ ids start _ => ids.read.isSome && decide (0 ≤ start)
  | .construct _ _ _ | .destroy _ | .order _ | .register _ _ _ _ | .load _ _ _ | .score _ _ _
  | .finalize => true

/-! ## Causes -/

namespace Session

/-- The causes that refuse a call in a session, with the files and the memory that it finds. -/
inductive Refuses (files : Files) (memory : Memory) (s : Session) : Call → CallError → Prop
  | unloadable {path : ForeignText} {fakeCost : LogProb} {out : Bool} {text : String}
      {oov : OovScoring} {e : CallError} :
    path.read = some text → Scorer.ofFile files text oov = .error e →
      Refuses files memory s (.construct path fakeCost out) e
  | nullHandle {call : Call} {handle : Handle} :
    call.handle? = some handle → s.scorers[handle]? = none → Refuses files memory s call .nullHandle
  | nullIds {call : Call} {handle : Handle} {ids : ForeignArray ExternalId}
      {model : Locked Scorer} :
    call.handle? = some handle → s.scorers[handle]? = some model → call.ids? = some ids →
      ids.read = none → Refuses files memory s call .nullIds
  | negativeStart {handle : Handle} {ids : ForeignArray ExternalId} {start : Int} {out : Bool}
      {model : Locked Scorer} {numbers : List ExternalId} :
    s.scorers[handle]? = some model → ids.read = some numbers → start < 0 →
      Refuses files memory s (.probString handle ids start out) (.negativeStart start)
  | modelPoisoned {call : Call} {handle : Handle} {model : Locked Scorer} :
    call.handle? = some handle → s.scorers[handle]? = some model → call.isReadable = true →
      model.poisoned = true → Refuses files memory s call .modelPoisoned
  | reservedId {handle : Handle} {word : ForeignText} {id : ExternalId} {out : Bool}
      {scorer : Scorer} :
    s.scorers[handle]? = some (.sound scorer) → id ≤ reservedId →
      Refuses files memory s (.register handle word id out) (.reservedId id)
  | noRoom {handle : Handle} {word : ForeignText} {id : ExternalId} {out : Bool} {scorer : Scorer}
      {reason : String} :
    s.scorers[handle]? = some (.sound scorer) → reservedId < id →
      scorer.ids.size < id.toNat + 1 → memory.reserve (id.toNat + 1) = .error reason →
      Refuses files memory s (.register handle word id out) (.noRoom (id.toNat + 1) reason)
  | registryPoisoned {call : Call} :
    call.onRegistry = true → s.registry.poisoned = true →
      Refuses files memory s call .registryPoisoned
  | alreadyLoaded {order : Int} {path : ForeignText} {code : Int} {loaded : LoadedModel} :
    s.registry = .sound ⟨some loaded⟩ →
      Refuses files memory s (.load order path code) .alreadyLoaded
  | unloaded {order : Int} {path : ForeignText} {code : Int} {e : CallError} :
    s.registry = .sound .empty → Registry.LoadFails files order (path.read.getD "") code e →
      Refuses files memory s (.load order path code) e
  | notLoaded {word : ForeignText} {context : ForeignArray ForeignText} {out : Bool} :
    s.registry = .sound .empty → Refuses files memory s (.score word context out) .notLoaded
  | nullWord {word : ForeignText} {context : ForeignArray ForeignText} {out : Bool}
      {loaded : LoadedModel} :
    s.registry = .sound ⟨some loaded⟩ → word.read = none →
      Refuses files memory s (.score word context out) .nullWord
  | nullContext {word : ForeignText} {context : ForeignArray ForeignText} {out : Bool}
      {loaded : LoadedModel} {text : String} :
    s.registry = .sound ⟨some loaded⟩ → word.read = some text → context.read = none →
      Refuses files memory s (.score word context out) .nullContext
  | nullContextWord {word : ForeignText} {context : ForeignArray ForeignText} {out : Bool}
      {loaded : LoadedModel} {text : String} {words : List ForeignText} {place : Nat} :
    s.registry = .sound ⟨some loaded⟩ → word.read = some text → context.read = some words →
      words.findIdx? (·.read.isNone) = some place →
      Refuses files memory s (.score word context out) (.nullContextWord place)
  | emptyWord {word : ForeignText} {context : ForeignArray ForeignText} {out : Bool}
      {loaded : LoadedModel} {words : List ForeignText} {texts : List String} :
    s.registry = .sound ⟨some loaded⟩ → word.read = some "" → context.read = some words →
      words.mapM ForeignText.read = some texts →
      Refuses files memory s (.score word context out) .emptyWord
  | emptyContextWord {word : ForeignText} {context : ForeignArray ForeignText} {out : Bool}
      {loaded : LoadedModel} {text : String} {words : List ForeignText} {texts : List String}
      {place : Nat} :
    s.registry = .sound ⟨some loaded⟩ → word.read = some text → text ≠ "" →
      context.read = some words → words.mapM ForeignText.read = some texts →
      texts.findIdx? String.isEmpty = some place →
      Refuses files memory s (.score word context out) (.emptyContextWord place)

end Session

/-! ## Outcomes -/

variable {e : CallError}

/-- How well a model file loads does not depend on how unknown words are to be scored. -/
theorem Scorer.ofFile_eq_error {files : Files} {path : String} {oov oov' : OovScoring}
    (h : ofFile files path oov = .error e) : ofFile files path oov' = .error e := by
  unfold ofFile at h ⊢
  rw [bind_eq_error] at h ⊢
  refine h.imp_right fun ⟨bytes, hbytes, h⟩ => ⟨bytes, hbytes, ?_⟩
  rw [bind_eq_error] at h ⊢
  refine h.imp_right fun ⟨header?, hheader, h⟩ => ⟨header?, hheader, ?_⟩
  cases header? with
  | none =>
    simp only [bind_eq_error, reduceCtorEq, and_false, exists_false, or_false] at h ⊢
    exact h
  | some header =>
    cases hkind : header.kind? with
    | none => simpa [hkind] using h
    | some kind =>
      simp only [hkind, bind_eq_error, reduceCtorEq, and_false, exists_false, or_false] at h ⊢
      exact h

namespace Session

open BackoffLM.Locked (read_eq_error_iff read_eq_ok_iff)
open BackoffLM.Scene (foundModel_eq_error_iff foundModel_eq_ok_iff)

variable {s : Session} {files : Files} {memory : Memory} {oov : OovScoring}

/-- A model is not made when its file does not load. -/
theorem construct_eq_error_iff {path : ForeignText} {fakeCost : LogProb}
    (h : path.read.isSome = true) {out : Bool} {model : Option (Locked Scorer)} :
    (Call.construct path fakeCost out).outcome files memory oov model s.registry = .error e ↔
      Refuses files memory s (.construct path fakeCost out) e := by
  obtain ⟨text, htext⟩ := Option.isSome_iff_exists.1 h
  simp only [Call.outcome, bind_eq_error, htext, Option.getD_some, reduceCtorEq, and_false,
    exists_false, or_false]
  constructor
  · exact .unloadable htext
  · intro h
    cases h with
    | unloadable htext' h =>
      cases htext.symm.trans htext'
      -- The cause may have been found with other settings than those in force.
      exact Scorer.ofFile_eq_error h
    | nullHandle hhandle | nullIds hhandle | modelPoisoned hhandle => cases hhandle
    | registryPoisoned hon => cases hon

/-- A model has an order unless there is no model, or its lock is poisoned. -/
theorem order_eq_error_iff {handle : Handle} :
    (Call.order handle).outcome files memory oov s.scorers[handle]? s.registry = .error e ↔
      Refuses files memory s (.order handle) e := by
  simp only [Call.outcome, bind_eq_error, foundModel_eq_error_iff, foundModel_eq_ok_iff,
    read_eq_error_iff, reduceCtorEq, and_false, exists_false, or_false]
  constructor
  · rintro (⟨hnone, rfl⟩ | ⟨model, hmodel, hpoisoned, rfl⟩)
    · exact .nullHandle rfl hnone
    · exact .modelPoisoned rfl hmodel rfl hpoisoned
  · intro h
    cases h with
    | nullHandle hhandle hnone =>
      cases hhandle
      exact .inl ⟨hnone, rfl⟩
    | modelPoisoned hhandle hmodel _ hpoisoned =>
      cases hhandle
      exact .inr ⟨_, hmodel, hpoisoned, rfl⟩
    | nullIds _ _ hids => cases hids
    | registryPoisoned hon => cases hon

/-- A word is not registered when there is no model, its lock is poisoned, the number is not
positive, or there is no memory for the number's place. -/
theorem register_eq_error_iff {handle : Handle} {word : ForeignText} {id : ExternalId}
    {out : Bool} :
    (Call.register handle word id out).outcome files memory oov s.scorers[handle]? s.registry =
        .error e ↔
      Refuses files memory s (.register handle word id out) e := by
  simp only [Call.outcome, bind_eq_error, foundModel_eq_error_iff, foundModel_eq_ok_iff,
    read_eq_error_iff, read_eq_ok_iff, Scorer.result_register_eq_error_iff, reduceCtorEq, and_false,
    exists_false, or_false]
  constructor
  · rintro (⟨hnone, rfl⟩ | ⟨model, hmodel, ⟨hpoisoned, rfl⟩ | ⟨scorer, rfl, ⟨hid, rfl⟩ |
      ⟨reason, hid, hsize, hreserve, rfl⟩⟩⟩)
    · exact .nullHandle rfl hnone
    · exact .modelPoisoned rfl hmodel rfl hpoisoned
    · exact .reservedId hmodel (Int.not_lt.1 hid)
    · exact .noRoom hmodel hid hsize hreserve
  · intro h
    cases h with
    | nullHandle hhandle hnone =>
      cases hhandle
      exact .inl ⟨hnone, rfl⟩
    | modelPoisoned hhandle hmodel _ hpoisoned =>
      cases hhandle
      exact .inr ⟨_, hmodel, .inl ⟨hpoisoned, rfl⟩⟩
    | reservedId hmodel hid =>
      exact .inr ⟨_, hmodel, .inr ⟨_, rfl, .inl ⟨Int.not_lt.2 hid, rfl⟩⟩⟩
    | noRoom hmodel hid hsize hreserve =>
      exact .inr ⟨_, hmodel, .inr ⟨_, rfl, .inr ⟨_, hid, hsize, hreserve, rfl⟩⟩⟩
    | nullIds _ _ hids => cases hids
    | registryPoisoned hon => cases hon

/-- The last of some numbers is not scored when there is no model, the numbers are missing, or the
lock is poisoned. -/
theorem prob_eq_error_iff {handle : Handle} {ids : ForeignArray ExternalId} {out : Bool} :
    (Call.prob handle ids out).outcome files memory oov s.scorers[handle]? s.registry = .error e ↔
      Refuses files memory s (.prob handle ids out) e := by
  simp only [Call.outcome, bind_eq_error, foundModel_eq_error_iff, foundModel_eq_ok_iff,
    readIds_eq_error_iff, readIds_eq_ok_iff, read_eq_error_iff, reduceCtorEq, and_false,
    exists_false, or_false]
  constructor
  · rintro (⟨hnone, rfl⟩ | ⟨model, hmodel, ⟨hids, rfl⟩ | ⟨numbers, hnumbers, hpoisoned, rfl⟩⟩)
    · exact .nullHandle rfl hnone
    · exact .nullIds rfl hmodel rfl hids
    · exact .modelPoisoned rfl hmodel (Option.isSome_of_eq_some hnumbers) hpoisoned
  · intro h
    cases h with
    | nullHandle hhandle hnone =>
      cases hhandle
      exact .inl ⟨hnone, rfl⟩
    | nullIds hhandle hmodel hids hnone =>
      cases hhandle
      cases hids
      exact .inr ⟨_, hmodel, .inl ⟨hnone, rfl⟩⟩
    | modelPoisoned hhandle hmodel hreadable hpoisoned =>
      cases hhandle
      obtain ⟨numbers, hnumbers⟩ := Option.isSome_iff_exists.1 hreadable
      exact .inr ⟨_, hmodel, .inr ⟨numbers, hnumbers, hpoisoned, rfl⟩⟩
    | registryPoisoned hon => cases hon

/-- Numbers are not scored from a place on when there is no model, the numbers are missing, the
place is negative, or the lock is poisoned. -/
theorem probString_eq_error_iff {handle : Handle} {ids : ForeignArray ExternalId} {start : Int}
    {out : Bool} :
    (Call.probString handle ids start out).outcome files memory oov s.scorers[handle]? s.registry =
        .error e ↔
      Refuses files memory s (.probString handle ids start out) e := by
  simp only [Call.outcome, bind_eq_error, foundModel_eq_error_iff, foundModel_eq_ok_iff,
    readIds_eq_error_iff, readIds_eq_ok_iff]
  constructor
  · rintro (⟨hnone, rfl⟩ | ⟨model, hmodel, ⟨hids, rfl⟩ | ⟨numbers, hnumbers, h⟩⟩)
    · exact .nullHandle rfl hnone
    · exact .nullIds rfl hmodel rfl hids
    · by_cases hstart : start < 0
      · rw [if_pos hstart] at h
        cases h
        exact .negativeStart hmodel hnumbers hstart
      · rw [if_neg hstart, bind_eq_error, read_eq_error_iff] at h
        rcases h with ⟨hpoisoned, rfl⟩ | ⟨_, -, h⟩
        · refine .modelPoisoned rfl hmodel ?_ hpoisoned
          simp [Call.isReadable, hnumbers, Int.not_lt.1 hstart]
        · cases h
  · intro h
    cases h with
    | nullHandle hhandle hnone =>
      cases hhandle
      exact .inl ⟨hnone, rfl⟩
    | nullIds hhandle hmodel hids hnone =>
      cases hhandle
      cases hids
      exact .inr ⟨_, hmodel, .inl ⟨hnone, rfl⟩⟩
    | negativeStart hmodel hnumbers hstart =>
      exact .inr ⟨_, hmodel, .inr ⟨_, hnumbers, if_pos hstart⟩⟩
    | modelPoisoned hhandle hmodel hreadable hpoisoned =>
      cases hhandle
      obtain ⟨hsome, hstart⟩ : ids.read.isSome = true ∧ 0 ≤ start := by
        simpa [Call.isReadable] using hreadable
      obtain ⟨numbers, hnumbers⟩ := Option.isSome_iff_exists.1 hsome
      refine .inr ⟨_, hmodel, .inr ⟨numbers, hnumbers, ?_⟩⟩
      rw [if_neg (Int.not_lt.2 hstart), bind_eq_error, read_eq_error_iff]
      exact .inl ⟨hpoisoned, rfl⟩
    | registryPoisoned hon => cases hon

/-- A model is not loaded into the registry when the lock is poisoned, when there is one, or for the
causes that keep an empty registry from loading it. -/
theorem load_eq_error_iff {order : Int} {path : ForeignText} {code : Int}
    {model : Option (Locked Scorer)} :
    (Call.load order path code).outcome files memory oov model s.registry = .error e ↔
      Refuses files memory s (.load order path code) e := by
  simp only [Call.outcome, bind_eq_error, read_eq_error_iff, read_eq_ok_iff,
    Registry.result_load_eq_error_iff, reduceCtorEq, and_false, exists_false, or_false]
  constructor
  · rintro (⟨hpoisoned, rfl⟩ | ⟨⟨_ | loaded⟩, hregistry, ⟨h, rfl⟩ | ⟨h, hfails⟩⟩)
    · exact .registryPoisoned rfl hpoisoned
    · cases h
    · exact .unloaded hregistry hfails
    · exact .alreadyLoaded hregistry
    · cases h
  · intro h
    cases h with
    | registryPoisoned _ hpoisoned => exact .inl ⟨hpoisoned, rfl⟩
    | alreadyLoaded hregistry => exact .inr ⟨_, hregistry, .inl ⟨rfl, rfl⟩⟩
    | unloaded hregistry hfails => exact .inr ⟨_, hregistry, .inr ⟨rfl, hfails⟩⟩
    | nullHandle hhandle | nullIds hhandle | modelPoisoned hhandle => cases hhandle

/-- A word is not scored by the registry when the lock is poisoned, when there is no model, when the
word or its context is missing or is no text, or when a word is empty. -/
theorem score_eq_error_iff {word : ForeignText} {context : ForeignArray ForeignText} {out : Bool}
    {model : Option (Locked Scorer)} :
    (Call.score word context out).outcome files memory oov model s.registry = .error e ↔
      Refuses files memory s (.score word context out) e := by
  simp only [Call.outcome, bind_eq_error, read_eq_error_iff, read_eq_ok_iff, reduceCtorEq,
    and_false, exists_false, or_false]
  constructor
  · rintro (⟨hpoisoned, rfl⟩ | ⟨⟨_ | loaded⟩, hregistry, h⟩)
    · exact .registryPoisoned rfl hpoisoned
    · cases (Registry.scoreForeign_of_not_loaded rfl).symm.trans h
      exact .notLoaded hregistry
    · rcases (Registry.scoreForeign_eq_error_iff rfl).1 h with ⟨hword, rfl⟩ | ⟨text, hword,
        ⟨hcontext, rfl⟩ | ⟨words, hcontext, ⟨place, hplace, rfl⟩ | ⟨texts, htexts,
          ⟨rfl, rfl⟩ | ⟨hne, place, hplace, rfl⟩⟩⟩⟩
      · exact .nullWord hregistry hword
      · exact .nullContext hregistry hword hcontext
      · exact .nullContextWord hregistry hword hcontext hplace
      · exact .emptyWord hregistry hword hcontext htexts
      · exact .emptyContextWord hregistry hword hne hcontext htexts hplace
  · intro h
    cases h with
    | registryPoisoned _ hpoisoned => exact .inl ⟨hpoisoned, rfl⟩
    | notLoaded hregistry =>
      exact .inr ⟨_, hregistry, Registry.scoreForeign_of_not_loaded rfl⟩
    | nullWord hregistry hword =>
      exact .inr ⟨_, hregistry, (Registry.scoreForeign_eq_error_iff rfl).2 (.inl ⟨hword, rfl⟩)⟩
    | nullContext hregistry hword hcontext =>
      exact .inr ⟨_, hregistry, (Registry.scoreForeign_eq_error_iff rfl).2
        (.inr ⟨_, hword, .inl ⟨hcontext, rfl⟩⟩)⟩
    | nullContextWord hregistry hword hcontext hplace =>
      exact .inr ⟨_, hregistry, (Registry.scoreForeign_eq_error_iff rfl).2
        (.inr ⟨_, hword, .inr ⟨_, hcontext, .inl ⟨_, hplace, rfl⟩⟩⟩)⟩
    | emptyWord hregistry hword hcontext htexts =>
      exact .inr ⟨_, hregistry, (Registry.scoreForeign_eq_error_iff rfl).2
        (.inr ⟨_, hword, .inr ⟨_, hcontext, .inr ⟨_, htexts, .inl ⟨rfl, rfl⟩⟩⟩⟩)⟩
    | emptyContextWord hregistry hword hne hcontext htexts hplace =>
      exact .inr ⟨_, hregistry, (Registry.scoreForeign_eq_error_iff rfl).2
        (.inr ⟨_, hword, .inr ⟨_, hcontext, .inr ⟨_, htexts, .inr ⟨hne, _, hplace, rfl⟩⟩⟩⟩)⟩
    | nullHandle hhandle | nullIds hhandle | modelPoisoned hhandle => cases hhandle

/-- The model of the registry is released unless the lock is poisoned. -/
theorem finalize_eq_error_iff {model : Option (Locked Scorer)} :
    Call.finalize.outcome files memory oov model s.registry = .error e ↔
      Refuses files memory s .finalize e := by
  simp only [Call.outcome, bind_eq_error, read_eq_error_iff, reduceCtorEq, and_false, exists_false,
    or_false]
  constructor
  · rintro ⟨hpoisoned, rfl⟩
    exact .registryPoisoned rfl hpoisoned
  · intro h
    cases h with
    | registryPoisoned _ hpoisoned => exact ⟨hpoisoned, rfl⟩
    | nullHandle hhandle | nullIds hhandle | modelPoisoned hhandle => cases hhandle

/-- A call with all that it needs fails for the cause that refuses it. -/
theorem outcome_eq_error_iff {call : Call} (h : call.isComplete = true) :
    call.outcome files memory oov s.scorers[call.handle]? s.registry = .error e ↔
      Refuses files memory s call e := by
  cases call with
  | construct path fakeCost out =>
    exact construct_eq_error_iff (Bool.and_eq_true_iff.1 h).1
  | destroy old =>
    refine iff_of_false nofun fun h => ?_
    cases h with
    | nullHandle hhandle | nullIds hhandle | modelPoisoned hhandle => cases hhandle
    | registryPoisoned hon => cases hon
  | order handle => exact order_eq_error_iff
  | register handle word id out => exact register_eq_error_iff
  | prob handle ids out => exact prob_eq_error_iff
  | probString handle ids start out => exact probString_eq_error_iff
  | load order path code => exact load_eq_error_iff
  | score word context out => exact score_eq_error_iff
  | finalize => exact finalize_eq_error_iff

end Session

/-! ## The last message -/

/-- A message without NULs reaches callers as it is. -/
theorem Session.foreignMessage_eq_self {message : String} (h : '\x00' ∉ message.toList) :
    foreignMessage message = message := by
  apply String.toList_injective
  rw [foreignMessage, String.toList_map]
  refine (List.map_congr_left fun c hc => ?_).trans (List.map_id _)
  have hne : c ≠ '\x00' := fun hnul => h (hnul ▸ hc)
  exact if_neg hne

namespace Process

open Session (Refuses foreignMessage)

/-- What the last message is after a call that gives a status, at any point of a session. A call
that brings all that it needs clears the message when nothing refuses it, and otherwise leaves that
of the one cause that does. A call that lacks its text or its place for a result is refused as well,
but without a word: the message is still the one before. -/
theorem lastError_of_givesStatus (start : Process) (before : List Request) (r : Request)
    (hstatus : r.call.givesStatus = true) :
    let p := (start.serveAll before).2
    let reply := (p.serve r).1
    let after := (p.serve r).2
    if r.call.isComplete = true then
      (reply.status = .ok ∧ after.session.lastError = none ∧
        ∀ e, ¬ p.session.Refuses r.files r.memory r.call e) ∨
      (∃ e, (∀ e', p.session.Refuses r.files r.memory r.call e' ↔ e' = e) ∧
        reply.status = .refused e.group ∧
        after.session.lastError = some (foreignMessage e.message))
    else reply.status = .refused .argument ∧ after.session.lastError = p.session.lastError := by
  intro p reply after
  simp only [reply, after]
  rcases p.serve_cases r.call.withHandle_handle with
    ⟨hcall, -⟩ | ⟨hcomplete, hserve⟩ | ⟨hcomplete, -, hserve⟩
  · rw [hcall] at hstatus
    cases hstatus
  · rw [hserve, hcomplete]
    exact ⟨rfl, rfl⟩
  · rw [if_pos hcomplete, hserve.reply, hserve.session]
    have hrefuses : ∀ e, p.outcome r.call.handle r = .error e ↔
        Refuses r.files r.memory p.session r.call e :=
      fun e => Session.outcome_eq_error_iff hcomplete
    cases houtcome : p.outcome r.call.handle r with
    | ok done =>
      refine .inl ⟨rfl, rfl, fun e he => ?_⟩
      cases houtcome.symm.trans ((hrefuses e).2 he)
    | error e =>
      refine .inr ⟨e, fun e' => ?_, rfl, rfl⟩
      rw [← hrefuses, houtcome, Except.error.injEq, eq_comm]

/-- A word cannot be scored without a model, and the message says so. It still says so after a call
that fails because its own word is missing. -/
theorem lastError_of_givesStatus_leftOver :
    let score : Request := ⟨⟨fun _ => .error .missing⟩, .ample, .score (some [97]) ⟨none, 0⟩ true⟩
    let register : Request := ⟨⟨fun _ => .error .missing⟩, .ample, .register 1 none 1 true⟩
    let p := (fresh.serveAll [score]).2
    p.session.lastError = some "illegal state: LM not loaded" ∧
      register.call.givesStatus = true ∧ register.call.isComplete = false ∧
      (p.serve register).1.status = .refused .argument ∧
      (p.serve register).2.session.lastError = some "illegal state: LM not loaded" := by
  intro score register p
  have hmessage : p.session.lastError = some "illegal state: LM not loaded" :=
    congrArg some (Session.foreignMessage_eq_self (by decide))
  obtain ⟨hstatus, hsame⟩ := lastError_of_givesStatus fresh [score] register rfl
  exact ⟨hmessage, rfl, rfl, hstatus, hsame.trans hmessage⟩

end Process

end BackoffLM
