import BackoffLM.Proofs.Session.Process

/-!
# Calls that fail

A call that fails writes nothing and makes no model, whatever it did before it failed: all that is
left of it is the last message, which no call reads, and that the settings are fixed, at the value
which they have anyway (`serve_of_failed`). So two processes that differ in these alone
(`SameService`) give the same replies for ever, and leaving a failed call out of a session changes
no other reply in it (`replies_without_failed_call`).
-/

namespace BackoffLM

namespace Session

variable {s : Session} {handle : Handle}

/-- The end of a call sets the last message anew, whatever it was before. -/
theorem finish_withMessage (message : Option String)
    (outcome : Except CallError (Written × Effect)) :
    (s.withMessage message).finish handle outcome = s.finish handle outcome := by
  cases outcome with
  | error e => rfl
  | ok done =>
    rw [finish, Effect.apply_withMessage]
    rfl

/-- A call that failed changed the last message and nothing else. -/
theorem finish_of_failed {outcome : Except CallError (Written × Effect)}
    (h : (s.finish handle outcome).1.status ≠ .ok) :
    (s.finish handle outcome).1.written = .nothing ∧
      ∃ message, (s.finish handle outcome).2 = s.withMessage message := by
  cases outcome with
  | error e => exact ⟨rfl, some (foreignMessage e.message), rfl⟩
  | ok => exact absurd rfl h

end Session

/-! ## Processes that serve alike -/

namespace Process

/-- Two processes that differ at most in their last message and in whether their settings are fixed
yet. -/
structure SameService (p q : Process) : Prop where
  session : ∃ message, q.session = p.session.withMessage message
  settings : q.settings.value = p.settings.value

variable {p q : Process} {r : Request}

/-- Such processes give the same reply, and still serve alike after it. -/
theorem SameService.serve (h : p.SameService q) (r : Request) :
    (q.serve r).1 = (p.serve r).1 ∧ (p.serve r).2.SameService (q.serve r).2 := by
  have hsame := h
  obtain ⟨⟨message, hsession⟩, hsettings⟩ := h
  rcases p.serve_cases r.call.withHandle_handle with
    ⟨hcall, hp⟩ | ⟨hcomplete, hp⟩ | ⟨hcomplete, hkeeps, hp⟩
  · rw [hp, serve_of_destroy hcall]
    exact ⟨rfl, ⟨message, by rw [hsession]; rfl⟩, hsettings⟩
  · rw [hp, serve_of_incomplete hcomplete]
    exact ⟨rfl, hsame⟩
  · have hq : q.Concludes r.call.handle r :=
      concludes hcomplete hkeeps r.call.withHandle_handle
    -- Both come to the same, as no call reads the message, and its end sets that anew.
    have houtcome : q.outcome r.call.handle r = p.outcome r.call.handle r := by
      rw [outcome, outcome, hsession, hsettings]
      rfl
    have hfinish : q.session.finish r.call.handle (q.outcome r.call.handle r) =
        p.session.finish r.call.handle (p.outcome r.call.handle r) := by
      rw [houtcome, hsession, Session.finish_withMessage]
    refine ⟨by rw [hq.reply, hp.reply, hfinish], ⟨(p.serve r).2.session.lastError, ?_⟩, ?_⟩
    · rw [hq.session, hp.session, hfinish]
      rfl
    · rw [hq.settings, hp.settings, hsettings]

/-- Such processes give the same replies to all that follows. -/
theorem SameService.serveAll (h : p.SameService q) (requests : List Request) :
    (q.serveAll requests).1 = (p.serveAll requests).1 := by
  induction requests generalizing p q with
  | nil => rfl
  | cons r requests ih =>
    obtain ⟨hreply, hafter⟩ := h.serve r
    rw [serveAll_cons, serveAll_cons, hreply, ih hafter]

/-- A failed call writes nothing and leaves a process that serves as it did before. -/
theorem serve_of_failed (hfailed : (p.serve r).1.status ≠ .ok) :
    (p.serve r).1.written = .nothing ∧ p.SameService (p.serve r).2 := by
  rcases p.serve_cases r.call.withHandle_handle with ⟨-, hp⟩ | ⟨-, hp⟩ | ⟨-, -, hp⟩
  · rw [hp] at hfailed
    exact absurd rfl hfailed
  · rw [hp]
    exact ⟨rfl, ⟨p.session.lastError, rfl⟩, rfl⟩
  · rw [hp.reply] at hfailed
    obtain ⟨hwritten, hmessage⟩ := Session.finish_of_failed hfailed
    exact ⟨by rw [hp.reply, hwritten], by rw [hp.session]; exact hmessage, hp.settings⟩

/-- A failed call in a session writes nothing, makes no model and keeps those that there are, and
leaving it out changes no reply of the session but its own. -/
theorem replies_without_failed_call (start : Process) (before : List Request) (r : Request)
    (after : List Request)
    (hfailed : ((start.serveAll before).2.serve r).1.status ≠ .ok) :
    let p := (start.serveAll before).2
    let failed := p.serve r
    failed.1.written = .nothing ∧
      failed.2.session.nextHandle = p.session.nextHandle ∧
      failed.2.session.scorers = p.session.scorers ∧
      failed.2.session.registry = p.session.registry ∧
      ((start.serveAll (before ++ r :: after)).1).eraseIdx before.length =
        (start.serveAll (before ++ after)).1 := by
  intro p failed
  obtain ⟨hwritten, hsame⟩ := serve_of_failed hfailed
  obtain ⟨message, hsession⟩ := hsame.session
  refine ⟨hwritten, ?_, ?_, ?_, ?_⟩
  · rw [hsession]; rfl
  · rw [hsession]; rfl
  · rw [hsession]; rfl
  · calc ((start.serveAll (before ++ r :: after)).1).eraseIdx before.length
        = ((start.serveAll before).1 ++ failed.1 :: (failed.2.serveAll after).1).eraseIdx
            (start.serveAll before).1.length := by
          rw [serveAll_append, serveAll_cons, length_serveAll]
      _ = (start.serveAll before).1 ++ (failed.2.serveAll after).1 := by
          rw [List.eraseIdx_append_of_length_le (Nat.le_refl _), Nat.sub_self,
            List.eraseIdx_cons_zero]
      _ = (start.serveAll before).1 ++ (p.serveAll after).1 := by rw [hsame.serveAll after]
      _ = (start.serveAll (before ++ after)).1 := by rw [serveAll_append]

/-- Counts whose second line does not read are refused. The counts loaded after them and the score
of a word are what they are without. -/
theorem replies_without_failed_call_counts :
    let load (text : String) : Request :=
      ⟨⟨fun _ => .ok (Text.Utf8.encode text.toList)⟩, .ample, .load 2 (some [109]) 1⟩
    let score : Request := ⟨⟨fun _ => .error .missing⟩, .ample, .score (some [97]) ⟨none, 0⟩ true⟩
    (fresh.serve (load "a 1\nb x\n")).1 = ⟨.refused .file, .nothing⟩ ∧
      (fresh.serveAll [load "a 1\n", score]).1.map (·.status) = [.ok, .ok] ∧
      ((fresh.serveAll [load "a 1\nb x\n", load "a 1\n", score]).1).eraseIdx 0 =
        (fresh.serveAll [load "a 1\n", score]).1 :=
  ⟨by decide, by decide, (replies_without_failed_call fresh [] _ _ (by decide)).2.2.2.2⟩

end Process

end BackoffLM
