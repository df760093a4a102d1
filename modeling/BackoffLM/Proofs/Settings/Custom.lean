import BackoffLM.Command.Run
import BackoffLM.Model.Build
import BackoffLM.Proofs.Outcome
import BackoffLM.Proofs.Runs
import BackoffLM.Proofs.Session.Process
import Mathlib.Data.List.Induction

/-!
# Giving custom settings

Custom settings may be given at any time, among operations that read the settings in force. They are
taken when their text can be read and none were taken before, and otherwise refused, which changes
nothing. Whether settings that are taken have an effect depends on what came before: they are in
force from then on if nothing has read the settings yet, and never if something has (`giving`).

Operations of all kinds touch the settings in one way only, which is to read them (`OnlyReads`):
calls on sessions, builds of models, and commands.
-/

namespace BackoffLM.Settings

/-! ## Events -/

/-- A computation that only reads the settings: it does without them, or takes the value in force,
which is fixed from then on. -/
inductive OnlyReads {α : Type} : Reading α → Prop where
  | ignores (a : α) : OnlyReads (pure a)
  | reads (result : Settings → α) : OnlyReads (result <$> inForce)

/-- What happens to the settings of a process. -/
inductive Event : Type 1 where
  /-- Custom settings are given. -/
  | give (text : String)
  /-- An operation runs that may read the settings. -/
  | operate {α : Type} (operation : Reading α) (only : OnlyReads operation)

/-- Whether an event reads the settings. -/
def Event.Reads : Event → Prop
  | .give _ => False
  | .operate operation _ => ∃ result, operation = result <$> inForce

/-- Whether settings are taken, and what is kept then. Settings that are refused leave everything as
it is. -/
def Cell.take (c : Cell) : Except SettingsFault Cell → Except SettingsFault Unit × Cell
  | .ok given => (.ok (), given)
  | .error e => (.error e, c)

/-- Lets an event happen. -/
def Cell.next (c : Cell) : Event → Except SettingsFault Unit × Cell
  | .give text => c.take (giveCustom text c)
  | .operate operation _ => (.ok (), (operation.run c).2)

/-- What is kept of the settings after events in a new process. -/
def afterEvents (events : List Event) : Cell := Run.stateAfter Cell.next .fresh events

/-- The settings that a reading after events gives. -/
def valueAfter (events : List Event) : Settings := (inForce.run (afterEvents events)).1

/-- Whether custom settings are taken when they are given after events. -/
def outcome (before : List Event) (text : String) : Except SettingsFault Unit :=
  ((afterEvents before).next (.give text)).1

/-- Custom settings were taken at some place among events. -/
def Taken (events : List Event) : Prop :=
  ∃ earlier text, earlier ++ [.give text] <+: events ∧ outcome earlier text = .ok ()

/-- What it does to give custom settings after events. -/
structure Giving (before : List Event) (text : String) : Prop where
  /-- The settings are taken exactly when the text can be read and none were taken before. -/
  taken_iff : outcome before text = .ok () ↔
    (∃ settings, read text = .ok settings) ∧ ¬ Taken before
  /-- Settings that are refused change nothing that is read later. -/
  refused {e : SettingsFault} : outcome before text = .error e →
    ∀ later, valueAfter (before ++ .give text :: later) = valueAfter (before ++ later)
  /-- Settings that are taken before the first reading are read from then on. -/
  in_force : outcome before text = .ok () → (∀ event ∈ before, ¬ event.Reads) →
    ∀ later, read text = .ok (valueAfter (before ++ .give text :: later))
  /-- Settings that are taken after it are never read. -/
  too_late : outcome before text = .ok () → (∃ event ∈ before, event.Reads) →
    ∀ later, valueAfter (before ++ .give text :: later) = valueAfter before

/-! ## Operations only read -/

section OnlyReads

variable {α β : Type}

/-- Once the settings are fixed an operation leaves them alone, and depends on nothing but their
value. -/
theorem OnlyReads.run_eq {operation : Reading α} (h : OnlyReads operation) {c : Cell}
    {settings : Settings} (hc : c.fixed = some settings) :
    operation.run c = ((operation.run ⟨none, some settings⟩).1, c) := by
  cases h with
  | ignores a => rfl
  | reads result =>
    obtain ⟨custom, fixed⟩ := c
    cases hc
    rfl

/-- Operations one after another read the settings once. -/
theorem OnlyReads.bind {operation : Reading α} {next : α → Reading β} (h : OnlyReads operation)
    (hnext : ∀ a, OnlyReads (next a)) : OnlyReads (operation >>= next) := by
  cases h with
  | ignores a => exact hnext a
  | reads result =>
    -- What comes next finds the settings fixed to the value that was read.
    have heq : (result <$> inForce >>= next) =
        (fun settings => ((next (result settings)).run ⟨none, some settings⟩).1) <$> inForce :=
      funext fun c => (hnext (result c.value)).run_eq (c := c.read.2) rfl
    rw [heq]
    exact .reads _

/-- The scoring of unknown words is read with the settings. -/
theorem onlyReads_oovInForce (cost : Option LogProb) : OnlyReads (oovInForce cost) :=
  (OnlyReads.reads id).bind fun _ => .ignores _

/-- Of the calls on a session only the construction of a model reads the settings. -/
theorem onlyReads_serve (files : Files) (s : Session) (call : Call) (memory : Memory) :
    OnlyReads (s.serve files call memory) := by
  cases hcomplete : call.isComplete with
  | false =>
    rw [s.serve_of_incomplete hcomplete]
    exact .ignores _
  | true =>
    have hrun (c : Cell) : (s.run (call.attempt files memory)).run c = (_, _) :=
      s.run_attempt call.withHandle_handle c
    cases call with
    | destroy => exact .ignores _
    | construct path fakeCost out =>
      rw [s.serve_eq_run hcomplete nofun]
      have heq : s.run ((Call.construct path fakeCost out).attempt files memory) =
          (fun settings => s.finish 0 ((Call.construct path fakeCost out).outcome files memory
            settings.oov s.scorers[0]? s.registry)) <$> inForce := funext hrun
      rw [heq]
      exact .reads _
    | order | register | prob | probString | load | score | finalize =>
      rw [s.serve_eq_run hcomplete nofun]
      -- The outcome is the same with any settings.
      have heq : s.run _ = pure (s.finish _ _) := funext hrun
      rw [heq]
      exact .ignores _

/-- To build a model reads the settings at most for the width of its weights. -/
theorem onlyReads_build {S : Type} [StoredIndex S] (a : Arpa) :
    OnlyReads (Model.build a : Reading (Model S)) := by
  rw [Model.build]
  split
  · exact .reads fun settings => Model.ofArpa settings.bits a
  · exact .ignores _

/-- A command reads the settings at most. -/
theorem onlyReads_run (files : Files) (command : Command) : OnlyReads (command.run files) := by
  cases command with
  | info file =>
    rw [Command.run, Command.runInfo]
    split
    · exact .ignores _
    · refine (onlyReads_oovInForce none).bind fun oov => ?_
      split
      · exact .ignores _
      · exact .ignores _
  | score file sentence fakeCost json =>
    refine (onlyReads_oovInForce fakeCost).bind fun oov => ?_
    split
    · exact .ignores _
    · refine (OnlyReads.reads id).bind fun settings => ?_
      dsimp only
      split
      · exact .ignores _
      · exact .ignores _
  | query | settingsExport | settingsValidate => exact .ignores _

end OnlyReads

/-! ## Single events -/

variable {c : Cell} {before later : List Event} {text : String} {settings : Settings}

/-- Settings that are given are the custom ones from then on, or are refused. -/
theorem next_give_cases (c : Cell) (text : String) :
    (∃ settings, read text = .ok settings ∧ c.custom = none ∧
      c.next (.give text) = (.ok (), { c with custom := some settings })) ∨
    ∃ e, c.next (.give text) = (.error e, c) := by
  rw [Cell.next, giveCustom]
  cases read text with
  | error e => exact .inr ⟨e, rfl⟩
  | ok settings =>
    rw [ok_bind, Cell.give]
    cases c.custom with
    | none => exact .inl ⟨settings, rfl, rfl, rfl⟩
    | some => exact .inr ⟨.alreadySet, rfl⟩

/-- Settings are taken when the text can be read and none were taken before. -/
theorem next_give_eq_ok : (c.next (.give text)).1 = .ok () ↔
    (∃ settings, read text = .ok settings) ∧ c.custom = none := by
  constructor
  · intro h
    rcases next_give_cases c text with ⟨settings, hread, hcustom, -⟩ | ⟨e, hnext⟩
    · exact ⟨⟨settings, hread⟩, hcustom⟩
    · rw [hnext] at h
      cases h
  · rintro ⟨⟨settings, hread⟩, hcustom⟩
    rw [Cell.next, giveCustom, hread, ok_bind, Cell.give, hcustom]
    rfl

/-- Settings that are taken are the custom ones. -/
theorem next_give_of_ok (h : (c.next (.give text)).1 = .ok ()) (hread : read text = .ok settings) :
    (c.next (.give text)).2 = { c with custom := some settings } := by
  rcases next_give_cases c text with ⟨settings', hread', -, hnext⟩ | ⟨e, hnext⟩
  · obtain rfl : settings' = settings := Except.ok.inj (hread'.symm.trans hread)
    rw [hnext]
  · rw [hnext] at h
    cases h

/-- A refusal leaves everything as it is. -/
theorem next_of_error {event : Event} {e : SettingsFault} (h : (c.next event).1 = .error e) :
    (c.next event).2 = c := by
  cases event with
  | operate => cases h
  | give text =>
    rcases next_give_cases c text with ⟨settings, -, -, hnext⟩ | ⟨e', hnext⟩
    · rw [hnext] at h
      cases h
    · rw [hnext]

/-- An event fixes the value in force, or leaves everything as it is, or gives custom settings where
there were none. -/
theorem next_cases (c : Cell) (event : Event) :
    (event.Reads ∧ (c.next event).2 = c.read.2) ∨
    (¬ event.Reads ∧ (c.next event).2 = c ∧
      ∀ text, event = .give text → (c.next event).1 ≠ .ok ()) ∨
    ∃ text settings, event = .give text ∧ c.custom = none ∧
      c.next event = (.ok (), { c with custom := some settings }) := by
  cases event with
  | operate operation only =>
    cases only with
    | ignores a =>
      refine .inr (.inl ⟨?_, rfl, nofun⟩)
      rintro ⟨result, heq⟩
      -- A reading would fix the settings of a new process.
      have hfixed := congrArg (fun o : Reading _ => (o.run .fresh).2.fixed) heq
      cases hfixed
    | reads result => exact .inl ⟨⟨result, rfl⟩, rfl⟩
  | give text =>
    rcases next_give_cases c text with ⟨settings, -, hcustom, hnext⟩ | ⟨e, hnext⟩
    · exact .inr (.inr ⟨text, settings, rfl, hcustom, hnext⟩)
    · refine .inr (.inl ⟨id, by rw [hnext], fun _ _ => ?_⟩)
      rw [hnext]
      exact nofun

/-- The settings are settled: a reading fixed them, or they were given before any. -/
def Cell.Settled (c : Cell) (settings : Settings) : Prop :=
  c.fixed = some settings ∨ c.fixed = none ∧ c.custom = some settings

/-- Settled settings are in force. -/
theorem Cell.Settled.value_eq (h : c.Settled settings) : c.value = settings := by
  rcases h with hfixed | ⟨hfixed, hcustom⟩
  · rw [value, hfixed]
    rfl
  · rw [value, hfixed, hcustom]
    rfl

/-- No event unsettles the settings. -/
theorem Cell.Settled.next (h : c.Settled settings) (event : Event) :
    (c.next event).2.Settled settings := by
  rcases next_cases c event with
    ⟨-, hnext⟩ | ⟨-, hnext, -⟩ | ⟨text, given, -, hcustom, hnext⟩
  · rw [hnext]
    exact .inl (congrArg some h.value_eq)
  · rwa [hnext]
  · rcases h with hfixed | ⟨-, hcustom'⟩
    · rw [hnext]
      exact .inl hfixed
    · rw [hcustom] at hcustom'
      cases hcustom'

/-! ## Runs of events -/

theorem afterEvents_concat (events : List Event) (event : Event) :
    afterEvents (events ++ [event]) = ((afterEvents events).next event).2 :=
  Run.stateAfter_concat Cell.next .fresh events event

theorem afterEvents_append (events later : List Event) :
    afterEvents (events ++ later) = Run.stateAfter Cell.next (afterEvents events) later :=
  Run.stateAfter_append Cell.next .fresh events later

/-- The value is fixed when it has been read. -/
theorem isSome_fixed_afterEvents (events : List Event) :
    (afterEvents events).fixed.isSome ↔ ∃ event ∈ events, event.Reads := by
  induction events using List.reverseRecOn with
  | nil => simp [afterEvents, Run.stateAfter, Cell.fresh]
  | append_singleton events event ih =>
    rw [afterEvents_concat]
    simp only [List.mem_append, List.mem_singleton, or_and_right, exists_or, exists_eq_left, ← ih]
    rcases next_cases (afterEvents events) event with
      ⟨hreads, h⟩ | ⟨hreads, h, -⟩ | ⟨text, settings, rfl, -, h⟩
    · simp [h, hreads, Cell.read]
    · simp [h, hreads]
    · simp [h, Event.Reads]

theorem taken_concat (events : List Event) (event : Event) :
    Taken (events ++ [event]) ↔
      Taken events ∨ ∃ text, event = .give text ∧ outcome events text = .ok () := by
  constructor
  · rintro ⟨earlier, text, hprefix, hok⟩
    rcases List.prefix_concat_iff.1 hprefix with heq | hprefix
    · obtain ⟨rfl, hevent⟩ := List.append_inj' heq rfl
      exact .inr ⟨text, (List.singleton_inj.1 hevent).symm, hok⟩
    · exact .inl ⟨earlier, text, hprefix, hok⟩
  · rintro (⟨earlier, text, hprefix, hok⟩ | ⟨text, rfl, hok⟩)
    · exact ⟨earlier, text, hprefix.trans (List.prefix_append events [event]), hok⟩
    · exact ⟨events, text, List.prefix_rfl, hok⟩

/-- There are custom settings when some have been taken. -/
theorem isSome_custom_afterEvents (events : List Event) :
    (afterEvents events).custom.isSome ↔ Taken events := by
  induction events using List.reverseRecOn with
  | nil => simp [afterEvents, Run.stateAfter, Cell.fresh, Taken]
  | append_singleton events event ih =>
    rw [afterEvents_concat, taken_concat, ← ih]
    rcases next_cases (afterEvents events) event with
      ⟨hreads, h⟩ | ⟨-, h, hrefused⟩ | ⟨text, settings, rfl, -, h⟩
    · have hevent : ∀ text, event ≠ .give text := by
        rintro text rfl
        exact hreads
      simp [h, hevent, Cell.read]
    · have hnone : ¬ ∃ text, event = .give text ∧ outcome events text = .ok () := by
        rintro ⟨text, rfl, hok⟩
        exact hrefused text rfl hok
      simp [h, hnone]
    · simp [h, outcome]

/-- Settings that are settled stay so whatever happens. -/
theorem Cell.Settled.stateAfter (h : c.Settled settings) (later : List Event) :
    (Run.stateAfter Cell.next c later).Settled settings :=
  Run.stateAfter_invariant Cell.next (Cell.Settled · settings) (fun _ event _ hc => hc.next event) h

/-- What it does to give custom settings, in any process: the settings are taken if their text can
be read and none were taken before. They are then in force from that point on if nothing read the
settings before, and never if something did. Settings that are refused change nothing. -/
theorem giving (before : List Event) (text : String) : Giving before text where
  taken_iff := by
    rw [outcome, next_give_eq_ok, ← isSome_custom_afterEvents, Option.not_isSome_iff_eq_none]
  refused {e} h later := by
    rw [valueAfter, valueAfter, afterEvents_append, afterEvents_append, Run.stateAfter_cons,
      next_of_error h]
  in_force h hunread later := by
    obtain ⟨⟨settings, hread⟩, -⟩ := next_give_eq_ok.1 h
    have hfixed : (afterEvents before).fixed = none := by
      rw [← Option.not_isSome_iff_eq_none, isSome_fixed_afterEvents]
      rintro ⟨event, hmem, hreads⟩
      exact hunread event hmem hreads
    have hsettled : ((afterEvents before).next (.give text)).2.Settled settings :=
      .inr (by rw [next_give_of_ok h hread]; exact ⟨hfixed, rfl⟩)
    rw [hread, valueAfter, afterEvents_append, Run.stateAfter_cons]
    exact congrArg Except.ok (hsettled.stateAfter later).value_eq.symm
  too_late _ hread later := by
    obtain ⟨settings, hfixed⟩ :=
      Option.isSome_iff_exists.1 ((isSome_fixed_afterEvents before).2 hread)
    have hsettled : (afterEvents before).Settled settings := .inl hfixed
    rw [valueAfter, afterEvents_append]
    exact (hsettled.stateAfter _).value_eq.trans hsettled.value_eq.symm

/-- The same settings are in force when they are given before a model is made, and have no effect
when they are given after it. Both times they are taken. -/
theorem giving_around_construct :
    let text := "oov=[-1,\"reserved-id-only\"]\nsentence=[true,true,\"_\",true]\nquantize=[8]\n"
    let settings : Settings := ⟨⟨⟨0xBF800000⟩, .reservedIdOnly⟩, ⟨true, true, "_", true⟩, 8⟩
    let construct : Event := .operate
      (Session.empty.serve ⟨fun _ => .error .missing⟩ (.construct (some [109]) .zero true) .ample)
      (onlyReads_serve _ _ _ _)
    (outcome [] text = .ok () ∧ valueAfter [.give text, construct] = settings) ∧
      outcome [construct] text = .ok () ∧ valueAfter [construct, .give text] = .standard := by
  intro text settings construct
  have hread : read text = .ok settings :=
    toOption_eq_some.1 (by decide +kernel : (read text).toOption = some settings)
  have hfirst : outcome [] text = .ok () := next_give_eq_ok.2 ⟨⟨settings, hread⟩, rfl⟩
  have hsecond : outcome [construct] text = .ok () := next_give_eq_ok.2 ⟨⟨settings, hread⟩, rfl⟩
  have hconstruct : ∃ event ∈ [construct], event.Reads :=
    (isSome_fixed_afterEvents [construct]).1 rfl
  refine ⟨⟨hfirst, ?_⟩, hsecond, ?_⟩
  · have hforce := (giving [] text).in_force hfirst (List.forall_mem_nil _) [construct]
    exact Except.ok.inj (hforce.symm.trans hread)
  · exact (giving [construct] text).too_late hsecond hconstruct []

end BackoffLM.Settings
