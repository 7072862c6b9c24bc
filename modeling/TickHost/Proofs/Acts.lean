import Mathlib.Logic.Relation
import TickHost.Host
import TickHost.Proofs.Speech
import TickHost.Proofs.Timers

/-!
What can happen to a host besides its runs. Scripts, callbacks, tasks posted by other threads and
holders of handles all reach a host through the same few acts. The script engine adds the steps of
an evaluation and the one-time set-up, and `Work` is all of it. Whatever holds across every act
holds across any code at all, so that the theory of a run only has to look at what a run does
itself.
-/

namespace TickHost.Host

/-- Publish an event through the outlet of a host. -/
def announce (h : Host) (time : Nat) (event : Event) (source : Source) : Host :=
  { h with outlet := (h.outlet.publish time event source).2 }

/-- What a host has published. -/
def published (h : Host) : List Envelope :=
  h.outlet.sent.toList

/-- One act on a host, while its registry is stopping all or not. -/
inductive Act (stopping : Bool) (h : Host) : Host → Prop where
  | rewrite (script : Script) : Act stopping h { h with script }
  | adopt (parent : Option String) : Act stopping h { h with parent }
  | connect (signal : Signal) (callback : Callback) :
      Act stopping h { h with signals := h.signals ++ [(signal, callback)] }
  | queue (commands : List Command) : Act stopping h { h with commands }
  | stream (streamer : Streamer) : Act stopping h { h with streamer }
  | hold (users : Nat) : Act stopping h { h with users }
  | count (updates : Nat) : Act stopping h { h with updates }
  | perish : Act stopping h { h with alive := false, commands := [] }
  | publish (time : Nat) (event : Event) (source : Source) (hordinary : event.isOrdinary = true)
      (hrequest : stopping = true → event.isRequest = false) :
      Act stopping h (h.announce time event source)
  | stop (time : Nat) (hfirst : h.finished = false) :
      Act stopping h ({ h with finished := true }.announce time .runningStateChanged .host)
  | detach (hidle : h.pending = 0) : Act stopping h { h with outlet := h.outlet.detach }
  | schedule (callback : Callback) (interval : Nat) (once : Bool) (now : Nat)
      (hopen : stopping = false) (hlive : h.finished = false) :
      Act stopping h { h with timers := (h.timers.schedule callback interval once now).2 }
  | cancel (id : TimerId) : Act stopping h { h with timers := (h.timers.cancel id).2 }
  | fire (id : TimerId) (now : Nat) : Act stopping h { h with timers := (h.timers.fire id now).2 }

/-- Any number of acts. -/
abbrev Acts (stopping : Bool) : Host → Host → Prop :=
  Relation.ReflTransGen (Act stopping)

/-- One act, one end of an evaluation or the set-up of the script engine. -/
inductive Work (stopping : Bool) (h : Host) : Host → Prop where
  | act {h' : Host} (hact : Act stopping h h') : Work stopping h h'
  | enter : Work stopping h { h with pending := h.pending + 1 }
  | leave : Work stopping h { h with pending := h.pending - 1 }
  | conclude (time : Nat) (result : Value) (hadException : Bool) :
      Work stopping h (h.announce time (.evaluationFinished result hadException) .script)
  | initialise : Work stopping h { h with initialized := true }

abbrev Works (stopping : Bool) : Host → Host → Prop :=
  Relation.ReflTransGen (Work stopping)

/-- The part of a host that is only changed by its runs, if at all. -/
structure Core where
  name : String
  id : Nat
  registry : String
  bus : Nat
  queue : Option EditQueue
  directives : Bool
  running : Bool
  done : Bool
deriving DecidableEq

def core (h : Host) : Core :=
  ⟨h.name, h.id, h.registry, h.bus, h.queue, h.directives, h.running, h.done⟩

variable {stopping : Bool} {h h' : Host}

theorem Act.core (hact : Act stopping h h') : h'.core = h.core := by
  cases hact <;> rfl

theorem Act.pending (hact : Act stopping h h') : h'.pending = h.pending := by
  cases hact <;> rfl

theorem Act.initialized (hact : Act stopping h h') : h'.initialized = h.initialized := by
  cases hact <;> rfl

theorem Work.core (hwork : Work stopping h h') : h'.core = h.core := by
  cases hwork with
  | act hact => exact hact.core
  | enter | leave | conclude _ _ _ | initialise => rfl

theorem Works.core (hworks : Works stopping h h') : h'.core = h.core := by
  induction hworks with
  | refl => rfl
  | tail _ hwork ih => exact hwork.core.trans ih

theorem Acts.works (hacts : Acts stopping h h') : Works stopping h h' :=
  Relation.ReflTransGen.mono (fun _ _ => Work.act) _ _ hacts

theorem Acts.pending (hacts : Acts stopping h h') : h'.pending = h.pending := by
  induction hacts with
  | refl => rfl
  | tail _ hact ih => exact hact.pending.trans ih

theorem Acts.initialized (hacts : Acts stopping h h') : h'.initialized = h.initialized := by
  induction hacts with
  | refl => rfl
  | tail _ hact ih => exact hact.initialized.trans ih

theorem Works.running (hworks : Works stopping h h') : h'.running = h.running :=
  congrArg Core.running hworks.core

theorem Works.done (hworks : Works stopping h h') : h'.done = h.done :=
  congrArg Core.done hworks.core

theorem Works.id (hworks : Works stopping h h') : h'.id = h.id :=
  congrArg Core.id hworks.core

theorem Works.registry (hworks : Works stopping h h') : h'.registry = h.registry :=
  congrArg Core.registry hworks.core

theorem Works.queue (hworks : Works stopping h h') : h'.queue = h.queue :=
  congrArg Core.queue hworks.core

/-- A host can be asked to stop, and no work takes that back. -/
theorem Works.finished (hworks : Works stopping h h') (hfinished : h.finished = true) :
    h'.finished = true := by
  induction hworks with
  | refl => exact hfinished
  | tail _ hwork ih =>
      cases hwork with
      | act hact => cases hact <;> first | exact ih | rfl
      | enter | leave | conclude _ _ _ | initialise => exact ih

/-- A host can be cut off, and no work takes that back. -/
theorem Works.detached (hworks : Works stopping h h') (hdetached : h.outlet.detached = true) :
    h'.outlet.detached = true := by
  induction hworks with
  | refl => exact hdetached
  | tail _ hwork ih =>
      cases hwork with
      | act hact => cases hact <;> first | exact ih | simpa [announce] using ih | rfl
      | enter | leave | initialise => exact ih
      | conclude _ _ _ => simpa [announce] using ih

/-- A host that is gone does not come back. -/
theorem Works.alive (hworks : Works stopping h h') (halive : h'.alive = true) :
    h.alive = true := by
  induction hworks with
  | refl => exact halive
  | tail _ hwork ih =>
      cases hwork with
      | act hact => cases hact <;> first | exact ih halive | cases halive
      | enter | leave | conclude _ _ _ | initialise => exact ih halive

/-- A host is cut off only while no evaluation of it is under way. -/
theorem Acts.idle_of_detach (hacts : Acts stopping h h') (hbefore : h.outlet.detached = false)
    (hafter : h'.outlet.detached = true) : h.pending = 0 := by
  induction hacts with
  | refl => simp [hbefore] at hafter
  | @tail middle last hacts hact ih =>
      by_cases hmiddle : middle.outlet.detached = true
      · exact ih hmiddle
      · have hpending : middle.pending = h.pending := Acts.pending hacts
        cases hact with
        | detach hidle => rw [← hpending, hidle]
        | publish => simp [announce] at hafter; exact absurd hafter hmiddle
        | stop => simp [announce] at hafter; exact absurd hafter hmiddle
        | _ => exact absurd hafter hmiddle

theorem Work.numbered (hwork : Work stopping h h') (hnumbered : h.outlet.Numbered) :
    h'.outlet.Numbered := by
  cases hwork with
  | act hact =>
      cases hact <;> first
        | exact hnumbered
        | exact hnumbered.publish _ _ _
  | enter | leave | initialise => exact hnumbered
  | conclude _ _ _ => exact hnumbered.publish _ _ _

theorem Works.numbered (hworks : Works stopping h h') (hnumbered : h.outlet.Numbered) :
    h'.outlet.Numbered := by
  induction hworks with
  | refl => exact hnumbered
  | tail _ hwork ih => exact hwork.numbered ih

/-- While everything is stopping or once the host has stopped, no timer is started. -/
theorem Works.timers_noneNew (hworks : Works stopping h h')
    (hshut : stopping = true ∨ h.finished = true) : h.timers.NoneNew h'.timers := by
  induction hworks with
  | refl => exact .refl _
  | @tail middle last hworks hwork ih =>
      apply ih.trans
      cases hwork with
      | act hact =>
          cases hact with
          | schedule _ _ _ _ hopen hlive =>
              rcases hshut with hstopping | hfinished
              · exact absurd hopen (by simp [hstopping])
              · exact absurd hlive (by simp [Works.finished hworks hfinished])
          | cancel id => exact Timers.cancel_noneNew _ id
          | fire id now => exact Timers.fire_noneNew _ id now
          | _ => exact .refl _
      | enter | leave | conclude _ _ _ | initialise => exact .refl _

/-! What is said. -/

/-- The second host has published what the first one had and then some envelopes. -/
def Says (h h' : Host) (es : List Envelope) : Prop :=
  h'.published = h.published ++ es

theorem Says.silent (hsame : h'.published = h.published) : h.Says h' [] := by
  simp [Says, hsame]

theorem Says.trans {h'' : Host} {es es' : List Envelope} (hsaid : h.Says h' es)
    (hsaid' : h'.Says h'' es') : h.Says h'' (es ++ es') := by
  rw [Says] at hsaid hsaid' ⊢
  rw [hsaid', hsaid, List.append_assoc]

theorem announce_detached (h : Host) (hdetached : h.outlet.detached = true) (time : Nat)
    (event : Event) (source : Source) : h.announce time event source = h := by
  simp [announce, Outlet.publish_detached hdetached]

theorem announce_attached (h : Host) (hattached : h.outlet.detached = false) (time : Nat)
    (event : Event) (source : Source) :
    h.Says (h.announce time event source)
      [⟨.new h.outlet.host h.outlet.sent.size, time, source, event⟩] :=
  Outlet.publish_attached hattached time event source

/-- What a host publishes when it announces an event: one envelope, unless it is cut off. -/
def utterance (h : Host) (time : Nat) (event : Event) (source : Source) : List Envelope :=
  if h.outlet.detached then []
  else [⟨.new h.outlet.host h.outlet.sent.size, time, source, event⟩]

theorem announce_says (h : Host) (time : Nat) (event : Event) (source : Source) :
    h.Says (h.announce time event source) (h.utterance time event source) := by
  cases hcut : h.outlet.detached with
  | true =>
      rw [announce_detached h hcut, utterance, if_pos hcut]
      exact .silent rfl
  | false =>
      have hattached := announce_attached h hcut time event source
      rwa [utterance, if_neg (by simp [hcut])]

/-- From one host to the next something was said, but nothing if the host was cut off, and no
request for a script while everything was stopping. -/
def Utters (stopping : Bool) (h h' : Host) : Prop :=
  ∃ es, h.Says h' es ∧ (h.outlet.detached = true → es = []) ∧
    (stopping = true → ∀ e ∈ es, e.event.isRequest = false)

theorem Utters.silent (hsame : h'.published = h.published) : h.Utters stopping h' :=
  ⟨[], .silent hsame, fun _ => rfl, by simp⟩

theorem Utters.trans {h'' : Host} (hutters : h.Utters stopping h')
    (hcut : h.outlet.detached = true → h'.outlet.detached = true)
    (hutters' : h'.Utters stopping h'') : h.Utters stopping h'' := by
  obtain ⟨es, hsaid, hsilent, hrequest⟩ := hutters
  obtain ⟨es', hsaid', hsilent', hrequest'⟩ := hutters'
  refine ⟨es ++ es', hsaid.trans hsaid', fun hdetached => ?_, fun hstopping e he => ?_⟩
  · simp [hsilent hdetached, hsilent' (hcut hdetached)]
  · rcases List.mem_append.mp he with he | he
    · exact hrequest hstopping e he
    · exact hrequest' hstopping e he

theorem announce_utters (h : Host) (time : Nat) (event : Event) (source : Source)
    (hrequest : stopping = true → event.isRequest = false) :
    h.Utters stopping (h.announce time event source) := by
  cases hdetached : h.outlet.detached with
  | true => exact .silent (by rw [announce_detached h hdetached])
  | false =>
      refine ⟨_, announce_attached h hdetached time event source, by simp [hdetached],
        fun hstopping => ?_⟩
      simpa using hrequest hstopping

@[simp]
theorem announce_cut (h : Host) (time : Nat) (event : Event) (source : Source) :
    (h.announce time event source).outlet.detached = h.outlet.detached :=
  Outlet.publish_detached_eq h.outlet time event source

/-- From one host to the next something was said, but nothing of a kind. -/
def Omits (kind : Event → Bool) (h h' : Host) : Prop :=
  ∃ es, h.Says h' es ∧ ∀ event ∈ Envelope.events es, kind event = false

variable {kind : Event → Bool}

theorem Omits.silent (hsame : h'.published = h.published) : h.Omits kind h' :=
  ⟨[], .silent hsame, by simp⟩

theorem Omits.trans {h'' : Host} (hfirst : h.Omits kind h') (hsecond : h'.Omits kind h'') :
    h.Omits kind h'' := by
  obtain ⟨es, hsaid, hnone⟩ := hfirst
  obtain ⟨es', hsaid', hnone'⟩ := hsecond
  refine ⟨es ++ es', hsaid.trans hsaid', ?_⟩
  intro event hevent
  rw [Envelope.events_append] at hevent
  rcases List.mem_append.mp hevent with hevent | hevent
  · exact hnone event hevent
  · exact hnone' event hevent

theorem announce_omits (h : Host) (time : Nat) (event : Event) (source : Source)
    (hevent : kind event = false) : h.Omits kind (h.announce time event source) := by
  cases hdetached : h.outlet.detached with
  | true => exact .silent (by rw [announce_detached h hdetached])
  | false =>
      refine ⟨_, announce_attached h hdetached time event source, ?_⟩
      simpa [Envelope.events] using hevent

/-- Acts cause ordinary events and announce stop requests. -/
theorem Act.omits (hordinary : ∀ event : Event, event.isOrdinary = true → kind event = false)
    (hstop : kind .runningStateChanged = false) (hact : Act stopping h h') : h.Omits kind h' := by
  cases hact with
  | publish time event source hevent _ => exact announce_omits h time _ _ (hordinary event hevent)
  | stop time _ => exact announce_omits { h with finished := true } time _ .host hstop
  | _ => exact .silent rfl

theorem Acts.omits (hordinary : ∀ event : Event, event.isOrdinary = true → kind event = false)
    (hstop : kind .runningStateChanged = false) (hacts : Acts stopping h h') :
    h.Omits kind h' := by
  induction hacts with
  | refl => exact .silent rfl
  | tail _ hact ih => exact ih.trans (hact.omits hordinary hstop)

theorem Work.utters (hwork : Work stopping h h') : h.Utters stopping h' := by
  cases hwork with
  | act hact =>
      cases hact with
      | publish time event source hordinary hrequest =>
          exact announce_utters h time event source hrequest
      | stop time hfirst => exact announce_utters { h with finished := true } time _ _ fun _ => rfl
      | _ => exact .silent rfl
  | conclude time result hadException => exact announce_utters h time _ _ fun _ => rfl
  | enter | leave | initialise => exact .silent rfl

theorem Works.utters (hworks : Works stopping h h') : h.Utters stopping h' := by
  induction hworks with
  | refl => exact .silent rfl
  | tail hworks hwork ih => exact ih.trans (Works.detached hworks) hwork.utters

theorem Work.speech (hwork : Work stopping h h') (hattached : h.outlet.detached = false) :
    ∃ es, h.Says h' es ∧
      Speech Event.isInner h.finished h'.finished (Envelope.events es) := by
  have hsilent : h'.published = h.published → h'.finished = h.finished → ∃ es, h.Says h' es ∧
      Speech Event.isInner h.finished h'.finished (Envelope.events es) :=
    fun hsame hflag => ⟨[], .silent hsame, hflag ▸ Speech.silent _⟩
  cases hwork with
  | act hact =>
      cases hact with
      | publish time event source hordinary _ =>
          exact ⟨_, announce_attached h hattached time event source,
            Speech.inner (fun _ he => he) h.finished (Event.isInner_of_isOrdinary hordinary)⟩
      | stop time hfirst =>
          refine ⟨_, announce_attached { h with finished := true } hattached time _ _, ?_⟩
          rw [hfirst]
          exact Speech.stop
      | _ => exact hsilent rfl rfl
  | conclude time result hadException =>
      exact ⟨_, announce_attached h hattached time _ _,
        Speech.inner (fun _ he => he) h.finished rfl⟩
  | enter | leave | initialise => exact hsilent rfl rfl

/-- What a host says while work is done on it and it is never cut off: inner events, and the
announcement of the stop request if there is a first one. -/
theorem Works.speech (hworks : Works stopping h h') (hattached : h'.outlet.detached = false) :
    ∃ es, h.Says h' es ∧
      Speech Event.isInner h.finished h'.finished (Envelope.events es) := by
  induction hworks with
  | refl => exact ⟨[], .silent rfl, Speech.silent _⟩
  | @tail middle last hworks hwork ih =>
      have hmiddle : middle.outlet.detached = false := by
        cases hdetached : middle.outlet.detached with
        | false => rfl
        | true =>
            have hlast := Works.detached (Relation.ReflTransGen.single hwork) hdetached
            simp [hattached] at hlast
      obtain ⟨es, hsaid, hspeech⟩ := ih hmiddle
      obtain ⟨es', hsaid', hspeech'⟩ := hwork.speech hmiddle
      refine ⟨es ++ es', hsaid.trans hsaid', ?_⟩
      rw [Envelope.events_append]
      exact hspeech.append hspeech'

end TickHost.Host
