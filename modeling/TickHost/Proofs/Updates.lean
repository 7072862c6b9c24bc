import TickHost.Proofs.Checkpoints
import TickHost.Proofs.Iterations
import TickHost.Proofs.Notifications
import TickHost.Proofs.Returns

/-!
The updates of a run. Each tells the time that has passed since the one before it, and the first one
the time since the loop has started, however long scripts, timers, callbacks or the streaming take
in between. So all that the updates of a run have told so far makes up the time that its loop has
taken so far. A host that is cut off has been asked to stop and sends none, so that every update
that is sent is published, and it is given to those that are connected at that moment.
-/

namespace TickHost

open World Machine

/-! Hosts that are cut off. -/

namespace World

/-- Every host that is cut off has been asked to stop. -/
def Leashed (w : World) : Prop :=
  ∀ key, (w.host key).outlet.detached = true → (w.host key).finished = true

namespace Leashed

variable {w w' : World} (h : w.Leashed)

include h

theorem same (hsame : ∀ key, w'.host key = w.host key) : w'.Leashed := by
  intro key hcut
  rw [hsame] at hcut ⊢
  exact h key hcut

theorem cutOff {key : Nat} (hkey : w.Has key) (hidle : (w.host key).pending = 0) :
    (w.cutOff key).Leashed := by
  intro other hcut
  by_cases hother : other = key
  · subst hother
    exact (cutOff_halts hkey hidle).finished
  · have hkept : w.Keeps (.cut other) (w.cutOff key) :=
      cutOff_keeps w key fun heq => hother (Aspect.cut.inj heq)
    have hbefore : (w.host other).outlet.detached = true := Eq.trans (Eq.symm hkept) hcut
    exact ((cutOff_curbs hkey hidle).acts other true).works.finished (h other hbefore)

theorem visitAll (registry : String) (rest : List (Nat × Nat)) :
    (World.visitAll registry rest w).2.Leashed := by
  induction rest generalizing w with
  | nil => exact h.same fun _ => rfl
  | cons entry rest ih =>
      obtain ⟨id, key⟩ := entry
      unfold World.visitAll
      split
      · exact ih (h.same fun _ => rfl)
      · split
        · exact ih h
        · rename_i hrunning
          split
          · exact h
          · rename_i hidle
            have hcut := h.cutOff (has_of_running (by simpa using hrunning)) (by omega)
            dsimp only
            split
            · exact ih (hcut.same fun _ => rfl)
            · exact hcut

theorem visited (call : StopAll) : (w.visited call).2.Leashed := by
  have hleft : (w.updateRegistry call.registry fun r =>
      r.unregister (w.host call.host).id).Leashed := h.same fun _ => rfl
  exact hleft.visitAll call.registry call.rest

theorem resume {call : StopAll} (hkey : w.Has call.host) : (w.resume call).2.Leashed := by
  unfold World.resume
  split
  · split
    · exact h
    · have hcut := h.cutOff hkey (by omega)
      dsimp only
      split
      · exact hcut.visited call
      · exact hcut
  · split
    · exact h.visited call
    · exact h

theorem stopAll (registry name : String) : (w.stopAll registry name).1.Leashed := by
  have hbegun : (w.updateRegistry registry fun r => { r with stopping := r.stopping + 1 }).Leashed :=
    h.same fun _ => rfl
  exact (hbegun.visitAll registry _).same fun key => keepCall_host name _ key

theorem poll (hlinked : w.Linked) (name : String) : (w.poll name).1.Leashed := by
  unfold World.poll
  split
  · exact h
  · rename_i job hjob
    have herased : ({ w with jobs := w.jobs.erase name } : World).Leashed := h.same fun _ => rfl
    have hkey : ({ w with jobs := w.jobs.erase name } : World).Has job.host :=
      hlinked.jobs name job hjob
    dsimp only
    split
    · exact (herased.resume hkey).same fun key => keepCall_host name _ key
    · unfold World.wait
      split
      · exact herased
      · exact herased.same fun key => keep_host _ name _ key

end Leashed

end World

namespace Behavior

variable {σ : Nat → Machine} (hσ : Behavior σ)

include hσ

theorem leashed (n : Nat) : (σ n).world.Leashed := by
  induction n with
  | zero =>
      obtain ⟨disk, remote, programs, functions, network, actions, hstart⟩ := hσ.starts
      rw [hstart]
      intro key hcut
      cases hcut
  | succ n ih =>
      intro key hcut
      rcases hσ.keeps (.cut key) n with hkept | ⟨t, rest, hexec, htouches⟩
      · have hbefore : ((σ n).world.host key).outlet.detached = true := Eq.trans (Eq.symm hkept) hcut
        have hkey : (σ n).world.Has key := has_of_ne_default fun hdefault => by
          rw [hdefault] at hbefore
          cases hbefore
        refine hσ.finished_step hkey ?_ (ih key hbefore)
        rintro ⟨below, hbegins⟩
        rw [world_after hbegins, Task.beginRun_sets.host_self] at hcut
        cases hcut
      · rcases Task.touches_others htouches nofun nofun nofun nofun with ⟨_, _, _, _, rfl⟩ |
          ⟨scope, deed, actions, rfl, hdeed⟩ | hplain
        · cases htouches
        · cases deed with
          | stopAll name job =>
              rw [world_of_deed hexec rfl] at hcut ⊢
              exact (ih.stopAll name job).same (fun _ => rfl) key hcut
          | poll job =>
              rw [world_of_deed hexec rfl] at hcut ⊢
              exact (ih.poll (hσ.sound n).linked job).same (fun _ => rfl) key hcut
          | _ => cases hdeed
        · cases t with
          | beginRun k =>
              obtain rfl : key = k := by simpa [Task.touches] using htouches
              rw [world_after hexec, Task.beginRun_sets.host_self] at hcut
              cases hcut
          | perform _ _ => cases hplain
          | _ => cases htouches

end Behavior

/-! What is connected. -/

namespace Host

variable {stopping : Bool} {h h' : Host}

theorem Works.signals (hworks : Works stopping h h') : h.signals <+: h'.signals := by
  induction hworks with
  | refl => exact List.prefix_rfl
  | tail _ hwork ih =>
      refine ih.trans ?_
      cases hwork with
      | act hact =>
          cases hact with
          | connect signal callback => exact List.prefix_append _ _
          | _ => exact List.prefix_rfl
      | enter | leave | conclude _ _ _ | initialise => exact List.prefix_rfl

theorem Stride.signals (hstride : h.Stride stopping h') : h'.signals = h.signals := by
  cases hstride with
  | refuse _ | confirm _ _ | skip _ | update _ _ _ | close _ => rfl
  | finish time origin =>
      obtain ⟨outlet, hfinish⟩ := h.finishRun_eq time origin
      rw [hfinish]

theorem callbacks_prefix (hsignals : h.signals <+: h'.signals) (signal : Signal) :
    h.callbacks signal <+: h'.callbacks signal :=
  (hsignals.filter _).map _

end Host

/-! What is heard of the updates. -/

/-- No other task announces an update. -/
theorem Task.react_hushes_other {w : World} {o : Outcome} {t : Task} {key : Nat}
    (hlinked : w.Linked) (hkeys : ∀ key, t.host? = some key → w.Has key) (hkey : w.Has key)
    (hother : ∀ u, t = .update key u → (w.host key).finished = true) :
    (w.host key).Hushes ((react w o t).world.host key) := by
  by_cases hruns : t.runs? = some key
  · cases t with
    | beginRun _ =>
        cases hruns
        rw [beginRun_sets.host_self]
        exact .silent rfl
    | confirmRun _ =>
        cases hruns
        cases hstopping : w.isStopping key with
        | true =>
            rw [(confirmRun_sets_refused hstopping).host_self]
            exact .silent rfl
        | false =>
            rw [(confirmRun_sets hkey hstopping).host_self]
            exact Host.announce_hushes _ _ _ .host rfl
    | update _ u =>
        cases hruns
        rw [update_idle u (hother u rfl)]
        exact .silent rfl
    | close _ origin =>
        cases hruns
        rw [(close_sets hkey origin).host_self]
        exact Host.announce_hushes { w.host key with timers := (w.host key).timers.cancelAll.2 } _ _
          .host rfl
    | finish _ origin =>
        cases hruns
        rw [(finish_sets hkey origin).host_self]
        exact Host.finishRun_omits _ _ _ rfl rfl rfl
    | _ => cases hruns
  · exact (react_works hlinked hkeys hruns hkey).hushes

theorem Log.earlier {α : Type} {kind : Nat → α → Prop} {a b n : Nat} {xs : List α}
    (hlog : Log kind a n xs) (hba : b ≤ a) (hnone : ∀ k, b ≤ k → k < a → ∀ x, ¬ kind k x) :
    Log kind b n xs := by
  induction hlog with
  | start => exact Log.start.idle hba hnone
  | quiet _ hquiet ih => exact ih.quiet hquiet
  | event _ hkind honly ih => exact ih.event hkind honly

namespace Behavior

variable {σ : Nat → Machine} (hσ : Behavior σ) {key a n : Nat}

include hσ

theorem signals_later (hnm : a ≤ n) (hkey : (σ a).world.Has key) :
    ((σ a).world.host key).signals <+: ((σ n).world.host key).signals := by
  induction hnm with
  | refl => exact List.prefix_rfl
  | @step n hnm ih =>
      refine ih.trans ?_
      rcases hσ.host_cases (hσ.has_later hnm hkey) with ⟨-, hbegin⟩ | hstride | hworks
      · exact hbegin ▸ List.prefix_rfl
      · exact hstride.signals ▸ List.prefix_rfl
      · exact hworks.signals

/-- An update that is sent is published. -/
theorem heard_of_sends {elapsed : Nat} (hsends : SendsUpdate σ key n elapsed) :
    Envelope.events (heard σ key n (n + 1)) = [.update (Binary.Single.ofSeconds elapsed)] := by
  obtain ⟨t, rest, hexec, hlive, hsum⟩ := hsends
  have hkey := (hσ.sound n).head hexec.agenda key rfl
  have hattached : ((σ n).world.host key).outlet.detached = false := by
    cases hcut : ((σ n).world.host key).outlet.detached with
    | false => rfl
    | true =>
        have hfinished := hσ.leashed n key hcut
        rw [hlive] at hfinished
        cases hfinished
  have hsaid := Host.announce_attached _ hattached (σ n).world.clock
    (.update (Task.delta (σ n).world t)) .host
  rw [← (Task.update_sets (o := (σ n).outcome) hkey t hlive).host_self, ← world_after hexec] at hsaid
  rw [heard_eq hsaid]
  have helapsed : (σ n).world.clock - t.last = elapsed := by omega
  rw [← helapsed]
  rfl

/-- The loop that sends an update is the first thing in its run that could. -/
theorem looping_of_update {t : Ticking} {rest : List Task}
    (hexec : Executes σ n (.update key t) rest) : ∃ b s, Underway σ key b n ∧ b < s ∧
      Looping σ key s n ∧ ∀ i, b ≤ i → i < s → ∀ elapsed, ¬ SendsUpdate σ key i elapsed := by
  obtain ⟨s, hsn, hstart, hgoes⟩ := hσ.started (.update t rfl) (suffix_of_executes hexec)
  obtain ⟨m, hms, hconfirm, -, -, hwaits⟩ := hσ.confirmed (suffix_of_executes hstart)
  obtain ⟨b, hbm, hbegin, hstuck⟩ := hσ.entered (suffix_of_executes hconfirm)
  have hplace : ∀ i, b < i → i ≤ s → ∃ x, x.part key = .inside ∧ (∀ u, x ≠ .update key u) ∧
      x :: rest <:+ (σ i).agenda := by
    intro i hbi his
    rcases Nat.lt_or_ge m i with hmi | him
    · exact ⟨_, Task.part_startTicking, nofun, hwaits i hmi his⟩
    · exact ⟨_, Task.part_confirmRun, nofun, Task.suffix_of_eq (hstuck i hbi him).1⟩
  refine ⟨b, s, ⟨by omega, rest, hbegin, fun i hbi hin => ?_⟩, by omega,
    ⟨hsn, t.origin, rest, hstart, hgoes⟩, fun i hbi his elapsed hsends => ?_⟩
  · rcases Nat.lt_or_ge s i with hsi | his
    · obtain ⟨x, hx, hxs⟩ := hgoes i hsi hin
      exact ⟨x, hx.inside, hxs⟩
    · obtain ⟨x, hx, -, hxs⟩ := hplace i hbi his
      exact ⟨x, hx, hxs⟩
  · obtain ⟨u, below, hupdate, -⟩ := hsends
    rcases Nat.lt_or_eq_of_le hbi with hbi | rfl
    · obtain ⟨x, hx, hother, hxs⟩ := hplace i hbi (Nat.le_of_lt his)
      have hsame := (hσ.executes_inside hx hxs (y := .update key u) (by simp [Task.part]) hupdate).1
      exact hother u hsame.symm
    · cases (hupdate.unique hbegin).1

/-- The time that an update tells has passed. -/
theorem past_of_update {t : Ticking} {rest : List Task}
    (hexec : Executes σ n (.update key t) rest) : t.last ≤ (σ n).world.clock := by
  obtain ⟨b, s, -, -, hloop, -⟩ := hσ.looping_of_update hexec
  obtain ⟨-, -, -, -, ticks, deltas, -, -, -, hticks, hdeltas, -⟩ := hloop.account hσ
  exact (hloop.account_of_executes hσ (by simp [Task.part]) hexec (if_pos rfl) hticks hdeltas).past

/-- An update is sent unless the host has stopped. -/
theorem sends_of_live {t : Ticking} {rest : List Task} (hexec : Executes σ n (.update key t) rest)
    (hlive : ((σ n).world.host key).finished = false) :
    SendsUpdate σ key n ((σ n).world.clock - t.last) :=
  ⟨t, rest, hexec, hlive, Nat.add_sub_of_le (hσ.past_of_update hexec)⟩

/-- In a step that sends no update none is heard. -/
theorem heard_unsent (hkey : (σ n).world.Has key)
    (hnone : ∀ elapsed, ¬ SendsUpdate σ key n elapsed) :
    (Envelope.events (heard σ key n (n + 1))).filter Event.isUpdate = [] := by
  have hhushes : ((σ n).world.host key).Hushes ((σ (n + 1)).world.host key) := by
    rcases hσ.host_step key n with hsame | ⟨t, rest, hexec, hworld⟩
    · exact .silent (by rw [hsame])
    · have hsound := hσ.sound n
      rw [hworld]
      refine Task.react_hushes_other hsound.linked (hsound.head hexec.agenda) hkey ?_
      rintro u rfl
      cases hlive : ((σ n).world.host key).finished with
      | true => rfl
      | false => exact absurd (hσ.sends_of_live hexec hlive) (hnone _)
  obtain ⟨es, hsaid, hother⟩ := hhushes
  rw [heard_eq hsaid]
  exact List.filter_eq_nil_iff.mpr fun event hevent => by simp [hother event hevent]

/-- The updates that are heard of a host are those that it sends. -/
theorem heard_updates {deltas : List Nat} (hkey : (σ a).world.Has key)
    (hdeltas : Log (SendsUpdate σ key) a n deltas) :
    (Envelope.events (heard σ key a n)).filter Event.isUpdate =
      deltas.map fun elapsed => .update (Binary.Single.ofSeconds elapsed) := by
  have hnext : ∀ {n xs}, Log (SendsUpdate σ key) a n xs →
      (Envelope.events (heard σ key a (n + 1))).filter Event.isUpdate =
        (Envelope.events (heard σ key a n)).filter Event.isUpdate ++
          (Envelope.events (heard σ key n (n + 1))).filter Event.isUpdate := by
    intro n xs hlog
    rw [hσ.heard_append hlog.le (Nat.le_succ n) hkey, Envelope.events_append, List.filter_append]
  induction hdeltas with
  | start =>
      rw [heard_eq (.silent rfl)]
      rfl
  | quiet hlog hnone ih =>
      rw [hnext hlog, ih, hσ.heard_unsent (hσ.has_later hlog.le hkey) hnone, List.append_nil]
  | event hlog hsends _ ih =>
      rw [hnext hlog, ih, hσ.heard_of_sends hsends, List.map_append]
      rfl

/-- After an update its signal is given to those that are connected, and then the loop goes on. -/
theorem gives_update {elapsed : Nat} (hsends : SendsUpdate σ key n elapsed) : ∃ t rest,
    (σ (n + 1)).agenda = .notify key (((σ n).world.host key).callbacks .update)
      [.number (Binary.Double.ofSingle (Binary.Single.ofSeconds elapsed))] ::
      .awaitTick key t :: rest := by
  obtain ⟨t, rest, hexec, hlive, hsum⟩ := hsends
  have hkey := (hσ.sound n).head hexec.agenda key rfl
  have hcrashed : (σ (n + 1)).world.crashed = false := by
    rw [world_after hexec, crashed_of_ties (Task.update_sets hkey t hlive).ties]
    exact (hσ.sound n).uncrashed hexec.agenda
  have hcallbacks := congrArg (Host.callbacks · .update)
    (publish_host (σ n).world key (.update (Task.delta (σ n).world t)) .host)
  obtain rfl : elapsed = (σ n).world.clock - t.last := by omega
  refine ⟨{ t with last := (σ n).world.clock }, rest, ?_⟩
  rw [after hexec hcrashed]
  simp only [Task.react, Task.sendUpdate, hlive, Bool.false_eq_true, if_false]
  dsimp only [Task.delta] at hcallbacks
  rw [hcallbacks]
  rfl

end Behavior

/-- How the updates of a host account for the time that its runs take. -/
structure UpdateAccounts (σ : Nat → Machine) (key : Nat) : Prop where
  /-- What an update tells is the time that has passed since the last one of its loop, and that is
  not in the future. -/
  timed : ∀ {n t rest}, Executes σ n (.update key t) rest →
    ((σ n).world.host key).finished = false →
    SendsUpdate σ key n ((σ n).world.clock - t.last)
  /-- An update is sent by the loop of a run. What it tells makes up the time since the loop has
  started, together with what the updates before it have told. -/
  summed : ∀ {n elapsed}, SendsUpdate σ key n elapsed → ∃ b s before, Underway σ key b n ∧ b < s ∧
    Looping σ key s n ∧ Log (SendsUpdate σ key) b n before ∧
    (σ s).world.clock + (before ++ [elapsed]).sum = (σ n).world.clock
  /-- The updates that are heard of a host are those that are sent, each once. -/
  published : ∀ {a n deltas}, (σ a).world.Has key → Log (SendsUpdate σ key) a n deltas →
    (Envelope.events (heard σ key a n)).filter Event.isUpdate =
      deltas.map fun elapsed => .update (Binary.Single.ofSeconds elapsed)
  /-- An update is given to the callbacks that are connected when it is published, before the loop
  goes on. Until then they are called one after the other, each once, and nobody else is. When the
  loop goes on all have been called. -/
  given : ∀ {n elapsed}, SendsUpdate σ key n elapsed → ∃ args t rest,
    args = [.number (Binary.Double.ofSingle (Binary.Single.ofSeconds elapsed))] ∧
    (σ (n + 1)).agenda = .notify key (((σ n).world.host key).callbacks .update) args ::
      .awaitTick key t :: rest ∧
    ∀ m, n < m → (σ m).world.crashed = false →
      (∀ i, n < i → i < m → (σ i).agenda ≠ .awaitTick key t :: rest) →
      ∃ called left, Log (Calls σ key args (.awaitTick key t :: rest)) (n + 1) m called ∧
        ((σ n).world.host key).callbacks .update = called ++ left ∧
        ((σ m).agenda = .awaitTick key t :: rest → left = [])
  /-- They are listed in the order in which they were connected. -/
  connected : ∀ {n m}, n ≤ m → (σ n).world.Has key →
    ((σ n).world.host key).callbacks .update <+: ((σ m).world.host key).callbacks .update

/-- The updates of every host account for all the time of its loops. -/
theorem updates_account {σ : Nat → Machine} (hσ : Behavior σ) (key : Nat) :
    UpdateAccounts σ key where
  timed := hσ.sends_of_live
  summed {n elapsed} hsends := by
    obtain ⟨t, rest, hexec, hlive, hsum⟩ := id hsends
    obtain ⟨b, s, hunderway, hbs, hloop, hnone⟩ := hσ.looping_of_update hexec
    obtain ⟨-, -, -, -, ticks, before, -, -, -, hticks, hdeltas, -⟩ := hloop.account hσ
    have haccount := hloop.account_of_executes hσ (by simp [Task.part]) hexec (if_pos rfl) hticks
      hdeltas
    refine ⟨b, s, before, hunderway, hbs, hloop, hdeltas.earlier (Nat.le_of_lt hbs) hnone, ?_⟩
    rcases haccount.last with hfinished | hlast
    · rw [hlive] at hfinished
      cases hfinished
    · rw [List.sum_append, List.sum_singleton]
      omega
  published := hσ.heard_updates
  given {n elapsed} hsends := by
    obtain ⟨t, rest, hagenda⟩ := hσ.gives_update hsends
    refine ⟨_, t, rest, rfl, hagenda, fun m hnm hcrashed hgoes => ?_⟩
    obtain ⟨called, left, hlog, hlist, hnotifying⟩ :=
      hσ.called_in_order hagenda hnm hcrashed hgoes
    exact ⟨called, left, hlog, hlist, hnotifying.nobody⟩
  connected hnm hkey := Host.callbacks_prefix (hσ.signals_later hnm hkey) .update

/-- The updates of a trace can be read off its agenda. -/
theorem Machine.sendsUpdate_trace {m : Machine} {key n elapsed : Nat}
    (hupdate : (m.trace n).agenda.head?.any (fun
      | .update other t => other = key ∧ t.last + elapsed = (m.trace n).world.clock
      | _ => false) = true)
    (hlive : ((m.trace n).world.host key).finished = false) :
    SendsUpdate m.trace key n elapsed := by
  obtain ⟨t, rest, hexec, ht⟩ := executes_trace_iff.mpr hupdate
  split at ht
  · obtain ⟨rfl, hsum⟩ := of_decide_eq_true ht
    exact ⟨_, rest, hexec, hlive, hsum⟩
  · cases ht

/-- A host is run whose program connects a callback to the updates. The callback sleeps and connects
another one. -/
def Machine.accounted : Machine :=
  .start (.start default [] [("body", [.inScript none (.connect .update (.native
      [.onWorld (.sleep 3), .inScript none (.connect .update (.native []))]))])] [] default)
    [.build ⟨"h", "body", "h.js", none, .withTickInterval 5, "", none, none, false, none, false, 2⟩
        [],
      .onHost (some "h") .run]

theorem Machine.accounted_behavior : Behavior accounted.trace :=
  trace_behavior ..

/-- The second update tells the time since the first one, and is given to one callback more. -/
theorem accounted_updates : SendsUpdate accounted.trace 0 20 0 ∧ SendsUpdate accounted.trace 0 37 5 ∧
    (((accounted.trace 20).world.host 0).callbacks .update).length = 2 ∧
    (((accounted.trace 37).world.host 0).callbacks .update).length = 3 ∧
    UpdateAccounts accounted.trace 0 :=
  ⟨sendsUpdate_trace (by decide +kernel) (by decide +kernel),
    sendsUpdate_trace (by decide +kernel) (by decide +kernel),
    by decide +kernel, by decide +kernel, updates_account accounted_behavior 0⟩

end TickHost
