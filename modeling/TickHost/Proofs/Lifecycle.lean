import TickHost.Proofs.Spans

/-!
The life of a run. From the task that finishes a run its whole timeline can be told: when it began,
was confirmed, started to tick, left its loop, and closed. The events of the host between those
moments form a fixed language, as long as the host is not cut off: nobody but the run announces its
beginning, its updates and its end, and nobody but the first stop request announces a change in
between.
-/

namespace TickHost

open World Machine

namespace Host

variable {h : Host} (hattached : h.outlet.detached = false) (time : Nat)

include hattached

theorem says_closeRun : h.Says (h.closeRun time)
    [⟨.new h.outlet.host h.outlet.sent.size, time, .host, .scriptEnding⟩] :=
  announce_attached { h with timers := h.timers.cancelAll.2 } hattached time .scriptEnding .host

/-- The three events that end a run are numbered one after the other. -/
theorem says_finishRun (origin : String) : h.Says (h.finishRun time origin)
    [⟨.new h.outlet.host h.outlet.sent.size, time, .host, .finished origin⟩,
      ⟨.new h.outlet.host (h.outlet.sent.size + 1), time, .host, .runningStateChanged⟩,
      ⟨.new h.outlet.host (h.outlet.sent.size + 2), time, .host, .doneRunning⟩] := by
  simp [Says, finishRun, published, announce, endRun, markDone, Outlet.publish, hattached]

end Host

/-- The moments of a run that finishes, and what it goes on with between them. -/
structure Timeline (σ : Nat → Machine) (key : Nat) (origin : String) (rest : List Task)
    (b m s a c e : Nat) : Prop where
  begins : Executes σ b (.beginRun key) rest
  entering : ∀ i, b < i → i ≤ m → (σ i).agenda = .confirmRun key :: rest ∧
    Interrupts.Same (σ (b + 1)).world (σ i).world
  confirms : Executes σ m (.confirmRun key) rest
  permitted : (σ m).world.isStopping key = false
  label : origin = ((σ m).world.host key).script.origin
  body : ∀ i, m < i → i ≤ s → .startTicking key origin :: rest <:+ (σ i).agenda
  starts : Executes σ s (.startTicking key origin) rest
  ticking : ∀ i, s < i → i ≤ a → ∃ y, Task.Loops key origin y ∧ y :: rest <:+ (σ i).agenda
  leaves : ∃ y, Task.Loops key origin y ∧ Executes σ a y rest
  asked : ((σ a).world.host key).finished = true
  closing : ∀ i, a < i → i ≤ c → .close key origin :: rest <:+ (σ i).agenda
  closes : Executes σ c (.close key origin) rest
  ending : ∀ i, c < i → i ≤ e → .finish key origin :: rest <:+ (σ i).agenda
  finishes : Executes σ e (.finish key origin) rest
  order : b < m ∧ m < s ∧ s < a ∧ a < c ∧ c < e

section Timeline

variable {σ : Nat → Machine} {key : Nat} {origin : String} {rest : List Task}
  {b m s a c e : Nat}

/-- Every run that finishes has a timeline. -/
theorem Behavior.timeline (hσ : Behavior σ) (hfinish : Executes σ e (.finish key origin) rest) :
    ∃ b m s a c, Timeline σ key origin rest b m s a c e := by
  obtain ⟨c, hce, hclose, hending⟩ := hσ.closed (suffix_of_executes hfinish)
  obtain ⟨a, x, hac, hloops, hleave, hasked, hclosing⟩ := hσ.left (suffix_of_executes hclose)
  obtain ⟨s, hsa, hstart, hticking⟩ := hσ.started hloops (suffix_of_executes hleave)
  obtain ⟨m, hms, hconfirm, hopen, horigin, hbody⟩ := hσ.confirmed (suffix_of_executes hstart)
  obtain ⟨b, hbm, hbegin, hentering⟩ := hσ.entered (suffix_of_executes hconfirm)
  exact ⟨b, m, s, a, c, hbegin, hentering, hconfirm, hopen, horigin, hbody, hstart, hticking,
    ⟨x, hloops, hleave⟩, hasked, hclosing, hclose, hending, hfinish, hbm, hms, hsa, hac, hce⟩

namespace Timeline

variable (ht : Timeline σ key origin rest b m s a c e)

include ht

/-- From its beginning to its end the run always goes on with some task. -/
theorem goes (i : Nat) (hbi : b < i) (hie : i ≤ e) :
    ∃ y : Task, y.part key = .inside ∧ y :: rest <:+ (σ i).agenda := by
  rcases Nat.lt_or_ge m i with hmi | him
  · rcases Nat.lt_or_ge s i with hsi | his
    · rcases Nat.lt_or_ge a i with hai | hia
      · rcases Nat.lt_or_ge c i with hci | hic
        · exact ⟨_, Task.part_finish, ht.ending i hci hie⟩
        · exact ⟨_, Task.part_close, ht.closing i hai hic⟩
      · obtain ⟨y, hloops, hsuffix⟩ := ht.ticking i hsi hia
        exact ⟨y, hloops.inside, hsuffix⟩
    · exact ⟨_, Task.part_startTicking, ht.body i hmi his⟩
  · exact ⟨_, Task.part_confirmRun, Task.suffix_of_eq (ht.entering i hbi him).1⟩

/-- No other run of the host begins before this one ends. -/
theorem not_begins (hσ : Behavior σ) (i : Nat) (hbi : b < i) (hie : i ≤ e) : ¬ Begins σ key i := by
  rintro ⟨below, hbegin⟩
  obtain ⟨y, hinside, hsuffix⟩ := ht.goes i hbi hie
  exact hσ.not_begin hinside hsuffix hbegin.agenda

theorem has (hσ : Behavior σ) : (σ b).world.Has key :=
  (hσ.sound b).head ht.begins.agenda key rfl

/-- Nothing comes between the beginning of the run and its confirmation. -/
theorem host_entering (i : Nat) (hbi : b < i) (him : i ≤ m) :
    (σ i).world.host key = ((σ b).world.host key).beginRun := by
  rw [(ht.entering i hbi him).2.host, Behavior.world_after ht.begins]
  exact Task.beginRun_sets.host_self

/-- The run is known under the origin that the host had when it began. -/
theorem origin_of_begin : origin = ((σ b).world.host key).script.origin := by
  rw [ht.label, ht.host_entering m ht.order.1 (Nat.le_refl m)]
  rfl

/-! What is heard in each part of the run. -/

theorem heard_entering : heard σ key b m = [] := by
  refine Behavior.heard_eq (.silent ?_)
  rw [ht.host_entering m ht.order.1 (Nat.le_refl m)]
  rfl

theorem host_confirmed (hσ : Behavior σ) : (σ (m + 1)).world.host key =
    ((σ m).world.host key).announce (σ m).world.clock .runningStateChanged .host := by
  have hkey := (hσ.sound m).head ht.confirms.agenda key rfl
  rw [Behavior.world_after ht.confirms]
  exact (Task.confirmRun_sets hkey ht.permitted).host_self

theorem live (hσ : Behavior σ) : ((σ (m + 1)).world.host key).finished = false := by
  rw [ht.host_confirmed hσ, ht.host_entering m ht.order.1 (Nat.le_refl m)]
  rfl

theorem heard_confirming (hσ : Behavior σ)
    (hattached : ((σ m).world.host key).outlet.detached = false) :
    Envelope.events (heard σ key m (m + 1)) = [.runningStateChanged] := by
  have hsaid := Host.announce_attached _ hattached (σ m).world.clock .runningStateChanged .host
  rw [← ht.host_confirmed hσ] at hsaid
  rw [Behavior.heard_eq hsaid]
  rfl

/-- The body is evaluated without any update. -/
theorem speaks_body (hσ : Behavior σ) (i : Nat) (hmi : m < i) (his : i ≤ s)
    (hattached : ((σ (i + 1)).world.host key).outlet.detached = false) :
    Speaks σ key Event.isInner i (i + 1) :=
  Behavior.speaks_of_works
    (hσ.works_at Task.part_startTicking (ht.body i hmi his) fun _ => nofun) hattached

theorem speaks_ticking (hσ : Behavior σ) (i : Nat) (hsi : s < i) (hia : i ≤ a)
    (hattached : ((σ (i + 1)).world.host key).outlet.detached = false) :
    Speaks σ key Event.isTicking i (i + 1) := by
  obtain ⟨y, hloops, hsuffix⟩ := ht.ticking i hsi hia
  by_cases hupdate : Executes σ i y rest ∧ y.runs? = some key
  · obtain ⟨hexec, hruns⟩ := hupdate
    have hkey := hσ.has_of_inside hloops.inside hsuffix
    cases hloops with
    | update t horigin =>
        cases hfinished : ((σ i).world.host key).finished with
        | true =>
            have hsame : (σ (i + 1)).world.host key = (σ i).world.host key := by
              rw [Behavior.world_after hexec, Task.update_idle t hfinished]
            rw [Speaks, Behavior.heard_same hsame, hsame]
            exact .silent _
        | false =>
            have hhost : (σ (i + 1)).world.host key = ((σ i).world.host key).announce
                (σ i).world.clock (.update (Task.delta (σ i).world t)) .host := by
              rw [Behavior.world_after hexec]
              exact (Task.update_sets hkey t hfinished).host_self
            rw [hhost, Host.announce_cut] at hattached
            have hsaid := Host.announce_attached _ hattached (σ i).world.clock
              (.update (Task.delta (σ i).world t)) .host
            rw [← hhost] at hsaid
            have hstill : ((σ (i + 1)).world.host key).finished = false := by
              rw [hhost]
              exact hfinished
            rw [Speaks, Behavior.heard_eq hsaid, hstill, hfinished]
            rfl
    | awaitTick | pump | flush | stream => cases hruns
  · have hworks := hσ.works_at hloops.inside hsuffix fun hexec hruns => hupdate ⟨hexec, hruns⟩
    exact (Behavior.speaks_of_works hworks hattached).mono fun e he => by
      simp [Event.isTicking, he]

/-- Until the run is closed its loop is left. -/
theorem speaks_closing (hσ : Behavior σ) (i : Nat) (hai : a < i) (hic : i < c)
    (hattached : ((σ (i + 1)).world.host key).outlet.detached = false) :
    Speaks σ key Event.isInner i (i + 1) := by
  refine Behavior.speaks_of_works
    (hσ.works_at Task.part_close (ht.closing i hai (Nat.le_of_lt hic)) fun hexec => ?_) hattached
  exfalso
  -- a run that is closed goes on with its end
  have hlater := ht.closing (i + 1) (Nat.lt_succ_of_lt hai) hic
  rw [Behavior.after hexec (hσ.uncrashed_of_suffix hlater)] at hlater
  have hend : Task.finish key origin :: rest <:+
      (Task.react (σ i).world (σ i).outcome (.close key origin)).next ++ rest :=
    List.suffix_append [_, _] _
  cases Task.same_place hlater hend

theorem speaks_ending (hσ : Behavior σ) (i : Nat) (hci : c < i) (hie : i < e)
    (hattached : ((σ (i + 1)).world.host key).outlet.detached = false) :
    Speaks σ key Event.isInner i (i + 1) := by
  refine Behavior.speaks_of_works
    (hσ.works_at Task.part_finish (ht.ending i hci (Nat.le_of_lt hie)) fun hexec => ?_) hattached
  exfalso
  have hlater := ht.ending (i + 1) (Nat.lt_succ_of_lt hci) hie
  rw [Behavior.after hexec (hσ.uncrashed_of_suffix hlater)] at hlater
  exact Task.not_suffix_self hlater

theorem host_closed (hσ : Behavior σ) : (σ (c + 1)).world.host key =
    ((σ c).world.host key).closeRun (σ c).world.clock := by
  have hkey := (hσ.sound c).head ht.closes.agenda key rfl
  rw [Behavior.world_after ht.closes]
  exact (Task.close_sets hkey origin).host_self

theorem host_finished (hσ : Behavior σ) : (σ (e + 1)).world.host key =
    ((σ e).world.host key).finishRun (σ e).world.clock origin := by
  have hkey := (hσ.sound e).head ht.finishes.agenda key rfl
  rw [Behavior.world_after ht.finishes]
  exact (Task.finish_sets hkey origin).host_self

theorem heard_closed (hσ : Behavior σ)
    (hattached : ((σ c).world.host key).outlet.detached = false) :
    Envelope.events (heard σ key c (c + 1)) = [.scriptEnding] := by
  have hsaid := ((σ c).world.host key).says_closeRun hattached (σ c).world.clock
  rw [← ht.host_closed hσ] at hsaid
  rw [Behavior.heard_eq hsaid]
  rfl

/-- The last three events of a run have consecutive numbers. -/
theorem heard_finished (hσ : Behavior σ)
    (hattached : ((σ e).world.host key).outlet.detached = false) :
    ∃ id n time, heard σ key e (e + 1) =
      [⟨.new id n, time, .host, .finished origin⟩,
        ⟨.new id (n + 1), time, .host, .runningStateChanged⟩,
        ⟨.new id (n + 2), time, .host, .doneRunning⟩] := by
  have hsaid := ((σ e).world.host key).says_finishRun hattached (σ e).world.clock origin
  rw [← ht.host_finished hσ] at hsaid
  exact ⟨_, _, _, Behavior.heard_eq hsaid⟩

/-- The stop flag of the run: it is raised once, after the confirmation and before the loop is
left. -/
theorem requested (hσ : Behavior σ) : ∃ q, m < q ∧ q < c ∧
    ∀ i, b < i → i ≤ e → ((σ i).world.host key).finished = decide (q < i) := by
  obtain ⟨hbm, hms, hsa, hac, hce⟩ := ht.order
  have hkept : ∀ i j, b < i → i ≤ j → j ≤ e → ((σ i).world.host key).finished = true →
      ((σ j).world.host key).finished = true := fun i j hbi hij hje =>
    hσ.finished_later hij (hσ.has_later (Nat.le_of_lt hbi) (ht.has hσ)) fun k hik hkj =>
      ht.not_begins hσ k (Nat.lt_of_lt_of_le hbi hik) (Nat.le_of_lt (Nat.lt_of_lt_of_le hkj hje))
  obtain ⟨q, hmq, hqa, hlive, hraised⟩ := exists_rise
    (fun i => ((σ i).world.host key).finished) (Nat.lt_trans hms hsa) (ht.live hσ) ht.asked
  refine ⟨q, hmq, by omega, fun i hbi hie => ?_⟩
  rcases Nat.lt_or_ge q i with hqi | hiq
  · rw [hkept (q + 1) i (by omega) hqi hie hraised]
    simp [hqi]
  · cases hfinished : ((σ i).world.host key).finished with
    | false => simp [Nat.not_lt.mpr hiq]
    | true =>
        have hlater := hkept i q hbi hiq (by omega) hfinished
        exact absurd ((hlive q hmq (Nat.le_refl q)).symm.trans hlater) Bool.false_ne_true

end Timeline

end Timeline

end TickHost
