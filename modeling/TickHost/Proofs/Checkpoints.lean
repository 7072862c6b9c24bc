import TickHost.Proofs.Pumps
import TickHost.Proofs.Requests

/-!
The checkpoints of a run. A stop flag may go up in the middle of anything: in the body, in a posted
task, in an include, in a callback of a timer or of an update, or because of somebody else between
two steps of a tick. Whatever it is comes to its end, and so does a flush or a streamed tick in
which a collaborator asked for the stop. From then on the run passes no checkpoint of its loop: it
fires no timer, starts no tick, flush or streaming and announces no update. It flushes the edits of
its host once more, when it ends.
-/

namespace TickHost

open World Machine

namespace Host

variable {stopping : Bool} {h h' h'' : Host}

/-- From one host to the next something was said, but no update. -/
def Hushes (h h' : Host) : Prop :=
  ∃ es, h.Says h' es ∧ ∀ event ∈ Envelope.events es, event.isUpdate = false

theorem Hushes.silent (hsame : h'.published = h.published) : h.Hushes h' :=
  Omits.silent hsame

theorem Hushes.trans (hfirst : h.Hushes h') (hsecond : h'.Hushes h'') : h.Hushes h'' :=
  Omits.trans hfirst hsecond

theorem announce_hushes (h : Host) (time : Nat) (event : Event) (source : Source)
    (hevent : event.isUpdate = false) : h.Hushes (h.announce time event source) :=
  announce_omits h time event source hevent

theorem Work.hushes (hwork : Work stopping h h') : h.Hushes h' := by
  cases hwork with
  | act hact =>
      refine hact.omits (fun event hordinary => ?_) rfl
      cases event <;> first | rfl | cases hordinary
  | conclude time result hadException => exact announce_hushes h time _ .script rfl
  | enter | leave | initialise => exact .silent rfl

/-- Work on a host announces no update. -/
theorem Works.hushes (hworks : Works stopping h h') : h.Hushes h' := by
  induction hworks with
  | refl => exact .silent rfl
  | tail _ hwork ih => exact ih.trans hwork.hushes

/-- A run announces updates only of a host that nobody has stopped. -/
theorem Stride.hushes (hstride : h.Stride stopping h') (hfinished : h'.finished = true) :
    h.Hushes h' := by
  cases hstride with
  | refuse _ | skip _ => exact .silent rfl
  | confirm time _ => exact announce_hushes h time .runningStateChanged .host rfl
  | update time delta hlive =>
      have hstill : h.finished = true := hfinished
      rw [hlive] at hstill
      cases hstill
  | close time =>
      exact announce_hushes { h with timers := h.timers.cancelAll.2 } time .scriptEnding .host rfl
  | finish time origin => exact finishRun_omits h time origin rfl rfl rfl

end Host

/-- No task after which a host has stopped announces an update of it. -/
theorem Task.react_hushes {w : World} {o : Outcome} {t : Task} {key : Nat} (hlinked : w.Linked)
    (hkeys : ∀ key, t.host? = some key → w.Has key) (hkey : w.Has key)
    (hfinished : ((react w o t).world.host key).finished = true) :
    (w.host key).Hushes ((react w o t).world.host key) := by
  rcases react_cases (o := o) hlinked hkeys hkey with rfl | hstride | hworks
  · rw [beginRun_sets.host_self]
    exact .silent rfl
  · exact hstride.hushes hfinished
  · exact hworks.hushes

/-- A timer of the host is fired: its callback is what comes next. -/
def Invokes (σ : Nat → Machine) (key : Nat) (callback : Callback) (n : Nat) : Prop :=
  ∃ now id due rest tail, Executes σ n (.fire key now (id :: due)) rest ∧
    (σ (n + 1)).agenda = .call key callback [] :: tail

/-- The flush of a tick is begun: the tick goes on with its streaming afterwards. -/
def TickFlushes (σ : Nat → Machine) (key n : Nat) : Prop :=
  ∃ t u, Passes σ n (.flush key t) (.stream key u)

/-- A tick of the avatar is streamed: the tick goes on with its update afterwards. -/
def Streams (σ : Nat → Machine) (key n : Nat) : Prop :=
  ∃ t u, Passes σ n (.stream key t) (.update key u)

/-- The edits of the host are flushed, in a tick or at the end of a run. -/
def Flushing (σ : Nat → Machine) (key n : Nat) : Prop :=
  TickFlushes σ key n ∨ ∃ rest, Executes σ n (.lastFlush key) rest

variable {σ : Nat → Machine} {key b n : Nat}

/-- A run that is under way when it finishes is a whole run. -/
theorem Underway.run {origin : String} (h : Underway σ key b n) (hσ : Behavior σ)
    (hfinishes : Finishes σ key origin n) : Run σ key origin b n :=
  ⟨h.begins, hfinishes, h.1, fun i hbi hin => h.not_begins hσ i hbi (Nat.le_of_lt hin)⟩

namespace Behavior

variable (hσ : Behavior σ)

include hσ

/-- Over steps after each of which a host has stopped no update of it is heard. -/
theorem hushes {m : Nat} (hnm : n ≤ m) (hkey : (σ n).world.Has key)
    (hfinished : ∀ i, n < i → i ≤ m → ((σ i).world.host key).finished = true) :
    ((σ n).world.host key).Hushes ((σ m).world.host key) := by
  induction hnm with
  | refl => exact .silent rfl
  | @step m hnm ih =>
      have hbefore := ih fun i hni him => hfinished i hni (Nat.le_succ_of_le him)
      apply hbefore.trans
      have hlast := hfinished (m + 1) (Nat.lt_succ_of_le hnm) (Nat.le_refl _)
      rcases hσ.host_step key m with hsame | ⟨t, rest, hexec, hworld⟩
      · exact .silent (by rw [hsame])
      · have hsound := hσ.sound m
        rw [hworld] at hlast ⊢
        exact Task.react_hushes hsound.linked (hsound.head hexec.agenda)
          (hσ.has_later hnm hkey) hlast

/-- A host that has stopped fires no timer, even if it was due. -/
theorem not_invokes (hfinished : ((σ n).world.host key).finished = true) (callback : Callback) :
    ¬ Invokes σ key callback n := by
  rintro ⟨now, id, due, rest, tail, hexec, hcalls⟩
  obtain ⟨p, ticking, below, -, -, hflush, -⟩ :=
    hσ.pump_begun (x := .fire key now (id :: due)) rfl (suffix_of_executes hexec)
  have hreact : Task.react (σ n).world (σ n).outcome (.fire key now (id :: due)) =
      ⟨(σ n).world, (σ n).outcome, []⟩ := by
    simp [Task.react, Task.fireOne, hfinished]
  have hcrashed := (hσ.sound n).uncrashed hexec.agenda
  rw [after hexec (by rw [world_after hexec, hreact]; exact hcrashed), hreact, hflush] at hcalls
  cases hcalls

theorem not_tickFlushes (hfinished : ((σ n).world.host key).finished = true) :
    ¬ TickFlushes σ key n := by
  rintro ⟨t, u, hpasses⟩
  exact hσ.not_passes (.flush t rfl) (by simp) (by simp) hfinished hpasses

theorem not_streams (hfinished : ((σ n).world.host key).finished = true) : ¬ Streams σ key n := by
  rintro ⟨t, u, hpasses⟩
  exact hσ.not_passes (.stream t rfl) (by simp) (by simp) hfinished hpasses

/-- The callback of a timer that was fired before the stop flag goes up has been called by then. -/
theorem called_by_rise {i q : Nat} {callback : Callback} (hinvokes : Invokes σ key callback i)
    (hiq : i < q) (hdown : ((σ q).world.host key).finished = false)
    (hup : ((σ (q + 1)).world.host key).finished = true) :
    ∃ j tail, i < j ∧ j ≤ q ∧ Executes σ j (.call key callback []) tail := by
  obtain ⟨now, id, due, rest, tail, -, hcalls⟩ := hinvokes
  rcases hσ.stuck_until rfl rfl hcalls hiq with ⟨hstuck, -⟩ | ⟨j, hij, hjq, hdone, -⟩
  · -- the flag goes up in a step that is executed, and this can only be the call
    rcases hσ.host_step key q with hsame | ⟨t, below, hexec, -⟩
    · rw [hsame, hdown] at hup
      cases hup
    · have hheads := hexec.agenda.symm.trans hstuck
      cases hheads
      exact ⟨q, tail, hiq, Nat.le_refl q, hexec⟩
  · exact ⟨j, tail, hij, Nat.le_of_lt hjq, hdone⟩

/-- The last flush of a run stands above the end of the run. -/
theorem last_flush {rest : List Task} (hunderway : Underway σ key b n)
    (hexec : Executes σ n (.lastFlush key) rest) : ∃ c origin below, c < n ∧
      Executes σ c (.close key origin) below ∧ Executes σ b (.beginRun key) below ∧
      rest = .finish key origin :: below ∧
      (∀ i, c < i → i ≤ n → .lastFlush key :: rest <:+ (σ i).agenda) ∧
      ∀ i, b < i → i ≤ n → ∃ x : Task, x.part key = .inside ∧ x :: below <:+ (σ i).agenda := by
  obtain ⟨hbn, under, hbegin, hgoes⟩ := hunderway
  obtain ⟨c, origin, below, hcn, hclose, rfl, hstays⟩ := hσ.flush_pushed (suffix_of_executes hexec)
  obtain ⟨x, hinside, hsuffix⟩ := hgoes n hbn (Nat.le_refl n)
  have hend : .finish key origin :: below <:+ (σ n).agenda := by
    rw [hexec.agenda]
    exact List.suffix_cons _ _
  have hplace := hσ.inside_unique hinside Task.part_finish hsuffix hend
  cases hplace
  exact ⟨c, origin, under, hcn, hclose, hbegin, rfl, hstays, hgoes⟩

/-- A run flushes the edits of its host once when it ends. -/
theorem last_flush_once {i : Nat} {above below : List Task} (hunderway : Underway σ key b n)
    (hbi : b < i) (hin : i < n) (hfirst : Executes σ i (.lastFlush key) above) :
    ¬ Executes σ n (.lastFlush key) below := by
  intro hsecond
  obtain ⟨-, origin, rest, -, -, hbegin, rfl, -, -⟩ :=
    hσ.last_flush (hunderway.earlier hbi (Nat.le_of_lt hin)) hfirst
  obtain ⟨c, origin', rest', hcn, hclose, hbegin', rfl, hstays, hgoes⟩ :=
    hσ.last_flush hunderway hsecond
  have hrest := hbegin.agenda.symm.trans hbegin'.agenda
  cases hrest
  have hcrashed : ∀ k, k ≤ n → (σ k).world.crashed = false := fun k hkn =>
    hσ.uncrashed hkn ((hσ.sound n).uncrashed hsecond.agenda)
  have hflushed : (σ (i + 1)).agenda = .finish key origin :: rest :=
    after hfirst (hcrashed (i + 1) hin)
  rcases Nat.lt_trichotomy c i with hci | rfl | hic
  · -- the second flush would have been waiting below the first
    have hwaits := hstays (i + 1) (by omega) hin
    rw [hflushed] at hwaits
    have hlength := hwaits.length_le
    simp only [List.length_cons] at hlength
    omega
  · have hheads := hclose.agenda.symm.trans hfirst.agenda
    cases hheads
  · -- the run is closed a second time, when only its end was left
    have hend := Task.suffix_of_eq hflushed
    rcases hσ.stays_or_popped rfl hend hic (hcrashed c (Nat.le_of_lt hcn)) with
      hthere | ⟨p, hip, hpc, hfinish, -⟩
    · cases Task.same_place (hthere c hic (Nat.le_refl c)) (suffix_of_executes hclose)
    · have hover := after hfinish (hcrashed (p + 1) (by omega))
      obtain ⟨x, -, hsuffix⟩ := hgoes (p + 1) (by omega) (by omega)
      rw [hover] at hsuffix
      exact Task.not_suffix_self hsuffix

/-- Of a run whose host has stopped there is no flush but the last. -/
theorem flushing_unique {i j : Nat} (hbi : b < i) (hbj : b < j) (hi : Underway σ key b i)
    (hj : Underway σ key b j) (hupi : ((σ i).world.host key).finished = true)
    (hupj : ((σ j).world.host key).finished = true) (hflushi : Flushing σ key i)
    (hflushj : Flushing σ key j) : i = j := by
  have hlast : ∀ n, ((σ n).world.host key).finished = true → Flushing σ key n →
      ∃ rest, Executes σ n (.lastFlush key) rest := by
    intro n hfinished hflushing
    rcases hflushing with htick | hlast
    · exact absurd htick (hσ.not_tickFlushes hfinished)
    · exact hlast
  obtain ⟨above, hfirst⟩ := hlast i hupi hflushi
  obtain ⟨below, hsecond⟩ := hlast j hupj hflushj
  rcases Nat.lt_trichotomy i j with hij | heq | hji
  · exact absurd hsecond (hσ.last_flush_once hj hbi hij hfirst)
  · exact heq
  · exact absurd hfirst (hσ.last_flush_once hi hbj hji hsecond)

/-- A run that finishes was closed after its stop flag went up, and its edits were flushed after
that. -/
theorem flushed_when_finished {q e : Nat} {origin : String} (hq : Underway σ key b q)
    (hdown : ((σ q).world.host key).finished = false) (he : Underway σ key b e)
    (hfinishes : Finishes σ key origin e) : ∃ c f, q < c ∧ c < f ∧ f < e ∧
      (∃ rest, Executes σ c (.close key origin) rest) ∧
      ∃ rest, Executes σ f (.lastFlush key) rest := by
  obtain ⟨rest, m, s, a, c, ht⟩ := (he.run hσ hfinishes).timeline hσ
  obtain ⟨hbm, hms, hsa, hac, hce⟩ := ht.order
  obtain ⟨r, hmr, hrc, hflag⟩ := ht.requested hσ
  have hqr : q ≤ r := by
    apply Nat.le_of_not_lt
    intro hrq
    have hraised : ((σ (r + 1)).world.host key).finished = true := by
      rw [hflag (r + 1) (by omega) (by omega), decide_eq_true (Nat.lt_succ_self r)]
    rw [hq.stays_finished hσ (by omega) hrq hraised] at hdown
    cases hdown
  obtain ⟨f, hcf, hfe, -, hflush⟩ := ht.flushed hσ
  exact ⟨c, f, Nat.lt_of_le_of_lt hqr hrc, hcf, hfe, ⟨rest, ht.closes⟩, _, hflush⟩

end Behavior

/-- What becomes of the run that began at `b` after its stop flag went up in the step `q`, until it
returns. -/
structure WindsDown (σ : Nat → Machine) (key b q : Nat) : Prop where
  /-- No timer is fired any more. -/
  timers : ∀ n callback, q < n → Underway σ key b n → ¬ Invokes σ key callback n
  /-- No callback of a timer that was fired before is still to be called. -/
  called : ∀ n callback, n < q → Invokes σ key callback n →
    ∃ j tail, n < j ∧ j ≤ q ∧ Executes σ j (.call key callback []) tail
  ticks : ∀ n, q < n → Underway σ key b n → ¬ Ticks σ key n
  streams : ∀ n, q < n → Underway σ key b n → ¬ Streams σ key n
  flushes : ∀ n, q < n → Underway σ key b n → ¬ TickFlushes σ key n
  /-- No update is announced any more. -/
  updates : ∀ n, q < n → Underway σ key b n →
    ∀ event ∈ Envelope.events (heard σ key q (n + 1)), event.isUpdate = false
  /-- As far as the run has got, the edits were flushed at most once. -/
  once : ∀ i j, q < i → q < j → Underway σ key b i → Underway σ key b j → Flushing σ key i →
    Flushing σ key j → i = j
  /-- When the run returns they were flushed once, after it was closed. -/
  returns : ∀ origin e, Underway σ key b e → Finishes σ key origin e → ∃ c f, q < c ∧ c < f ∧
    f < e ∧ (∃ rest, Executes σ c (.close key origin) rest) ∧ Flushing σ key f ∧
    (σ (f + 1)).world = (σ f).world.flushEdits key ∧
    ∀ i, q < i → i ≤ e → Flushing σ key i → i = f

/-- A host with a queue of edits whose timer stops it in the second tick. -/
def Machine.edited : Machine :=
  .start (.start default [] [("body",
      [.inScript none (.timeout "a" (.native [.inScript none .stop]) 10)])] [] default)
    [.build ⟨"h", "body", "h.js", none, .standard, "", none, none, false, some ⟨true, false⟩, false,
        3⟩ [],
      .onHost (some "h") .run]

end TickHost
