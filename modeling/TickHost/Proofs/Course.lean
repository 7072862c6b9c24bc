import TickHost.Proofs.Lifecycle

/-!
The course of a run that is never cut off. Whatever its body, timers, callbacks, includes and
posted tasks do, the events of the host from the beginning of the run to its end are those of one
language, the callbacks that were connected to the end of the run are called in turn, and after
them the entity edits are flushed once.
-/

namespace TickHost

open World Machine

/-- A whole run of a host: it begins at `b`, finishes at `e` and is the only one to begin
meanwhile. -/
structure Run (σ : Nat → Machine) (key : Nat) (origin : String) (b e : Nat) : Prop where
  begins : Begins σ key b
  finishes : Finishes σ key origin e
  order : b < e
  whole : ∀ i, b < i → i < e → ¬ Begins σ key i

/-- Callbacks are called one after the other, from one moment to another. -/
def CalledInTurn (σ : Nat → Machine) (key : Nat) (args : List Value) :
    List Callback → Nat → Nat → Prop
  | [], n, m => n ≤ m
  | callback :: rest, n, m => ∃ i below, n ≤ i ∧ i < m ∧
      Executes σ i (.call key callback args) below ∧ CalledInTurn σ key args rest (i + 1) m

/-- The entity edits of a host are flushed in this step, by a tick or at the end of a run. -/
def Flushes (σ : Nat → Machine) (key n : Nat) : Prop :=
  ∃ rest, Executes σ n (.lastFlush key) rest ∨ ∃ t, Executes σ n (.flush key t) rest

/-- The course of a run from `b` to `e` that is never cut off: the body is over at `s`, a stop is
requested at `q`, the run is closed at `c`, and the edits are flushed at `f`. -/
structure Course (σ : Nat → Machine) (key : Nat) (origin : String) (b s q c f e : Nat) : Prop where
  order : b < s ∧ s < c ∧ b < q ∧ q < c ∧ c < f ∧ f < e
  label : origin = ((σ b).world.host key).script.origin
  /-- The body is evaluated before `s`, and the run ticks from then on. -/
  body : ∃ d rest, b < d ∧ d < s ∧
    Executes σ d (.evaluate key ((σ b).world.host key).script.contents origin 1)
      (.startTicking key origin :: rest) ∧
    Executes σ s (.startTicking key origin) rest
  requested : ∀ i, b < i → i ≤ e → ((σ i).world.host key).finished = decide (q < i)
  /-- All that the host publishes from the beginning of the run to its end. -/
  language : ∃ before after closing,
    Envelope.events (heard σ key b (e + 1)) =
      .runningStateChanged :: before ++ .runningStateChanged :: after ++
        .scriptEnding :: closing ++ [.finished origin, .runningStateChanged, .doneRunning] ∧
    before.all Event.isTicking = true ∧ after.all Event.isInner = true ∧
    closing.all Event.isInner = true
  /-- No update before the body is over, and none after the stop was requested. -/
  updates : (∀ event ∈ Envelope.events (heard σ key b s), event.isUpdate = false) ∧
    ∀ event ∈ Envelope.events (heard σ key (q + 1) (e + 1)), event.isUpdate = false
  /-- The second change of state is announced by the stop request. -/
  announced : Event.runningStateChanged ∈ Envelope.events (heard σ key q (q + 1))
  closes : Envelope.events (heard σ key c (c + 1)) = [.scriptEnding]
  notified : CalledInTurn σ key [] (((σ (c + 1)).world.host key).callbacks .scriptEnding) (c + 1) f
  flushed : (σ (f + 1)).world = (σ f).world.flushEdits key
  flushedOnce : ∀ i, c < i → i < e → Flushes σ key i → i = f
  /-- The last three events have consecutive numbers. -/
  ending : ∃ id n time, heard σ key e (e + 1) =
    [⟨.new id n, time, .host, .finished origin⟩,
      ⟨.new id (n + 1), time, .host, .runningStateChanged⟩,
      ⟨.new id (n + 2), time, .host, .doneRunning⟩]

namespace Speech

variable {early : Event → Bool} {a b : Bool} {es : List Event}

/-- Where there are no early updates there are none at all. -/
theorem not_isUpdate (hearly : ∀ e, early e = true → e.isUpdate = false)
    (h : Speech early a b es) : ∀ e ∈ es, e.isUpdate = false := by
  have hinner : ∀ e : Event, e.isInner = true → e.isUpdate = false := by
    intro e he
    cases e <;> first | rfl | cases he
  intro e he
  cases a <;> cases b <;> simp only [Speech] at h
  · exact hearly e (List.all_eq_true.mp h e he)
  · obtain ⟨before, after, rfl, hbefore, hafter⟩ := h
    rcases List.mem_append.mp he with he | he
    · exact hearly e (List.all_eq_true.mp hbefore e he)
    · rcases List.mem_cons.mp he with rfl | he
      · rfl
      · exact hinner e (List.all_eq_true.mp hafter e he)
  · exact hinner e (List.all_eq_true.mp h e he)

theorem not_isUpdate_of_inner (h : Speech Event.isInner a b es) :
    ∀ e ∈ es, e.isUpdate = false := by
  refine not_isUpdate (fun e he => ?_) h
  cases e <;> first | rfl | cases he

end Speech

/-- Only the end of a run puts the last flush of it on the agenda. -/
theorem Task.closes_of_flush {w : World} {o : Outcome} {t : Task} {key : Nat}
    (hmem : .lastFlush key ∈ (t.react w o).next) : ∃ origin, t = .close key origin := by
  have hsequel := react_sequel w o t
  generalize (t.react w o).next = next at hsequel hmem
  cases hsequel with
  | close k origin callbacks =>
      obtain rfl : key = k := by simpa using hmem
      exact ⟨origin, rfl⟩
  | perform scope action actions hbegun => cases hbegun <;> simp at hmem
  | _ => simp at hmem

variable {σ : Nat → Machine} {key : Nat} {origin : String} {rest : List Task}

namespace Behavior

variable (hσ : Behavior σ)

include hσ

/-- The callbacks of a host that are to be called are called before what comes below them. -/
theorem notified (callbacks : List Callback) (args : List Value) {tail : List Task} {n m : Nat}
    (hsuffix : .notify key callbacks args :: tail <:+ (σ n).agenda) (hnm : n ≤ m)
    (hagenda : (σ m).agenda = tail) (hcrashed : (σ m).world.crashed = false) :
    CalledInTurn σ key args callbacks n m := by
  -- what lies above the tail at first is gone when the tail is all there is
  have hgone : ∀ x above, ¬ x :: (above ++ tail) <:+ (σ m).agenda := by
    intro x above h
    have hlength := h.length_le
    rw [hagenda] at hlength
    simp only [List.length_cons, List.length_append] at hlength
    omega
  induction callbacks generalizing n with
  | nil => exact hnm
  | cons callback callbacks ih =>
      obtain ⟨i, hni, him, hexec, -⟩ := hσ.popped rfl hsuffix hnm hcrashed (hgone _ [])
      have hnext := after hexec (hσ.uncrashed him hcrashed)
      have hcalls : .call key callback args :: .report key :: .notify key callbacks args :: tail <:+
          (σ (i + 1)).agenda :=
        Task.suffix_of_eq hnext
      obtain ⟨j, hij, hjm, hcall, -⟩ := hσ.popped rfl hcalls him hcrashed
        (hgone _ [.report key, .notify key callbacks args])
      refine ⟨j, _, Nat.le_trans hni (Nat.le_of_lt hij), hjm, hcall, ih ?_ hjm⟩
      rw [after hcall (hσ.uncrashed hjm hcrashed)]
      exact (List.suffix_cons (.report key) _).trans (List.suffix_append _ _)

/-- The last flush of a run is put on the agenda when the run is closed. -/
theorem flush_pushed {n : Nat} (hsuffix : .lastFlush key :: rest <:+ (σ n).agenda) :
    ∃ c origin below, c < n ∧ Executes σ c (.close key origin) below ∧
      rest = .finish key origin :: below ∧
      ∀ i, c < i → i ≤ n → .lastFlush key :: rest <:+ (σ i).agenda := by
  obtain ⟨c, t, below, pre, post, hcn, hexec, hnext, htail, hstays⟩ := hσ.pushed rfl hsuffix
  have hmem : .lastFlush key ∈ (t.react (σ c).world (σ c).outcome).next := by
    rw [hnext]
    simp
  obtain ⟨origin, rfl⟩ := Task.closes_of_flush hmem
  have hpost : post = [.finish key origin] := by
    rcases pre with _ | ⟨first, _ | ⟨second, _ | ⟨third, pre⟩⟩⟩ <;>
      simp [Task.react, Task.closeRun] at hnext
    exact hnext.2.symm
  refine ⟨c, origin, below, hcn, hexec, ?_, hstays⟩
  rw [htail, hpost]
  rfl

end Behavior

open Behavior

namespace Timeline

variable {b m s a c e : Nat} (ht : Timeline σ key origin rest b m s a c e)

include ht

/-- Between the confirmation and the closing there are updates only while the run ticks. -/
theorem speaks_open (hσ : Behavior σ) (i : Nat) (hmi : m < i) (hic : i < c)
    (hattached : ((σ (i + 1)).world.host key).outlet.detached = false) :
    Speaks σ key Event.isTicking i (i + 1) := by
  have hle : ∀ e, Event.isInner e = true → Event.isTicking e = true := by
    intro e he
    simp [Event.isTicking, he]
  rcases Nat.lt_or_ge s i with hsi | his
  · rcases Nat.lt_or_ge a i with hai | hia
    · exact (ht.speaks_closing hσ i hai hic hattached).mono hle
    · exact ht.speaks_ticking hσ i hsi hia hattached
  · exact (ht.speaks_body hσ i hmi his hattached).mono hle

/-- Once the run is closed, what is executed is above its end. -/
theorem above_end (hσ : Behavior σ) {i : Nat} (hci : c < i) (hie : i ≤ e) {t : Task}
    {below : List Task} (hagenda : (σ i).agenda = t :: below) (hother : t ≠ .finish key origin) :
    .finish key origin :: rest <:+ below ∧ t.part key = .none := by
  have hsuffix := ht.ending i hci hie
  rw [hagenda] at hsuffix
  rcases List.suffix_cons_iff.mp hsuffix with heq | hbelow
  · exact absurd (List.cons.inj heq).1.symm hother
  · exact ⟨hbelow, hσ.part_above Task.part_finish hagenda hbelow⟩

/-- A last flush after the closing is the one that the closing put on the agenda. -/
theorem flush_of_close (hσ : Behavior σ) {i : Nat} (hci : c < i) (hie : i < e) {below : List Task}
    (hexec : Executes σ i (.lastFlush key) below) : below = .finish key origin :: rest ∧
      ∀ j, c < j → j ≤ i → .lastFlush key :: below <:+ (σ j).agenda := by
  obtain ⟨hbelow, -⟩ := ht.above_end hσ hci (Nat.le_of_lt hie) hexec.agenda (by simp)
  obtain ⟨c', origin', rest', hc'i, hclose, htail, hstays⟩ :=
    hσ.flush_pushed (suffix_of_executes hexec)
  rcases Nat.lt_trichotomy c' c with hbefore | rfl | hafter
  · -- it would have been below the closing already
    have hthere := hstays c hbefore (Nat.le_of_lt hci)
    rw [ht.closes.agenda] at hthere
    rcases List.suffix_cons_iff.mp hthere with heq | hrest
    · cases (List.cons.inj heq).1
    · have hup := hbelow.length_le
      have hdown := hrest.length_le
      simp only [List.length_cons] at hup hdown
      omega
  · have hsame := hclose.agenda.symm.trans ht.closes.agenda
    cases hsame
    exact ⟨htail, hstays⟩
  · obtain ⟨-, hpart⟩ := ht.above_end hσ hafter (Nat.le_of_lt (Nat.lt_trans hc'i hie))
      hclose.agenda (by simp)
    rw [Task.part_close] at hpart
    cases hpart

/-- After the closing the callbacks are called, and then the edits are flushed. -/
theorem flushed (hσ : Behavior σ) : ∃ f, c < f ∧ f < e ∧
    CalledInTurn σ key [] (((σ (c + 1)).world.host key).callbacks .scriptEnding) (c + 1) f ∧
    Executes σ f (.lastFlush key) (.finish key origin :: rest) := by
  obtain ⟨-, -, -, -, hce⟩ := ht.order
  have hcrashed := hσ.uncrashed_of_suffix (ht.ending e hce (Nat.le_refl e))
  have hagenda : (σ (c + 1)).agenda =
      .notify key (((σ (c + 1)).world.host key).callbacks .scriptEnding) [] ::
        .lastFlush key :: .finish key origin :: rest := by
    rw [after ht.closes (hσ.uncrashed hce hcrashed), world_after ht.closes]
    rfl
  have hgone : ¬ .lastFlush key :: .finish key origin :: rest <:+ (σ e).agenda := by
    rw [ht.finishes.agenda]
    exact Task.not_suffix_self
  obtain ⟨f, hcf, hfe, hexec, -⟩ := hσ.popped rfl
    (by rw [hagenda]; exact List.suffix_cons _ _) hce hcrashed hgone
  have hrun := hσ.notified _ [] (Task.suffix_of_eq hagenda) hcf hexec.agenda
    (hσ.uncrashed (Nat.le_of_lt hfe) hcrashed)
  exact ⟨f, hcf, hfe, hrun, hexec⟩

/-- After the closing the callbacks are called and the edits are flushed once. -/
theorem flushes (hσ : Behavior σ) :
    ∃ f, c < f ∧ f < e ∧
      CalledInTurn σ key [] (((σ (c + 1)).world.host key).callbacks .scriptEnding) (c + 1) f ∧
      (σ (f + 1)).world = (σ f).world.flushEdits key ∧
      ∀ i, c < i → i < e → Flushes σ key i → i = f := by
  obtain ⟨-, -, -, -, hce⟩ := ht.order
  have hcrashed := hσ.uncrashed_of_suffix (ht.ending e hce (Nat.le_refl e))
  obtain ⟨f, hcf, hfe, hrun, hexec⟩ := ht.flushed hσ
  obtain ⟨-, hstays⟩ := ht.flush_of_close hσ hcf hfe hexec
  refine ⟨f, hcf, hfe, hrun, world_after hexec, fun i hci hie hflushes => ?_⟩
  -- once executed it is nowhere on the agenda
  have hleft : ∀ j, j < e → Executes σ j (.lastFlush key) (.finish key origin :: rest) →
      ¬ .lastFlush key :: .finish key origin :: rest <:+ (σ (j + 1)).agenda := by
    intro j hje hdone
    rw [after hdone (hσ.uncrashed hje hcrashed)]
    exact Task.not_suffix_self
  obtain ⟨below, hlast | ⟨t, hflush⟩⟩ := hflushes
  · obtain ⟨rfl, hthere⟩ := ht.flush_of_close hσ hci hie hlast
    rcases Nat.lt_trichotomy i f with hif | heq | hfi
    · exact absurd (hstays (i + 1) (by omega) hif) (hleft i hie hlast)
    · exact heq
    · exact absurd (hthere (f + 1) (by omega) hfi) (hleft f hfe hexec)
  · obtain ⟨-, hpart⟩ := ht.above_end hσ hci (Nat.le_of_lt hie) hflush.agenda (by simp)
    simp [Task.part] at hpart

/-- The body of the run is evaluated before the run ticks. -/
theorem evaluated (hσ : Behavior σ) : ∃ d, b < d ∧ d < s ∧
    Executes σ d (.evaluate key ((σ b).world.host key).script.contents origin 1)
      (.startTicking key origin :: rest) := by
  obtain ⟨hbm, hms, -⟩ := ht.order
  have hcrashed := hσ.uncrashed_of_suffix (suffix_of_executes ht.starts)
  have hkey := (hσ.sound m).head ht.confirms.agenda key rfl
  have hhost := ht.host_entering m hbm (Nat.le_refl m)
  have hagenda : (σ (m + 1)).agenda =
      .evaluate key ((σ b).world.host key).script.contents origin 1 ::
        .startTicking key origin :: rest := by
    rw [after ht.confirms (hσ.uncrashed hms hcrashed), Task.confirmRun_next ht.permitted,
      ← ht.label, hhost]
    rfl
  have hgone : ¬ .evaluate key ((σ b).world.host key).script.contents origin 1 ::
      .startTicking key origin :: rest <:+ (σ s).agenda := by
    rw [ht.starts.agenda]
    exact Task.not_suffix_self
  obtain ⟨d, hmd, hds, hexec, -⟩ := hσ.popped rfl (Task.suffix_of_eq hagenda) hms hcrashed hgone
  exact ⟨d, by omega, hds, hexec⟩

section Attached

variable (hσ : Behavior σ)
  (hattached : ∀ i, b < i → i ≤ e → ((σ i).world.host key).outlet.detached = false)

include hσ hattached

/-- What is heard of a run begins with its change of state. -/
theorem heard_since {i : Nat} (hmi : m < i) :
    Envelope.events (heard σ key b i) =
      .runningStateChanged :: Envelope.events (heard σ key (m + 1) i) := by
  obtain ⟨hbm, hms, hsa, hac, hce⟩ := ht.order
  have hkey := ht.has hσ
  rw [hσ.heard_append (by omega) hmi hkey, hσ.heard_append (Nat.le_of_lt hbm) (Nat.le_succ m) hkey,
    ht.heard_entering, List.nil_append, Envelope.events_append,
    ht.heard_confirming hσ (hattached m hbm (by omega))]
  rfl

/-- What is heard of a run ends with its closing and its last three events. -/
theorem heard_until {i : Nat} (hbi : b < i) (hic : i ≤ c) : ∃ closing,
    Envelope.events (heard σ key i (e + 1)) = Envelope.events (heard σ key i c) ++
      .scriptEnding :: closing ++ [.finished origin, .runningStateChanged, .doneRunning] ∧
    closing.all Event.isInner = true := by
  obtain ⟨hbm, hms, hsa, hac, hce⟩ := ht.order
  have hhas : ∀ j, b ≤ j → (σ j).world.Has key := fun j hbj => hσ.has_later hbj (ht.has hσ)
  have hclosing : Speaks σ key Event.isInner (c + 1) e :=
    hσ.speaks_of_steps hce (hhas (c + 1) (by omega)) fun j hcj hje =>
      ht.speaks_ending hσ j hcj hje (hattached (j + 1) (by omega) hje)
  obtain ⟨q, -, hqc, hflag⟩ := ht.requested hσ
  rw [Speaks, hflag (c + 1) (by omega) (by omega), hflag e (by omega) (Nat.le_refl e),
    decide_eq_true (by omega), decide_eq_true (by omega)] at hclosing
  obtain ⟨id, n, time, hlast⟩ := ht.heard_finished hσ (hattached e (by omega) (Nat.le_refl e))
  refine ⟨_, ?_, hclosing⟩
  rw [hσ.heard_append (m := e) (by omega) (by omega) (hhas i (by omega)),
    hσ.heard_append (m := c + 1) (by omega) hce (hhas i (by omega)),
    hσ.heard_append (m := c) hic (Nat.le_succ c) (hhas i (by omega)), Envelope.events_append,
    Envelope.events_append, Envelope.events_append,
    ht.heard_closed hσ (hattached c (by omega) (by omega)), hlast]
  simp [Envelope.events]

/-- From the confirmation to the closing. -/
theorem speaks (n k : Nat) (hmn : m < n) (hnk : n ≤ k) (hkc : k ≤ c) :
    Speaks σ key Event.isTicking n k := by
  obtain ⟨hbm, hms, hsa, hac, hce⟩ := ht.order
  exact hσ.speaks_of_steps hnk (hσ.has_later (by omega) (ht.has hσ)) fun i hni hik =>
    ht.speaks_open hσ i (by omega) (by omega) (hattached (i + 1) (by omega) (by omega))

/-- While the body is evaluated there are no updates. -/
theorem no_update_before : ∀ event ∈ Envelope.events (heard σ key b s), event.isUpdate = false := by
  obtain ⟨hbm, hms, hsa, hac, hce⟩ := ht.order
  have hbody : Speaks σ key Event.isInner (m + 1) s :=
    hσ.speaks_of_steps hms (hσ.has_later (by omega) (ht.has hσ)) fun i hmi his =>
      ht.speaks_body hσ i hmi (Nat.le_of_lt his) (hattached (i + 1) (by omega) (by omega))
  intro event hevent
  rw [ht.heard_since hσ hattached hms] at hevent
  rcases List.mem_cons.mp hevent with rfl | hevent
  · rfl
  · exact hbody.not_isUpdate_of_inner event hevent

/-- Once a stop was requested there are no more updates. -/
theorem no_update_after {i : Nat} (hmi : m < i) (hic : i ≤ c)
    (hasked : ((σ i).world.host key).finished = true)
    (hclosed : ((σ c).world.host key).finished = true) :
    ∀ event ∈ Envelope.events (heard σ key i (e + 1)), event.isUpdate = false := by
  obtain ⟨hbm, hms, hsa, hac, hce⟩ := ht.order
  have hlate := ht.speaks hσ hattached i c hmi hic (Nat.le_refl c)
  rw [Speaks, hasked, hclosed] at hlate
  obtain ⟨closing, huntil, hclosing⟩ := ht.heard_until hσ hattached (Nat.lt_trans hbm hmi) hic
  intro event hevent
  rw [huntil] at hevent
  have hinner : ∀ es : List Event, es.all Event.isInner = true → event ∈ es →
      event.isUpdate = false := fun es hes he =>
    Speech.not_isUpdate_of_inner (a := true) (b := true) hes event he
  simp only [List.append_assoc, List.cons_append, List.mem_append, List.mem_cons,
    List.not_mem_nil, or_false] at hevent
  rcases hevent with h | rfl | h | rfl | rfl | rfl
  · exact hinner _ hlate h
  · rfl
  · exact hinner _ hclosing h
  · rfl
  · rfl
  · rfl

theorem course : ∃ q f, Course σ key origin b s q c f e := by
  obtain ⟨hbm, hms, hsa, hac, hce⟩ := ht.order
  obtain ⟨q, hmq, hqc, hflag⟩ := ht.requested hσ
  obtain ⟨f, hcf, hfe, hnotified, hflushed, honce⟩ := ht.flushes hσ
  obtain ⟨d, hbd, hds, hbody⟩ := ht.evaluated hσ
  have hdown : ∀ i, b < i → i ≤ q → ((σ i).world.host key).finished = false := by
    intro i hbi hiq
    rw [hflag i hbi (by omega), decide_eq_false (by omega)]
  have hup : ∀ i, q < i → i ≤ e → ((σ i).world.host key).finished = true := by
    intro i hqi hie
    rw [hflag i (by omega) hie, decide_eq_true hqi]
  refine ⟨q, f, ?_⟩
  constructor
  case order => exact ⟨by omega, by omega, by omega, hqc, hcf, hfe⟩
  case label => exact ht.origin_of_begin
  case body => exact ⟨d, rest, hbd, hds, hbody, ht.starts⟩
  case requested => exact hflag
  case language =>
    have hopen := ht.speaks hσ hattached (m + 1) c (by omega) (by omega) (by omega)
    rw [Speaks, hdown (m + 1) (by omega) (by omega), hup c hqc (by omega)] at hopen
    obtain ⟨before, after, hevents, hbefore, hafter⟩ := hopen
    obtain ⟨closing, huntil, hclosing⟩ := ht.heard_until hσ hattached (i := m + 1) (by omega)
      (by omega)
    refine ⟨before, after, closing, ?_, hbefore, hafter, hclosing⟩
    rw [ht.heard_since hσ hattached (by omega), huntil, hevents]
    simp
  case updates =>
    refine ⟨ht.no_update_before hσ hattached, ?_⟩
    exact ht.no_update_after hσ hattached (by omega) hqc (hup (q + 1) (by omega) (by omega))
      (hup c hqc (by omega))
  case announced =>
    have hstep := ht.speaks hσ hattached q (q + 1) hmq (Nat.le_succ q) hqc
    rw [Speaks, hdown q (by omega) (Nat.le_refl q), hup (q + 1) (by omega) (by omega)] at hstep
    obtain ⟨before, after, hevents, -⟩ := hstep
    simp [hevents]
  case closes => exact ht.heard_closed hσ (hattached c (by omega) (by omega))
  case notified => exact hnotified
  case flushed => exact hflushed
  case flushedOnce => exact honce
  case ending => exact ht.heard_finished hσ (hattached e (by omega) (Nat.le_refl e))

end Attached

end Timeline

section Run

variable {b e : Nat}

/-- Every run that finishes is whole from some beginning on. -/
theorem Behavior.run_of_finishes (hσ : Behavior σ) (hfinishes : Finishes σ key origin e) :
    ∃ b, Run σ key origin b e := by
  obtain ⟨rest, hfinish⟩ := hfinishes
  obtain ⟨b, m, s, a, c, ht⟩ := hσ.timeline hfinish
  obtain ⟨hbm, hms, hsa, hac, hce⟩ := ht.order
  exact ⟨b, ⟨rest, ht.begins⟩, ⟨rest, hfinish⟩, by omega, fun i hbi hie =>
    ht.not_begins hσ i hbi (Nat.le_of_lt hie)⟩

/-- The timeline of a run begins with the run. -/
theorem Run.timeline (hσ : Behavior σ) (hrun : Run σ key origin b e) :
    ∃ rest m s a c, Timeline σ key origin rest b m s a c e := by
  obtain ⟨rest, hfinish⟩ := hrun.finishes
  obtain ⟨b', m, s, a, c, ht⟩ := hσ.timeline hfinish
  obtain ⟨hbm, hms, hsa, hac, hce⟩ := ht.order
  rcases Nat.lt_trichotomy b b' with hlt | rfl | hgt
  · exact absurd ⟨rest, ht.begins⟩ (hrun.whole b' hlt (by omega))
  · exact ⟨rest, m, s, a, c, ht⟩
  · exact absurd hrun.begins (ht.not_begins hσ b hgt (Nat.le_of_lt hrun.order))

end Run

end TickHost
