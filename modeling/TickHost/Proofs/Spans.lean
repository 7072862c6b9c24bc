import TickHost.Proofs.Runs

/-!
What a host keeps from one moment to a later one, and what it publishes meanwhile. Between two
beginnings of runs a host that was asked to stop stays so, and a host that was cut off says
nothing. What is heard of a host is put together from what is heard in the single steps.
-/

namespace TickHost

open World Machine

/-- A run of the host begins in this step. -/
def Begins (σ : Nat → Machine) (key n : Nat) : Prop :=
  ∃ rest, Executes σ n (.beginRun key) rest

/-- A run of the host finishes in this step, under the origin that it began with. -/
def Finishes (σ : Nat → Machine) (key : Nat) (origin : String) (n : Nat) : Prop :=
  ∃ rest, Executes σ n (.finish key origin) rest

/-- A task begins a run of the host. -/
def Task.begins (key : Nat) : Task → Bool
  | beginRun k => k = key
  | _ => false

/-- A task finishes a run of the host. -/
def Task.finishes (key : Nat) (origin : String) : Task → Bool
  | finish k label => k = key ∧ label = origin
  | _ => false

theorem Machine.begins_trace_iff {m : Machine} {key n : Nat} :
    Begins m.trace key n ↔ (m.trace n).agenda.head?.any (Task.begins key) = true := by
  rw [← executes_trace_iff]
  constructor
  · exact fun ⟨rest, hexec⟩ => ⟨_, rest, hexec, decide_eq_true rfl⟩
  · rintro ⟨t, rest, hexec, ht⟩
    cases t with
    | beginRun k => exact ⟨rest, of_decide_eq_true ht ▸ hexec⟩
    | _ => cases ht

theorem Machine.finishes_trace_iff {m : Machine} {key n : Nat} {origin : String} :
    Finishes m.trace key origin n ↔
      (m.trace n).agenda.head?.any (Task.finishes key origin) = true := by
  rw [← executes_trace_iff]
  constructor
  · exact fun ⟨rest, hexec⟩ => ⟨_, rest, hexec, decide_eq_true ⟨rfl, rfl⟩⟩
  · rintro ⟨t, rest, hexec, ht⟩
    cases t with
    | finish k label =>
        obtain ⟨rfl, rfl⟩ := of_decide_eq_true ht
        exact ⟨rest, hexec⟩
    | _ => cases ht

instance (m : Machine) (key n : Nat) : Decidable (Begins m.trace key n) :=
  decidable_of_iff' _ begins_trace_iff

instance (m : Machine) (key n : Nat) (origin : String) :
    Decidable (Finishes m.trace key origin n) :=
  decidable_of_iff' _ finishes_trace_iff

/-- What a host publishes from one moment to another. -/
def heard (σ : Nat → Machine) (key n m : Nat) : List Envelope :=
  ((σ m).world.host key).published.drop ((σ n).world.host key).published.length

/-- What a host publishes from one moment to another goes with its stop flag. -/
def Speaks (σ : Nat → Machine) (key : Nat) (early : Event → Bool) (n m : Nat) : Prop :=
  Speech early ((σ n).world.host key).finished ((σ m).world.host key).finished
    (Envelope.events (heard σ key n m))

/-- A flag that is down at first and up later is raised for the first time in some step. -/
theorem exists_rise (flag : Nat → Bool) {n m : Nat} (hnm : n ≤ m) (hdown : flag n = false)
    (hup : flag m = true) : ∃ q, n ≤ q ∧ q < m ∧ (∀ k, n ≤ k → k ≤ q → flag k = false) ∧
      flag (q + 1) = true := by
  have hcases : (∀ k, n ≤ k → k ≤ m → flag k = false) ∨ ∃ q, n ≤ q ∧ q < m ∧
      (∀ k, n ≤ k → k ≤ q → flag k = false) ∧ flag (q + 1) = true := by
    clear hup
    induction hnm with
    | refl =>
        left
        intro k hnk hkn
        rwa [Nat.le_antisymm hkn hnk]
    | @step m hnm ih =>
        rcases ih with hstays | ⟨q, hnq, hqm, hrises⟩
        · cases hflag : flag (m + 1) with
          | true => exact .inr ⟨m, hnm, Nat.lt_succ_self m, hstays, hflag⟩
          | false =>
              left
              intro k hnk hkm
              rcases Nat.lt_or_eq_of_le hkm with hlt | rfl
              · exact hstays k hnk (Nat.le_of_lt_succ hlt)
              · exact hflag
        · exact .inr ⟨q, hnq, Nat.lt_succ_of_lt hqm, hrises⟩
  rcases hcases with hstays | hrises
  · rw [hstays m hnm (Nat.le_refl m)] at hup
    cases hup
  · exact hrises

/-- A flag that is down at first and up later was raised in some step and not lowered since. -/
theorem exists_last_rise (flag : Nat → Bool) {m : Nat} (hdown : flag 0 = false)
    (hup : flag m = true) :
    ∃ q, q < m ∧ flag q = false ∧ ∀ k, q < k → k ≤ m → flag k = true := by
  induction m with
  | zero =>
      rw [hdown] at hup
      cases hup
  | succ m ih =>
      cases hflag : flag m with
      | false =>
          refine ⟨m, Nat.lt_succ_self m, hflag, fun k hmk hkm => ?_⟩
          rwa [Nat.le_antisymm hkm hmk]
      | true =>
          obtain ⟨q, hqm, hlow, hhigh⟩ := ih hflag
          refine ⟨q, Nat.lt_succ_of_lt hqm, hlow, fun k hqk hkm => ?_⟩
          rcases Nat.lt_or_eq_of_le hkm with hlt | rfl
          · exact hhigh k hqk (Nat.le_of_lt_succ hlt)
          · exact hup

namespace Behavior

variable {σ : Nat → Machine} (hσ : Behavior σ) {key n m : Nat}

section Step

/-- In one step a host stays as it is, or a task is executed. -/
theorem host_step (hσ : Behavior σ) (key n : Nat) :
    (σ (n + 1)).world.host key = (σ n).world.host key ∨
      ∃ t rest, Executes σ n t rest ∧
        (σ (n + 1)).world = (t.react (σ n).world (σ n).outcome).world := by
  rcases (hσ.next n).cases with hsame | ⟨t, rest, hagenda, hstep⟩
  · exact .inl (hsame.host key)
  · exact .inr ⟨t, rest, ⟨hagenda, hstep⟩, by rw [hstep, step_world hagenda]⟩

theorem says_step (hσ : Behavior σ) (hkey : (σ n).world.Has key) :
    ((σ n).world.host key).Utters ((σ n).world.isStopping key)
      ((σ (n + 1)).world.host key) := by
  rcases hσ.host_step key n with hsame | ⟨t, rest, hexec, hworld⟩
  · exact .silent (by rw [hsame])
  · have hsound := hσ.sound n
    rw [hworld]
    exact Task.react_utters hsound.linked (hsound.head hexec.agenda) hkey

theorem finished_step (hσ : Behavior σ) (hkey : (σ n).world.Has key)
    (hbegins : ¬ Begins σ key n) (hfinished : ((σ n).world.host key).finished = true) :
    ((σ (n + 1)).world.host key).finished = true := by
  rcases hσ.host_step key n with hsame | ⟨t, rest, hexec, hworld⟩
  · rwa [hsame]
  · have hsound := hσ.sound n
    rw [hworld]
    refine Task.react_finished hsound.linked (hsound.head hexec.agenda) hkey ?_ hfinished
    rintro rfl
    exact hbegins ⟨rest, hexec⟩

theorem cut_step (hσ : Behavior σ) (hkey : (σ n).world.Has key) (hbegins : ¬ Begins σ key n)
    (hcut : ((σ n).world.host key).outlet.detached = true) :
    ((σ (n + 1)).world.host key).outlet.detached = true := by
  rcases hσ.host_step key n with hsame | ⟨t, rest, hexec, hworld⟩
  · rwa [hsame]
  · have hsound := hσ.sound n
    rw [hworld]
    refine Task.react_cut hsound.linked (hsound.head hexec.agenda) hkey ?_ hcut
    rintro rfl
    exact hbegins ⟨rest, hexec⟩

end Step

include hσ

theorem has_later (hnm : n ≤ m) (hkey : (σ n).world.Has key) : (σ m).world.Has key := by
  induction hnm with
  | refl => exact hkey
  | step _ ih => exact hσ.has ih

/-- A host came at some moment. -/
theorem born (hkey : (σ n).world.Has key) :
    ∃ b, b < n ∧ ¬ (σ b).world.Has key ∧ (σ (b + 1)).world.Has key := by
  induction n with
  | zero =>
      obtain ⟨disk, remote, programs, functions, network, actions, hstart⟩ := hσ.starts
      rw [hstart] at hkey
      cases hkey
  | succ n ih =>
      by_cases hold : (σ n).world.Has key
      · obtain ⟨b, hbn, hborn⟩ := ih hold
        exact ⟨b, Nat.lt_succ_of_lt hbn, hborn⟩
      · exact ⟨n, Nat.lt_succ_self n, hold, hkey⟩

/-- A host comes with a task that sets no other one. -/
theorem founded (hnew : ¬ (σ n).world.Has key) (hkey : (σ (n + 1)).world.Has key) :
    ∃ t rest, Executes σ n t rest ∧ t.sets? = none := by
  rcases (hσ.next n).cases with hsame | ⟨t, rest, hagenda, hstep⟩
  · exact absurd ((hsame.has key).mp hkey) hnew
  · refine ⟨t, rest, ⟨hagenda, hstep⟩, ?_⟩
    cases hsets : t.sets? with
    | none => rfl
    | some other =>
        have hother := (hσ.sound n).head hagenda other (Task.host?_of_sets? hsets)
        obtain ⟨h, hset, -⟩ := Task.react_sets (o := (σ n).outcome) hsets hother
        rw [hstep, step_world hagenda, Has, hset.keys hother] at hkey
        exact absurd hkey hnew

/-- A stop request is kept until the next run begins. -/
theorem finished_later (hnm : n ≤ m) (hkey : (σ n).world.Has key)
    (hbegins : ∀ i, n ≤ i → i < m → ¬ Begins σ key i)
    (hfinished : ((σ n).world.host key).finished = true) :
    ((σ m).world.host key).finished = true := by
  induction hnm with
  | refl => exact hfinished
  | @step m hnm ih =>
      have hbefore := ih fun i hni him => hbegins i hni (Nat.lt_succ_of_lt him)
      exact hσ.finished_step (hσ.has_later hnm hkey) (hbegins m hnm (Nat.lt_succ_self m)) hbefore

/-- A host that was cut off is silent until its next run begins. -/
theorem silent_later (hnm : n ≤ m) (hkey : (σ n).world.Has key)
    (hbegins : ∀ i, n ≤ i → i < m → ¬ Begins σ key i)
    (hcut : ((σ n).world.host key).outlet.detached = true) :
    ((σ m).world.host key).outlet.detached = true ∧
      ((σ m).world.host key).published = ((σ n).world.host key).published := by
  induction hnm with
  | refl => exact ⟨hcut, rfl⟩
  | @step m hnm ih =>
      obtain ⟨hstill, hsame⟩ := ih fun i hni him => hbegins i hni (Nat.lt_succ_of_lt him)
      have hlater := hσ.has_later hnm hkey
      obtain ⟨es, hsaid, hnothing, _⟩ := hσ.says_step hlater
      refine ⟨hσ.cut_step hlater (hbegins m hnm (Nat.lt_succ_self m)) hstill, ?_⟩
      rw [hnothing hstill, Host.Says, List.append_nil] at hsaid
      exact hsaid.trans hsame

/-- A host that is alive later was alive before. -/
theorem alive_before (hnm : n ≤ m) (hkey : (σ n).world.Has key)
    (halive : ((σ m).world.host key).alive = true) : ((σ n).world.host key).alive = true := by
  induction hnm with
  | refl => exact halive
  | @step m hnm ih =>
      apply ih
      rcases hσ.host_step key m with hsame | ⟨t, rest, hexec, hworld⟩
      · rwa [hsame] at halive
      · have hsound := hσ.sound m
        rw [hworld] at halive
        exact Task.react_alive hsound.linked (hsound.head hexec.agenda) (hσ.has_later hnm hkey)
          halive

/-- A host keeps its number and its registry. -/
theorem identity (hnm : n ≤ m) (hkey : (σ n).world.Has key) :
    ((σ m).world.host key).id = ((σ n).world.host key).id ∧
      ((σ m).world.host key).registry = ((σ n).world.host key).registry := by
  induction hnm with
  | refl => exact ⟨rfl, rfl⟩
  | @step m hnm ih =>
      rcases hσ.host_step key m with hsame | ⟨t, rest, hexec, hworld⟩
      · rw [hsame]
        exact ih
      · have hsound := hσ.sound m
        obtain ⟨hid, hregistry, -⟩ := Task.react_identity (o := (σ m).outcome) hsound.linked
          (hsound.head hexec.agenda) (hσ.has_later hnm hkey)
        rw [hworld, hid, hregistry]
        exact ih

/-- A host that is not there yet is as it is built in the next step, or was given up since. -/
theorem newcomer (hnew : ¬ (σ n).world.Has key) :
    (σ (n + 1)).world.host key = default ∨ ∃ plan api id bus, ∀ stopping,
      (Host.ofPlan plan api id bus).Acts stopping ((σ (n + 1)).world.host key) := by
  rcases hσ.host_step key n with hsame | ⟨t, rest, hexec, hworld⟩
  · rw [hsame]
    exact .inl (Store.get_of_not_mem _ _ hnew)
  · have hsound := hσ.sound n
    rw [hworld]
    exact Task.react_fresh hsound.linked (hsound.head hexec.agenda) hnew

/-- The events of a host are numbered in the order in which they are published. -/
theorem numbered (key n : Nat) : ((σ n).world.host key).outlet.Numbered := by
  induction n with
  | zero =>
      obtain ⟨disk, remote, programs, functions, network, actions, hstart⟩ := hσ.starts
      rw [hstart]
      exact Outlet.new_numbered 0
  | succ n ih =>
      by_cases hkey : (σ n).world.Has key
      · rcases hσ.host_step key n with hsame | ⟨t, rest, hexec, hworld⟩
        · rwa [hsame]
        · have hsound := hσ.sound n
          rw [hworld]
          exact Task.react_numbered hsound.linked (hsound.head hexec.agenda) hkey ih
      · rcases hσ.newcomer hkey with hdefault | ⟨plan, api, id, bus, hacts⟩
        · rw [hdefault]
          exact Outlet.new_numbered 0
        · exact (hacts true).works.numbered (Outlet.new_numbered id)

/-! What is heard. -/

/-- A host never takes back what it has published. -/
theorem says_heard (hnm : n ≤ m) (hkey : (σ n).world.Has key) :
    ((σ n).world.host key).Says ((σ m).world.host key) (heard σ key n m) := by
  have hsome : ∃ es, ((σ n).world.host key).Says ((σ m).world.host key) es := by
    induction hnm with
    | refl => exact ⟨[], .silent rfl⟩
    | @step m hnm ih =>
        obtain ⟨es, hsaid⟩ := ih
        obtain ⟨es', hsaid', _⟩ := hσ.says_step (hσ.has_later hnm hkey)
        exact ⟨es ++ es', hsaid.trans hsaid'⟩
  obtain ⟨es, hsaid⟩ := hsome
  have hheard : heard σ key n m = es := by
    rw [heard, hsaid, List.drop_left]
  rwa [hheard]

omit hσ in
theorem heard_eq {es : List Envelope}
    (hsaid : ((σ n).world.host key).Says ((σ m).world.host key) es) : heard σ key n m = es := by
  rw [heard, hsaid, List.drop_left]

theorem heard_append {k : Nat} (hnm : n ≤ m) (hmk : m ≤ k) (hkey : (σ n).world.Has key) :
    heard σ key n k = heard σ key n m ++ heard σ key m k :=
  heard_eq ((hσ.says_heard hnm hkey).trans (hσ.says_heard hmk (hσ.has_later hnm hkey)))

omit hσ in
/-- In steps that leave a host as it is nothing is heard of it. -/
theorem heard_same (hsame : (σ m).world.host key = (σ n).world.host key) :
    heard σ key n m = [] :=
  heard_eq (.silent (by rw [hsame]))

/-- What is heard over some steps follows from what is heard in each. -/
theorem speaks_of_steps {early : Event → Bool} (hnm : n ≤ m) (hkey : (σ n).world.Has key)
    (hsteps : ∀ i, n ≤ i → i < m → Speaks σ key early i (i + 1)) : Speaks σ key early n m := by
  induction hnm with
  | refl =>
      rw [Speaks, heard_same rfl]
      exact .silent _
  | @step m hnm ih =>
      have hbefore := ih fun i hni him => hsteps i hni (Nat.lt_succ_of_lt him)
      have hlast := hsteps m hnm (Nat.lt_succ_self m)
      rw [Speaks, hσ.heard_append hnm (Nat.le_succ m) hkey, Envelope.events_append]
      exact hbefore.append hlast

omit hσ in
/-- While a host is worked on and not cut off, inner events are heard and the announcement of the
first stop request. -/
theorem speaks_of_works
    (hworks : ((σ n).world.host key).Works ((σ n).world.isStopping key)
      ((σ (n + 1)).world.host key))
    (hattached : ((σ (n + 1)).world.host key).outlet.detached = false) :
    Speaks σ key Event.isInner n (n + 1) := by
  obtain ⟨es, hsaid, hspeech⟩ := hworks.speech hattached
  rw [Speaks, heard_eq hsaid]
  exact hspeech

end Behavior

end TickHost
