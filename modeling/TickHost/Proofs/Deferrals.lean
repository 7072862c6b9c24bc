import Mathlib.Data.Nat.Find
import TickHost.Proofs.Includes

/-!
Includes that a script does not wait for. Whether a script waits makes no difference to what becomes
of the entries of its batch. The answers that come for a host are taken one after the other, in the
order in which they came. Before the next command is taken all entries of a batch are treated, and
then its callback is called.
-/

namespace TickHost

open World Machine

/-! How a batch ends. -/

/-- A batch that came up at moment `a` is over in step `j`. -/
structure Over (τ : Nat → Machine) (key : Nat) (results : FetchResults) (tail : List Task)
    (a j : Nat) : Prop where
  after : a ≤ j
  ends : Executes τ j (.batch key [] results) tail
  first : ∀ k, a ≤ k → k < j → ¬ Executes τ k (.batch key [] results) tail

/-- What is executed at some time is executed for a first time. -/
theorem Executes.first {τ : Nat → Machine} {a k : Nat} {t : Task} {tail : List Task} (hak : a ≤ k)
    (hexec : Executes τ k t tail) : ∃ j, a ≤ j ∧ j ≤ k ∧ Executes τ j t tail ∧
      ∀ i, a ≤ i → i < j → ¬ Executes τ i t tail := by
  classical
  have hsome : ∃ j, a ≤ j ∧ Executes τ j t tail := ⟨k, hak, hexec⟩
  obtain ⟨haj, hfirst⟩ := Nat.find_spec hsome
  exact ⟨_, haj, Nat.find_min' hsome ⟨hak, hexec⟩, hfirst,
    fun i hai hij h => Nat.find_min hsome hij ⟨hai, h⟩⟩

/-- When a batch is over all its entries have been treated as the results say. -/
theorem Onward.treated_of_over {τ : Nat → Machine} {a j key : Nat} {urls : List Url}
    {results : FetchResults} {tail : List Task} (hτ : Onward τ a)
    (hagenda : (τ a).agenda = .batch key urls results :: tail)
    (hopen : ∀ i, a ≤ i → i ≤ j → (τ i).world.isStopping key = false)
    (hover : Over τ key results tail a j) :
    Log (Treats τ key results tail) a (j + 1) (urls.map results.treatment) := by
  have hcrashed : (τ (j + 1)).world.crashed = false := by
    rw [Behavior.world_after hover.ends]
    exact (hτ.later hover.after).sound.uncrashed hover.ends.agenda
  have hproceeds := hτ.proceeds (Nat.le_succ_of_le hover.after) hagenda hcrashed
    fun i hai hij => hopen i hai (Nat.le_of_lt_succ hij)
  cases hproceeds with
  | underway treated next left hlist hnext hwaits hlog =>
      rw [Behavior.after hover.ends hcrashed] at hwaits
      exact absurd hwaits Task.not_suffix_self
  | through j' haj hj hends hlog =>
      rcases Nat.lt_or_eq_of_le (Nat.le_of_lt_succ hj) with hlt | rfl
      · exact absurd hends (hover.first j' haj hlt)
      · exact hlog

/-- The batch of an include of step `n` comes up at moment `a`, is answered with some results and is
over in step `j`, and no stop-all call begins until then. -/
structure Completes (σ : Nat → Machine) (n : Nat) (i : Include) (results : FetchResults)
    (τ : Nat → Machine) (tail : List Task) (a j : Nat) : Prop where
  includes : Includes σ n i
  opens : (σ n).world.isStopping i.host = false
  arrives : Arrives σ n i a
  agenda : ∃ given, (σ a).agenda = .batch i.host (i.urls σ n) given :: tail
  before : ∀ k, n ≤ k → k < a → ¬ StopsAll σ ((σ n).world.host i.host).registry k
  reply : τ a = (σ a).reply results
  next : ∀ k, a ≤ k → (τ k).Next (τ (k + 1))
  quiet : ∀ k, a ≤ k → k < j → ¬ StopsAll τ ((σ n).world.host i.host).registry k
  through : Over τ i.host results tail a j

theorem Completes.treated {σ τ : Nat → Machine} (hσ : Behavior σ) {n a j : Nat} {i : Include}
    {results : FetchResults} {tail : List Task}
    (hcompletes : Completes σ n i results τ tail a j) :
    Log (Treats τ i.host results tail) a (j + 1) ((i.urls σ n).map results.treatment) := by
  obtain ⟨hincludes, hopen, harrives, ⟨given, hagenda⟩, hbefore, hreply, hnext, hquiet, hover⟩ :=
    hcompletes
  obtain ⟨hτ, hcalm⟩ := hσ.undisturbed_of_reply hincludes hopen (hσ.le_of_arrives harrives) hbefore
    hreply hnext hquiet
  exact hτ.treated_of_over (hreply ▸ reply_agenda hagenda) (fun k hak hkj => (hcalm k hak hkj).1)
    hover

/-- An include completes by the time that nothing is left to do. -/
theorem Behavior.completes {σ τ : Nat → Machine} (hσ : Behavior σ) {n a m : Nat} {i : Include}
    {results : FetchResults} (hincludes : Includes σ n i)
    (hopen : (σ n).world.isStopping i.host = false) (harrives : Arrives σ n i a)
    (hbefore : ∀ k, n ≤ k → k < a → ¬ StopsAll σ ((σ n).world.host i.host).registry k)
    (hreply : τ a = (σ a).reply results) (hnext : ∀ k, a ≤ k → (τ k).Next (τ (k + 1)))
    (ham : a ≤ m) (hcrashed : (τ m).world.crashed = false) (hnothing : (τ m).agenda = [])
    (hquiet : ∀ k, a ≤ k → k < m → ¬ StopsAll τ ((σ n).world.host i.host).registry k) :
    ∃ tail j, Completes σ n i results τ tail a j := by
  obtain ⟨given, tail, hagenda⟩ := hσ.batch_of_arrives hincludes hopen harrives
  obtain ⟨hτ, hcalm⟩ := hσ.undisturbed_of_reply hincludes hopen (hσ.le_of_arrives harrives) hbefore
    hreply hnext hquiet
  have hproceeds := hτ.proceeds ham (hreply ▸ reply_agenda hagenda) hcrashed
    fun k hak hkm => (hcalm k hak (Nat.le_of_lt hkm)).1
  cases hproceeds with
  | underway treated next left hlist hatmost hwaits hlog => simp [hnothing] at hwaits
  | through k hak hkm hends hlog =>
      obtain ⟨j, haj, hjk, hover, hfirst⟩ := Executes.first hak hends
      exact ⟨tail, j, hincludes, hopen, harrives, ⟨given, hagenda⟩, hbefore, hreply, hnext,
        fun k' hak' hkj => hquiet k' hak' (Nat.lt_trans (Nat.lt_of_lt_of_le hkj hjk) hkm),
        ⟨haj, hover, hfirst⟩⟩

/-! How the callback of an include is left behind. -/

namespace Task

/-- Tasks that end what a script or a directive does. -/
def isScript : Task → Bool
  | perform _ _ | give _ => true
  | _ => false

/-- The last of some tasks, if there are any, ends what a script or a directive does. -/
def Scripted (above : List Task) : Prop :=
  ∀ t, above.getLast? = some t → t.isScript = true

namespace Scripted

variable {t : Task} {above pre : List Task}

theorem nil : Scripted [] := nofun

theorem concat (above : List Task) (ht : t.isScript = true) : Scripted (above ++ [t]) := by
  intro last hlast
  rw [List.getLast?_concat] at hlast
  cases hlast
  exact ht

/-- Only the last task matters. -/
theorem under (h : Scripted above) (hsome : above ≠ []) (pre : List Task) :
    Scripted (pre ++ above) := by
  intro last hlast
  rw [List.getLast?_append_of_ne_nil pre hsome] at hlast
  exact h last hlast

theorem cons (h : Scripted above) (ht : t.isScript = true) : Scripted (t :: above) := by
  cases above with
  | nil => exact concat [] ht
  | cons first above => exact h.under (List.cons_ne_nil _ _) [t]

theorem of_cons (h : Scripted (t :: above)) : Scripted above := by
  intro last hlast
  cases above with
  | nil => cases hlast
  | cons first above => exact h last (by rwa [List.getLast?_cons_cons])

theorem react (h : Scripted (t :: above)) (w : World) (o : Outcome) :
    Scripted ((t.react w o).next ++ above) := by
  cases above with
  | cons first above => exact h.of_cons.under (List.cons_ne_nil _ _) _
  | nil =>
      have ht : t.isScript = true := h t rfl
      rw [List.append_nil]
      cases t with
      | perform scope actions =>
          rcases performOne_next w o scope actions with hnone | ⟨before, rest, hsome⟩
          · simp only [Task.react, hnone]
            exact .nil
          · simp only [Task.react, hsome]
            exact .concat before rfl
      | give _ => exact .nil
      | _ => cases ht

/-- Others only put scripts on top. -/
theorem shifts {x : Task} {above' : List Task} (h : Scripted above)
    (hshifts : Shifts x above above') : Scripted above' := by
  cases hshifts with
  | chooses scope actions chosen above => exact h.of_cons.cons rfl
  | intrudes scope actions => exact h.cons rfl
  | reorders => exact h

end Scripted

theorem callBack_scripted (w : World) (o : Outcome) (key : Nat) (callback : Callback)
    (args : List Value) : Scripted (callBack w o key callback args).next := by
  have hdirective : ∀ (origin : String) (text : List Char),
      Scripted (runDirective w key origin 0 text).next := by
    intro origin text
    rcases (runDirective_outcome w key origin 0 text).2 with hnone | ⟨above, hsome, -⟩
    · rw [hnone]
      exact .nil
    · rw [hsome]
      exact .concat above rfl
  cases callback with
  | guard => exact .nil
  | native owner actions => exact .concat [] rfl
  | script function =>
      simp only [callBack]
      split
      · exact hdirective _ _
      · split
        · exact .nil
        · exact .concat [] rfl

end Task

/-- The callback of an include has been called, and what it has begun is carried out before the
pump goes on. -/
def Machine.Winding (m : Machine) (key : Nat) (rest : List Task) : Prop :=
  ∃ above, Task.Scripted above ∧
    (m.agenda = above ++ .report key :: .drain key :: rest ∨
      m.agenda = above ++ .drain key :: rest)

namespace Machine

variable {m m' : Machine} {key : Nat} {above rest : List Task}

/-- No callback is called once more. -/
theorem Winding.not_called (hwinding : m.Winding key rest) (callback : Callback) :
    ¬ .call key callback [] :: .report key :: .drain key :: rest <:+ m.agenda := by
  rintro ⟨pre, hpre⟩
  obtain ⟨above, hscripted, hagenda | hagenda⟩ := hwinding
  · have hlists : pre ++ [.call key callback []] = above := by
      apply (List.append_left_inj (.report key :: .drain key :: rest)).mp
      simpa using hpre.trans hagenda
    cases hscripted (.call key callback []) (hlists ▸ List.getLast?_concat)
  · have hlists : (pre ++ [.call key callback []]) ++ [.report key] = above := by
      apply (List.append_left_inj (.drain key :: rest)).mp
      simpa using hpre.trans hagenda
    cases hscripted (.report key) (hlists ▸ List.getLast?_concat)

/-- What a script has begun goes on above the same tasks, until it is their turn. -/
theorem Next.scripted {x : Task} (hnext : m.Next m') (hcrashed : m'.world.crashed = false)
    (hscripted : Task.Scripted above) (hx : x.isPerform = false)
    (hagenda : m.agenda = above ++ x :: rest) :
    (∃ above', Task.Scripted above' ∧ m'.agenda = above' ++ x :: rest) ∨
      above = [] ∧ m' = m.step := by
  rcases hnext.shifts hx hcrashed hagenda with ⟨t, above, rfl, -, hagenda', -⟩ |
    ⟨above', hshifts, hagenda', -⟩ | hturn
  · exact .inl ⟨_, hscripted.react m.world m.outcome, hagenda'⟩
  · exact .inl ⟨above', hscripted.shifts hshifts, hagenda'⟩
  · exact .inr hturn

theorem report_step {tail : List Task} (hagenda : m.agenda = .report key :: tail)
    (hcrashed : m.step.world.crashed = false) : m.step.agenda = tail := by
  rw [step_agenda hagenda, hcrashed, if_neg Bool.false_ne_true]
  simp only [Task.react]
  split <;> rfl

/-- What the callback has begun goes on until the pump does. -/
theorem Next.winding (hnext : m.Next m') (hcrashed : m'.world.crashed = false)
    (hwinding : m.Winding key rest) :
    m'.Winding key rest ∨ m.agenda = .drain key :: rest ∧ m' = m.step := by
  obtain ⟨above, hscripted, hagenda | hagenda⟩ := hwinding
  · left
    rcases hnext.scripted hcrashed hscripted rfl hagenda with
      ⟨above', hscripted', hagenda'⟩ | ⟨rfl, rfl⟩
    · exact ⟨above', hscripted', .inl hagenda'⟩
    · exact ⟨[], .nil, .inr (report_step hagenda hcrashed)⟩
  · rcases hnext.scripted hcrashed hscripted rfl hagenda with
      ⟨above', hscripted', hagenda'⟩ | ⟨rfl, hstep⟩
    · exact .inl ⟨above', hscripted', .inr hagenda'⟩
    · exact .inr ⟨hagenda, hstep⟩

end Machine

/-! How deferred includes are served. -/

/-- An include of step `n` that does not wait, whose fetch is answered in step `c`. -/
structure Deferred (σ : Nat → Machine) (n : Nat) (i : Include) (callback : Callback) (c : Nat)
    (results : FetchResults) : Prop where
  includes : Includes σ n i
  opens : (σ n).world.isStopping i.host = false
  wants : i.callback = some callback
  replies : Replies σ n i c results

/-- What a pump does for a deferred include. -/
inductive Service where
  | treated (x : Treatment)
  | calledBack
deriving DecidableEq, Repr

/-- In step `k` a pump treats an entry of the batch of a deferred include, or calls its callback. -/
def Serving (σ : Nat → Machine) (key : Nat) (callback : Callback) (results : FetchResults)
    (rest : List Task) (k : Nat) : Service → Prop
  | .treated x =>
      Treats σ key results (.call key callback [] :: .report key :: .drain key :: rest) k x
  | .calledBack => Executes σ k (.call key callback []) (.report key :: .drain key :: rest)

/-- The answer that came in step `c` for a deferred include is taken in step `d`, and the pump goes
on in step `q`. -/
structure Serves (σ : Nat → Machine) (key : Nat) (urls : List Url) (callback : Callback)
    (results : FetchResults) (c d q : Nat) : Prop where
  after : c < d
  takes : Takes σ key c d
  /-- Meanwhile all entries are treated in the order of the list, each once and as its result says,
  and then the callback is called once. -/
  serving : ∃ rest, (σ (d + 1)).agenda =
      .batch key urls results :: .call key callback [] :: .report key :: .drain key :: rest ∧
    Log (Serving σ key callback results rest) (d + 1) q
      (urls.map (fun url => .treated (results.treatment url)) ++ [.calledBack]) ∧
    Executes σ q (.drain key) rest
  /-- No other command of the host is carried out meanwhile. -/
  alone : ∀ k, d < k → k < q → ∀ rest, ¬ Executes σ k (.drain key) rest

namespace Behavior

variable {σ : Nat → Machine} (hσ : Behavior σ)

include hσ

/-- A task that is gone from its place was executed there for a first time. -/
theorem first_popped {x : Task} {tail : List Task} {a n : Nat} (hx : x.isPerform = false)
    (hsuffix : x :: tail <:+ (σ a).agenda) (han : a ≤ n) (hexec : Executes σ n x tail) :
    ∃ i, a ≤ i ∧ i ≤ n ∧ Executes σ i x tail ∧ (∀ j, a ≤ j → j < i → ¬ Executes σ j x tail) ∧
      ∀ j, a ≤ j → j ≤ i → x :: tail <:+ (σ j).agenda := by
  obtain ⟨i, hai, hin, hfirst, hnone⟩ := Executes.first han hexec
  refine ⟨i, hai, hin, hfirst, hnone, ?_⟩
  rcases hσ.stays_or_popped hx hsuffix hai ((hσ.sound i).uncrashed hfirst.agenda) with
    hstays | ⟨j, haj, hji, hearlier, -⟩
  · exact hstays
  · exact absurd hearlier (hnone j haj hji)

variable {key d p : Nat} {urls : List Url} {callback : Callback} {results : FetchResults}
  {rest : List Task}

/-- A pump that is through with the commands of its host comes back to them after each. -/
theorem back_of_drained (hagenda : .drain key :: rest <:+ (σ (d + 1)).agenda) (hdp : d < p)
    (hdrained : Drained σ key p) : ∃ q, d < q ∧ q ≤ p ∧ Executes σ q (.drain key) rest ∧
      (∀ k, d < k → k ≤ q → .drain key :: rest <:+ (σ k).agenda) ∧
      ∀ k, d < k → k < q → ∀ rest', ¬ Executes σ k (.drain key) rest' := by
  have hback : ∃ i, d < i ∧ i ≤ p ∧ Executes σ i (.drain key) rest := by
    obtain ⟨⟨rest', hexec⟩, -⟩ := hdrained
    rcases hσ.stays_or_popped rfl hagenda (Nat.succ_le_of_lt hdp)
      ((hσ.sound p).uncrashed hexec.agenda) with hstays | ⟨i, hdi, hip, hexec', -⟩
    · obtain ⟨-, hrest⟩ := hσ.pump_unique rfl rfl (suffix_of_executes hexec)
        (hstays p (Nat.succ_le_of_lt hdp) (Nat.le_refl p))
      exact ⟨p, hdp, Nat.le_refl p, hrest ▸ hexec⟩
    · exact ⟨i, hdi, Nat.le_of_lt hip, hexec'⟩
  obtain ⟨i, hdi, hip, hexec⟩ := hback
  obtain ⟨q, hdq, hqi, hexec', hnone, hstays⟩ := hσ.first_popped rfl hagenda hdi hexec
  refine ⟨q, hdq, Nat.le_trans hqi hip, hexec', fun k hdk hkq => hstays k hdk hkq,
    fun k hdk hkq rest' hother => ?_⟩
  obtain ⟨-, rfl⟩ := hσ.pump_unique rfl rfl (suffix_of_executes hother)
    (hstays k hdk (Nat.le_of_lt hkq))
  exact hnone k hdk hkq hother

/-- All entries of a batch are treated before what comes after it. -/
theorem batch_before_call {e : Nat} {callback : Callback} {tail : List Task}
    (hagenda : (σ (d + 1)).agenda = .batch key urls results :: .call key callback [] :: tail)
    (hde : d < e) (hexec : Executes σ e (.call key callback []) tail)
    (hnone : ∀ k, d < k → k < e → ¬ Executes σ k (.call key callback []) tail)
    (hopen : ∀ k, d < k → k < e → (σ k).world.isStopping key = false) :
    Log (Treats σ key results (.call key callback [] :: tail)) (d + 1) e
      (urls.map results.treatment) := by
  have hcrashed := (hσ.sound e).uncrashed hexec.agenda
  have hproceeds := (hσ.onward (d + 1)).proceeds hde hagenda hcrashed hopen
  cases hproceeds with
  | underway treated next left hlist hnext hwaits hlog =>
      rw [hexec.agenda] at hwaits
      exact absurd hwaits Task.not_suffix_self
  | through j hdj hje hends hlog =>
      refine hlog.idle hje fun k hjk hke x htreats => ?_
      have hafter : (σ (j + 1)).agenda = .call key callback [] :: tail :=
        after hends (hσ.uncrashed hje hcrashed)
      rcases hσ.stuck_until rfl rfl hafter hjk with ⟨hstuck, -⟩ | ⟨i, hji, hik, hearlier, -⟩
      · obtain ⟨left, hsuffix⟩ := htreats.suffix
        rw [hstuck] at hsuffix
        exact absurd hsuffix Task.not_suffix_self
      · exact hnone i (by omega) (by omega) hearlier

/-- After the callback was called what it has begun is carried out, until the pump goes on. -/
theorem winding_until {e k : Nat}
    (hexec : Executes σ e (.call key callback []) (.report key :: .drain key :: rest))
    (hek : e < k) (hcrashed : (σ k).world.crashed = false)
    (hnone : ∀ j, e < j → j < k → ¬ Executes σ j (.drain key) rest) :
    (σ k).Winding key rest := by
  induction hek with
  | refl => exact ⟨_, Task.callBack_scripted _ _ _ _ _, .inl (after hexec hcrashed)⟩
  | @step k hek ih =>
      have hbefore := hσ.uncrashed (Nat.le_succ k) hcrashed
      rcases (hσ.next k).winding hcrashed (ih hbefore fun j hej hjk =>
        hnone j hej (Nat.lt_succ_of_lt hjk)) with hwinding | ⟨hagenda, hstep⟩
      · exact hwinding
      · exact absurd ⟨hagenda, hstep⟩ (hnone k hek (Nat.lt_succ_self k))

/-- The callback is called before the pump goes on. -/
theorem called_before {q : Nat} (hcall : .call key callback [] :: .report key :: .drain key ::
      rest <:+ (σ (d + 1)).agenda) (hdq : d < q) (hback : Executes σ q (.drain key) rest) :
    ∃ e, d < e ∧ e < q ∧ Executes σ e (.call key callback []) (.report key :: .drain key :: rest) ∧
      ∀ k, d < k → k < e →
        ¬ Executes σ k (.call key callback []) (.report key :: .drain key :: rest) := by
  have hgone : ¬ .call key callback [] :: .report key :: .drain key :: rest <:+
      (σ q).agenda := by
    rw [hback.agenda]
    exact fun hsuffix => Nat.not_succ_le_self _ (Nat.le_of_succ_le hsuffix.length_le)
  obtain ⟨e', hde', heq', hexec', -⟩ :=
    hσ.popped rfl hcall hdq ((hσ.sound q).uncrashed hback.agenda) hgone
  obtain ⟨e, hde, hee, hexec, hnone⟩ := Executes.first hde' hexec'
  exact ⟨e, hde, Nat.lt_of_le_of_lt hee heq', hexec, hnone⟩

/-- After the callback was called the batch is done with. -/
theorem not_serving_after {e k : Nat} {x : Service}
    (hexec : Executes σ e (.call key callback []) (.report key :: .drain key :: rest))
    (hek : e < k) (hcrashed : (σ k).world.crashed = false)
    (hnone : ∀ j, e < j → j < k → ¬ Executes σ j (.drain key) rest) :
    ¬ Serving σ key callback results rest k x := by
  intro hserving
  apply (hσ.winding_until hexec hek hcrashed hnone).not_called callback
  cases x with
  | calledBack => exact suffix_of_executes hserving
  | treated x =>
      obtain ⟨left, hsuffix⟩ := Treats.suffix hserving
      exact (List.suffix_cons _ _).trans hsuffix

/-- What a pump does from when it comes to a batch until it goes on. -/
theorem served {q : Nat} (hagenda : (σ (d + 1)).agenda =
      .batch key urls results :: .call key callback [] :: .report key :: .drain key :: rest)
    (hdq : d < q) (hback : Executes σ q (.drain key) rest)
    (halone : ∀ k, d < k → k < q → ∀ rest', ¬ Executes σ k (.drain key) rest')
    (hopen : ∀ k, d < k → k < q → (σ k).world.isStopping key = false) :
    Log (Serving σ key callback results rest) (d + 1) q
      (urls.map (fun url => .treated (results.treatment url)) ++ [.calledBack]) := by
  have hcall : .call key callback [] :: .report key :: .drain key :: rest <:+
      (σ (d + 1)).agenda := by
    rw [hagenda]
    exact List.suffix_cons _ _
  obtain ⟨e, hde, heq, hexec, hnone⟩ := hσ.called_before hcall hdq hback
  have hbatch := hσ.batch_before_call hagenda hde hexec hnone fun k hdk hke =>
    hopen k hdk (Nat.lt_trans hke heq)
  have hlog : Log (Serving σ key callback results rest) (d + 1) e
      ((urls.map results.treatment).map Service.treated) := by
    refine hbatch.map Service.treated (fun _ _ _ _ htreats => htreats) fun k hdk hke y hy => ?_
    cases y with
    | treated x => exact ⟨x, hy, rfl⟩
    | calledBack => exact absurd hy (hnone k hdk hke)
  rw [List.map_map] at hlog
  have hcalled : Log (Serving σ key callback results rest) (d + 1) (e + 1)
      (urls.map (fun url => .treated (results.treatment url)) ++ [.calledBack]) := by
    have hcalls : Serving σ key callback results rest e .calledBack := hexec
    refine hlog.event hcalls fun y hy => ?_
    cases y with
    | calledBack => rfl
    | treated x =>
        obtain ⟨left, hsuffix⟩ := Treats.suffix hy
        rw [hexec.agenda] at hsuffix
        exact absurd hsuffix Task.not_suffix_self
  refine hcalled.idle heq fun k hek hkq y => hσ.not_serving_after hexec hek ?_ fun j hej hjk => ?_
  · exact hσ.uncrashed (Nat.le_of_lt hkq) ((hσ.sound q).uncrashed hback.agenda)
  · exact halone j (Nat.lt_trans hde hej) (Nat.lt_trans hjk hkq) rest

variable {n c n' c' q d' q' : Nat} {i i' : Include} {callback' : Callback}
  {results' : FetchResults} (hdeferred : Deferred σ n i callback c results)

include hdeferred

/-- The answer to a deferred include waits for its host, if that is alive in the end. -/
theorem posts_of_deferred (hcd : c ≤ d) (halive : ((σ d).world.host i.host).alive = true) :
    (σ c).world.Has i.host ∧ Posts σ i.host c (.includeReady (i.urls σ n) callback results) := by
  obtain ⟨hincludes, hopen, hcallback, hreplies⟩ := hdeferred
  have hkey := hσ.has_later (hσ.le_of_replies hreplies) (hσ.has_of_includes hincludes)
  exact ⟨hkey, hσ.posts_of_replies hincludes hopen hcallback hreplies
    (hσ.alive_before hcd hkey halive)⟩

/-- A deferred include is served by the time its host has carried out all its commands. -/
theorem serves_of_drained (hcp : c < p) (hdrained : Drained σ i.host p)
    (hopen : ∀ k, n ≤ k → k ≤ p → (σ k).world.isStopping i.host = false) :
    ∃ d q, q ≤ p ∧ Serves σ i.host (i.urls σ n) callback results c d q := by
  obtain ⟨⟨rest, hexec⟩, -⟩ := id hdrained
  obtain ⟨hkey, hposts⟩ :=
    hσ.posts_of_deferred hdeferred (Nat.le_of_lt hcp) (hσ.alive_of_drain hexec)
  obtain ⟨d, hcd, hdp, htakes⟩ := hσ.taken_before hposts hkey hcp hdrained
  obtain ⟨hincludes, hopen', hcallback, hreplies⟩ := hdeferred
  have hnc := hσ.le_of_replies hreplies
  obtain ⟨below, -, hagenda⟩ :=
    hσ.batch_of_takes hincludes hopen' hcallback hreplies hcd htakes
  have hsuffix : .drain i.host :: below <:+ (σ (d + 1)).agenda := by
    rw [hagenda]
    exact ⟨[_, _, _], rfl⟩
  obtain ⟨q, hdq, hqp, hback, -, halone⟩ := hσ.back_of_drained hsuffix hdp hdrained
  refine ⟨d, q, hqp, hcd, htakes, ⟨below, hagenda, ?_, hback⟩, halone⟩
  exact hσ.served hagenda hdq hback halone fun k hdk hkq => hopen k (by omega) (by omega)

/-- Deferred includes are served in the order in which their answers came. -/
theorem serves_in_order (hcc : c < c')
    (hserves : Serves σ i.host (i.urls σ n) callback results c d q)
    (hserves' : Serves σ i.host (i'.urls σ n') callback' results' c' d' q') : q ≤ d' := by
  obtain ⟨rest, hexec⟩ := hserves.takes.drains
  obtain ⟨rest', hexec'⟩ := hserves'.takes.drains
  obtain ⟨hkey, hposts⟩ := hσ.posts_of_deferred hdeferred (Nat.le_of_lt hserves.after)
    (hσ.alive_of_drain hexec)
  have hdd := hσ.taken_in_order hposts hkey hcc hserves.takes hserves'.takes
    (Nat.le_of_lt hserves'.after)
  exact Nat.le_of_not_lt fun hdq => hserves.alone d' hdd hdq rest' hexec'

omit hσ in
/-- One step answers one include. -/
theorem deferred_unique (hdeferred' : Deferred σ n' i' callback' c results') : n = n' := by
  obtain ⟨⟨t, rest, hexec, hincludes⟩, -, -, hreplies⟩ := hdeferred
  obtain ⟨⟨t', rest', hexec', hincludes'⟩, -, -, hreplies'⟩ := hdeferred'
  rcases hreplies with ⟨rfl, -⟩ | ⟨index, f, hkept, ⟨u, below, hanswer, hcompletes⟩, -⟩ <;>
  rcases hreplies' with ⟨rfl, -⟩ | ⟨index', f', hkept', ⟨u', below', hanswer', hcompletes'⟩, -⟩
  · rfl
  · obtain ⟨scope, actions, rfl⟩ := Task.completes?_iff.mp hcompletes'
    rw [(hexec.unique hanswer').1] at hincludes
    cases hincludes
  · obtain ⟨scope, actions, rfl⟩ := Task.completes?_iff.mp hcompletes
    rw [(hexec'.unique hanswer).1] at hincludes'
    cases hincludes'
  · rw [(hanswer.unique hanswer').1] at hcompletes
    cases hcompletes.symm.trans hcompletes'
    exact Option.some.inj (hkept.date.symm.trans hkept'.date)

end Behavior

theorem Serves.unique {σ : Nat → Machine} {key c d q d' q' : Nat} {urls : List Url}
    {callback : Callback} {results : FetchResults}
    (hserves : Serves σ key urls callback results c d q)
    (hserves' : Serves σ key urls callback results c d' q') : d = d' ∧ q = q' := by
  obtain rfl := hserves.takes.unique hserves'.takes
  have hnot : ∀ {q q'}, Serves σ key urls callback results c d q →
      Serves σ key urls callback results c d q' → ¬ q < q' := by
    intro q q' hserves hserves' hlt
    obtain ⟨rest, -, hlog, hback⟩ := hserves.serving
    exact hserves'.alone q hlog.le hlt rest hback
  exact ⟨rfl, Nat.le_antisymm (Nat.le_of_not_lt (hnot hserves' hserves))
    (Nat.le_of_not_lt (hnot hserves hserves'))⟩

/-- Includes that do not wait do what those do that wait, but later and one after the other. -/
structure Deferrals (σ : Nat → Machine) : Prop where
  /-- Two includes of the same references report the same ones. With the same answer to their
  batches the same evaluations and reports follow in the same order, whether their scripts wait or
  not, in this execution or in any other. -/
  agree : ∀ {σ' τ τ' : Nat → Machine} {n n' a a' j j' : Nat} {i i' : Include}
    {results : FetchResults} {tail tail' : List Task}, Behavior σ' →
    i'.references = i.references →
    ((σ' n').world.host i'.host).resolve? = ((σ n).world.host i.host).resolve? →
    Completes σ n i results τ tail a j → Completes σ' n' i' results τ' tail' a' j' →
    (((σ' n').world.host i'.host).outlet.detached = ((σ n).world.host i.host).outlet.detached →
      told σ' i'.host n' = told σ i.host n) ∧
    Log (Treats τ i.host results tail) a (j + 1) ((i.urls σ n).map results.treatment) ∧
    Log (Treats τ' i'.host results tail') a' (j' + 1) ((i.urls σ n).map results.treatment)
  /-- An include is answered once, and one step answers one include. -/
  answered : ∀ {n n' c c' : Nat} {i i' : Include} {callback callback' : Callback}
    {results results' : FetchResults}, Deferred σ n i callback c results →
    Deferred σ n' i' callback' c' results' → (n = n' ↔ c = c')
  /-- An include is served by every pump of its host that is at work after the answer came. -/
  served : ∀ {n c a m : Nat} {i : Include} {callback : Callback} {results : FetchResults}
    {rest : List Task}, Deferred σ n i callback c results → c < a → a ≤ m →
    Pumping σ i.host rest a → ¬ Pumping σ i.host rest m → (σ m).world.crashed = false →
    (∀ k, n ≤ k → k < m → (σ k).world.isStopping i.host = false) →
    ∃ d q, q < m ∧ Serves σ i.host (i.urls σ n) callback results c d q
  once : ∀ {key c d q d' q' : Nat} {urls : List Url} {callback : Callback}
    {results : FetchResults}, Serves σ key urls callback results c d q →
    Serves σ key urls callback results c d' q' → d = d' ∧ q = q'
  /-- Includes of one host are served one after the other, in the order of their answers. -/
  ordered : ∀ {n n' c c' d d' q q' : Nat} {i i' : Include} {callback callback' : Callback}
    {results results' : FetchResults}, Deferred σ n i callback c results →
    Deferred σ n' i' callback' c' results' → i'.host = i.host → c < c' →
    Serves σ i.host (i.urls σ n) callback results c d q →
    Serves σ i'.host (i'.urls σ n') callback' results' c' d' q' → q ≤ d'

/-- Deferred includes agree with those that wait, and are served in the order of their answers. -/
theorem deferrals_agree {σ : Nat → Machine} (hσ : Behavior σ) : Deferrals σ where
  agree := by
    intro σ' τ τ' n n' a a' j j' i i' results tail tail' hσ' hsame hmeans hdone hdone'
    have hurls : i'.urls σ' n' = i.urls σ n := by
      rw [Include.urls, Include.urls, Host.resolved, Host.resolved, hsame, hmeans]
    refine ⟨fun hcut => ?_, hdone.treated hσ, hurls ▸ hdone'.treated hσ'⟩
    rw [hσ'.told_of_includes hdone'.includes hdone'.opens,
      hσ.told_of_includes hdone.includes hdone.opens, Host.misses, Host.misses, Host.unresolved,
      Host.unresolved, hsame, hmeans, hcut]
  answered := by
    intro n n' c c' i i' callback callback' results results' hdeferred hdeferred'
    constructor
    · rintro rfl
      obtain ⟨hincludes, hopen, hcallback, hreplies⟩ := hdeferred
      obtain rfl := hincludes.unique hdeferred'.includes
      exact (hσ.replies_unique hincludes hopen hcallback hreplies hdeferred'.replies).1
    · rintro rfl
      exact Behavior.deferred_unique hdeferred hdeferred'
  served := by
    intro n c a m i callback results rest hdeferred hca ham hpumping hthrough hcrashed hopen
    obtain ⟨p, hap, hpm, hdrained⟩ := hσ.drained_of_through hpumping ham hthrough hcrashed
    obtain ⟨d, q, hqp, hserves⟩ := hσ.serves_of_drained hdeferred (Nat.lt_of_lt_of_le hca hap)
      hdrained fun k hnk hkp => hopen k hnk (Nat.lt_of_le_of_lt hkp hpm)
    exact ⟨d, q, Nat.lt_of_le_of_lt hqp hpm, hserves⟩
  once := Serves.unique
  ordered := by
    intro n n' c c' d d' q q' i i' callback callback' results results' hdeferred hdeferred' hhost
      hcc hserves hserves'
    rw [hhost] at hserves'
    exact hσ.serves_in_order hdeferred hcc hserves hserves'

namespace Machine

variable {m : Machine}

/-- When a fetch is completed an include is answered that did not wait for it. -/
theorem deferred_trace {n c : Nat} (index : Nat) {i : Include} {callback : Callback}
    (hincludes : Includes m.trace n i) (hwants : i.callback = some callback)
    (hcompletes : (m.trace n).world.isStopping i.host = false ∧
      (m.trace c).world.fetches[index]?.isSome = true ∧ (dates m.trace c)[index]? = some n ∧
      Brings m.trace (fun _ t => t.completes?) c index) :
    ∃ results, Deferred m.trace n i callback c results := by
  obtain ⟨hopen, hkept, hdate, hcompletes⟩ := hcompletes
  obtain ⟨f, hf⟩ := Option.isSome_iff_exists.mp hkept
  exact ⟨_, hincludes, hopen, hwants, .inr ⟨index, f, ⟨hdate, hf⟩, hcompletes, rfl⟩⟩

end Machine

/-- A script includes the same references twice. At first it does not wait for them, and includes
others before it waits. The others are answered first, and then the host is run. -/
def Machine.deferring : Machine :=
  .start (.start default [("http://x/a.js", "A"), ("http://x/b.js", "B")] [] [] default)
    [.build ⟨"h", "body", "h.js", some "http://x/", .standard, "", none,
        some ⟨false, false, false, true⟩, false, none, false, 1⟩ [],
      .inScript (some "h") (.includeAll ["a.js", "http://[", "f.js"] (some (.script "first"))),
      .inScript (some "h") (.includeAll ["b.js"] (some (.script "second"))),
      .inScript (some "h") (.includeAll ["a.js", "http://[", "f.js"] none),
      .onWorld (.complete 1), .onWorld (.complete 0), .onHost (some "h") .run]

namespace Machine

/-- The first include of the references, and the second one. -/
abbrev unawaited : Include :=
  ⟨0, ["a.js", "http://[", "f.js"], some (.script "first")⟩

abbrev awaited : Include :=
  ⟨0, ["a.js", "http://[", "f.js"], none⟩

theorem deferring_behavior : Behavior deferring.trace :=
  trace_behavior ..

/-- No stop-all call begins, and the host can evaluate. -/
theorem deferring_quiet : ∀ k < 70, (deferring.trace k).world.isStopping 0 = false ∧
    (deferring.trace k).agenda.head?.bind Task.stopsAll? = none := by
  decide +kernel

/-- So it is however the batches of the repeated references are answered, and in the end nothing is
left to do. -/
theorem deferring_ends : ∀ a ∈ [4, 38],
    (∀ k < 70, (deferring.answered .poorer a k).agenda.head?.bind Task.stopsAll? = none) ∧
    (deferring.answered .poorer a 70).agenda.isEmpty = true ∧
    (deferring.answered .poorer a 70).world.crashed = false := by
  decide +kernel

theorem deferring_completes {n a : Nat} {i : Include} (hn : n < 70) (ha : a ∈ [4, 38])
    (hhost : i.host = 0) (hincludes : Includes deferring.trace n i)
    (harrives : Arrives deferring.trace n i a) : ∃ tail j,
    Completes deferring.trace n i .poorer (deferring.answered .poorer a) tail a j := by
  obtain ⟨hopen, -⟩ := deferring_quiet n hn
  obtain ⟨hnone, hnothing, hcrashed⟩ := deferring_ends a ha
  have ham : a < 70 := (by decide : ∀ a ∈ [4, 38], a < 70) a ha
  rw [← hhost] at hopen
  refine deferring_behavior.completes hincludes hopen harrives (fun k _ hka => ?_) answered_start
    (fun _ => answered_next) (Nat.le_of_lt ham) hcrashed (List.isEmpty_iff.mp hnothing)
    fun k _ hk => not_stopsAll_of_agenda (hnone k hk)
  exact not_stopsAll_of_agenda (deferring_quiet k (Nat.lt_trans hka ham)).2

end Machine

/-- The two includes of the same references agree, and the one that does not wait is served after
that of the others, whose answer came before. -/
theorem deferring_agrees :
    told deferring.trace 0 1 = told deferring.trace 0 3 ∧
    (∃ tail tail' j j', Log (Treats (deferring.answered .poorer 38) 0 .poorer tail) 38 (j + 1)
        [.reported "http://x/a.js", .evaluated "throw oops" "http://x/f.js" 1] ∧
      Log (Treats (deferring.answered .poorer 4) 0 .poorer tail') 4 (j' + 1)
        [.reported "http://x/a.js", .evaluated "throw oops" "http://x/f.js" 1]) ∧
    ∃ urls urls' results results' d q d' q',
      Serves deferring.trace 0 urls' (.script "second") results' 15 d' q' ∧
      Serves deferring.trace 0 urls (.script "first") results 16 d q ∧ q' ≤ d := by
  have hdeferrals := deferrals_agree deferring_behavior
  have hunawaited : Includes deferring.trace 1 unawaited :=
    includes_trace (some "first") (by decide +kernel)
  have hawaited : Includes deferring.trace 3 awaited := includes_trace none (by decide +kernel)
  have hothers : Includes deferring.trace 2 ⟨0, ["b.js"], some (.script "second")⟩ :=
    includes_trace (some "second") (by decide +kernel)
  obtain ⟨results, hfirst⟩ : ∃ results,
      Deferred deferring.trace 1 unawaited (.script "first") 16 results :=
    deferred_trace 0 hunawaited rfl (by decide +kernel)
  obtain ⟨results', hsecond⟩ : ∃ results, Deferred deferring.trace 2
      ⟨0, ["b.js"], some (.script "second")⟩ (.script "second") 15 results :=
    deferred_trace 1 hothers rfl (by decide +kernel)
  have htakes : Takes deferring.trace 0 16 37 :=
    ⟨drains_trace (by decide +kernel), List.isEmpty_eq_false_iff.mp (by decide +kernel),
      by decide +kernel⟩
  -- with the same answer both includes of the same references complete
  obtain ⟨tail, j, hdone⟩ := deferring_completes (by decide) (by decide : 38 ∈ [4, 38]) rfl
    hunawaited ⟨16, 37, _, rfl, hfirst.replies, by decide, htakes⟩
  obtain ⟨tail', j', hdone'⟩ := deferring_completes (by decide) (by decide : 4 ∈ [4, 38]) rfl
    hawaited rfl
  obtain ⟨hparent, horigin, hdetached⟩ :
      ((deferring.trace 3).world.host 0).parent = ((deferring.trace 1).world.host 0).parent ∧
      ((deferring.trace 3).world.host 0).script.origin =
        ((deferring.trace 1).world.host 0).script.origin ∧
      ((deferring.trace 3).world.host 0).outlet.detached =
        ((deferring.trace 1).world.host 0).outlet.detached := by decide +kernel
  have hmeans : ((deferring.trace 3).world.host 0).resolve? =
      ((deferring.trace 1).world.host 0).resolve? := by
    funext reference
    rw [Host.resolve?, Host.resolve?, hparent, horigin]
  have hsame : awaited.references = unawaited.references := rfl
  obtain ⟨htold, hlog, hlog'⟩ := hdeferrals.agree deferring_behavior hsame hmeans hdone hdone'
  have htreatments : (unawaited.urls deferring.trace 1).map FetchResults.poorer.treatment =
      [.reported "http://x/a.js", .evaluated "throw oops" "http://x/f.js" 1] := by
    decide +kernel
  rw [htreatments] at hlog hlog'
  refine ⟨(htold hdetached).symm, ⟨tail, tail', j, j', hlog, hlog'⟩, ?_⟩
  -- the pump of the run serves both includes that do not wait
  obtain ⟨rest, hexec⟩ : ∃ rest, Executes deferring.trace 28 (.drain 0) rest :=
    drains_trace (by decide +kernel)
  have hpumping : Pumping deferring.trace 0 rest 28 := Behavior.suffix_of_executes hexec
  obtain ⟨hnothing, hcrashed⟩ : (deferring.trace 70).agenda.isEmpty = true ∧
      (deferring.trace 70).world.crashed = false := by decide +kernel
  have hthrough : ¬ Pumping deferring.trace 0 rest 70 := by
    rw [Pumping, List.isEmpty_iff.mp hnothing]
    exact fun hsuffix => Nat.not_succ_le_zero _ hsuffix.length_le
  have hopen : ∀ k < 70, (deferring.trace k).world.isStopping 0 = false :=
    fun k hk => (deferring_quiet k hk).1
  obtain ⟨d, q, -, hserves⟩ := hdeferrals.served hfirst (by decide) (by decide) hpumping hthrough
    hcrashed fun k _ => hopen k
  obtain ⟨d', q', -, hserves'⟩ := hdeferrals.served hsecond (by decide) (by decide) hpumping
    hthrough hcrashed fun k _ => hopen k
  exact ⟨_, _, _, _, d, q, d', q', hserves', hserves,
    hdeferrals.ordered hsecond hfirst rfl (by decide) hserves' hserves⟩

end TickHost
