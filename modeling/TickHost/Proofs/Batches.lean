import TickHost.Proofs.Calm

/-!
What becomes of the entries of a batch. They are treated in the order of the list: a text that came
is evaluated under its own URL, and for every other the host reports that there is none. The batch
waits below the evaluation of an entry, with the rest of the list. So the rest is next when the
evaluation is over, however it ends and whatever else it has begun.

A batch may come with any answer, also one that no fetcher gives. So this is about executions that
go on from where a batch comes up, however it is answered.
-/

namespace TickHost

open World Machine

/-- The machine, if the batch that comes up next had been answered differently. -/
def Machine.reply (m : Machine) (results : FetchResults) : Machine :=
  match m.agenda with
  | .batch key urls _ :: rest => { m with agenda := .batch key urls results :: rest }
  | _ => m

/-- What becomes of an entry of a batch. -/
inductive Treatment where
  | evaluated (text origin : String) (line : Nat)
  | reported (origin : String)
deriving DecidableEq, Repr

/-- What the results of a batch mean for one of its URLs. -/
def FetchResults.treatment (results : FetchResults) (url : Url) : Treatment :=
  match results.get? url with
  | some (.ok text) => .evaluated text url.render 1
  | _ => .reported url.render

theorem FetchResults.treatment_ok {results : FetchResults} {url : Url} {text : String}
    (hresult : results.get? url = some (.ok text)) :
    results.treatment url = .evaluated text url.render 1 := by
  rw [treatment, hresult]

/-- What happens from step `a` on and before step `n`, in order, of what has some kind. -/
inductive Log {α : Type} (kind : Nat → α → Prop) (a : Nat) : Nat → List α → Prop where
  | start : Log kind a a []
  | quiet {n : Nat} {xs : List α} (hlog : Log kind a n xs) (hnone : ∀ x, ¬ kind n x) :
      Log kind a (n + 1) xs
  | event {n : Nat} {xs : List α} {x : α} (hlog : Log kind a n xs) (hkind : kind n x)
      (honly : ∀ y, kind n y → y = x) : Log kind a (n + 1) (xs ++ [x])

namespace Log

variable {α : Type} {kind : Nat → α → Prop} {a n : Nat} {xs ys : List α}

theorem le (hlog : Log kind a n xs) : a ≤ n := by
  induction hlog with
  | start => exact Nat.le_refl a
  | quiet _ _ ih | event _ _ _ ih => exact Nat.le_succ_of_le ih

theorem unique (hlog : Log kind a n xs) (hlog' : Log kind a n ys) : xs = ys := by
  induction hlog generalizing ys with
  | start =>
      cases hlog' with
      | start => rfl
      | quiet hlog _ | event hlog _ _ => exact absurd hlog.le (Nat.not_succ_le_self _)
  | quiet hlog hnone ih =>
      cases hlog' with
      | start => exact absurd hlog.le (Nat.not_succ_le_self _)
      | quiet hlog' _ => exact ih hlog'
      | event _ hkind _ => exact absurd hkind (hnone _)
  | event hlog hkind honly ih =>
      cases hlog' with
      | start => exact absurd hlog.le (Nat.not_succ_le_self _)
      | quiet _ hnone => exact absurd hkind (hnone _)
      | event hlog' hkind' _ => rw [ih hlog', honly _ hkind']

/-- While nothing of the kind happens nothing is added. -/
theorem idle {m : Nat} (hlog : Log kind a n xs) (hnm : n ≤ m)
    (hnone : ∀ k, n ≤ k → k < m → ∀ x, ¬ kind k x) : Log kind a m xs := by
  induction hnm with
  | refl => exact hlog
  | @step m hnm ih =>
      refine (ih fun k hnk hkm => hnone k hnk (Nat.lt_succ_of_lt hkm)).quiet ?_
      exact hnone m hnm (Nat.lt_succ_self m)

/-- The same happens, told in other words. -/
theorem map {β : Type} {kind' : Nat → β → Prop} (f : α → β) (hlog : Log kind a n xs)
    (hto : ∀ k, a ≤ k → k < n → ∀ x, kind k x → kind' k (f x))
    (hof : ∀ k, a ≤ k → k < n → ∀ y, kind' k y → ∃ x, kind k x ∧ y = f x) :
    Log kind' a n (xs.map f) := by
  induction hlog with
  | start => exact .start
  | @quiet n xs hlog hnone ih =>
      refine (ih (fun k hak hkn => hto k hak (Nat.lt_succ_of_lt hkn))
        fun k hak hkn => hof k hak (Nat.lt_succ_of_lt hkn)).quiet fun y hy => ?_
      obtain ⟨x, hx, -⟩ := hof n hlog.le (Nat.lt_succ_self n) y hy
      exact hnone x hx
  | @event n xs x hlog hkind honly ih =>
      rw [List.map_append]
      refine (ih (fun k hak hkn => hto k hak (Nat.lt_succ_of_lt hkn))
        fun k hak hkn => hof k hak (Nat.lt_succ_of_lt hkn)).event
          (hto n hlog.le (Nat.lt_succ_self n) x hkind) fun y hy => ?_
      obtain ⟨x', hx', rfl⟩ := hof n hlog.le (Nat.lt_succ_self n) y hy
      rw [honly x' hx']

end Log

/-- What a host says in one step, and as what it says it. -/
def told (σ : Nat → Machine) (key n : Nat) : List (Source × Event) :=
  (heard σ key n (n + 1)).map fun e => (e.source, e.event)

/-- How a host reports that texts could not be loaded: not at all, if it is cut off. -/
def Host.misses (h : Host) (origins : List String) : List (Source × Event) :=
  if h.outlet.detached then []
  else origins.map fun origin => (.loader, .errorLoadingScript origin)

/-- In step `i` an entry of a batch is treated: its text enters the script engine, or the host
reports that there is none. -/
def Treats (τ : Nat → Machine) (key : Nat) (results : FetchResults) (tail : List Task) (i : Nat) :
    Treatment → Prop
  | .evaluated text origin line => ∃ left, Executes τ i (.engine key text origin line)
      (.announce key :: .batch key left results :: tail)
  | .reported origin => ∃ url left, Executes τ i (.batch key (url :: left) results) tail ∧
      results.treatment url = .reported origin ∧
        told τ key i = ((τ i).world.host key).misses [origin]

/-- How far a batch is before step `m` that has come up at moment `a`. -/
inductive Proceeds (τ : Nat → Machine) (key : Nat) (urls : List Url) (results : FetchResults)
    (tail : List Task) (a m : Nat) : Prop where
  /-- The entries up to some place were treated, and the others are to come. The next of them may
  have been admitted, so that the batch waits for it with what is left. -/
  | underway (treated next left : List Url) (hlist : urls = treated ++ next ++ left)
      (hnext : next.length ≤ 1) (hwaits : .batch key left results :: tail <:+ (τ m).agenda)
      (hlog : Log (Treats τ key results tail) a m (treated.map results.treatment))
  /-- All entries were treated, and then the batch was over. -/
  | through (j : Nat) (haj : a ≤ j) (hj : j < m) (hends : Executes τ j (.batch key [] results) tail)
      (hlog : Log (Treats τ key results tail) a (j + 1) (urls.map results.treatment))

namespace Task

/-- The tasks above a batch, with the outcome so far and the entry that is due but has not entered
the script engine. -/
inductive Batching (key : Nat) (results : FetchResults) :
    List Task → Outcome → Option Url → Prop where
  | waits {o : Outcome} : Batching key results [] o none
  /-- Others got a turn before the next entry. -/
  | script (above : List Task) (scope : Scope) (actions : List Action) (o : Outcome) :
      Batching key results (above ++ [perform scope actions]) o none
  | admitted {url : Url} {text : String} (hresult : results.get? url = some (.ok text))
      (o : Outcome) : Batching key results [evaluate key text url.render 1] o (some url)
  | entering (above : List Task) {url : Url} {text : String}
      (hresult : results.get? url = some (.ok text)) (o : Outcome) :
      Batching key results (above ++ [engine key text url.render 1, announce key]) o (some url)
  | entered {above : List Task} {o : Outcome} (hengaged : Engaged above o) :
      Batching key results (above ++ [announce key]) o none

variable {w : World} {o : Outcome} {key : Nat} {results : FetchResults} {above : List Task}
  {next : Option Url}

theorem performOne_next (w : World) (o : Outcome) (scope : Scope) (actions : List Action) :
    (performOne w o scope actions).next = [] ∨
      ∃ above rest, (performOne w o scope actions).next = above ++ [perform scope rest] := by
  cases actions with
  | nil => exact .inl rfl
  | cons action rest =>
      simp only [performOne]
      split
      · exact .inl rfl
      · exact .inl rfl
      · exact .inr ⟨_, rest, rfl⟩

namespace Batching

/-- Others can only put scripts on top. -/
theorem cons (h : Batching key results above o next)
    (htop : ∀ t rest, above = t :: rest → t.pauses = true) (scope : Scope)
    (actions : List Action) : Batching key results (perform scope actions :: above) o next := by
  cases h with
  | waits => exact .script [] scope actions o
  | script above other others => exact .script (_ :: above) other others o
  | admitted hresult => cases htop _ _ rfl
  | entering above hresult => exact .entering (_ :: above) hresult o
  | @entered above o hengaged =>
      cases above with
      | nil => cases htop _ _ rfl
      | cons first above => exact .entered (hengaged.cons (htop _ _ rfl) scope actions)

theorem choose {scope : Scope} {actions : List Action} {above : List Task}
    (h : Batching key results (perform scope actions :: above) o next) (chosen : List Action) :
    Batching key results (perform scope chosen :: above) o next := by
  generalize htasks : perform scope actions :: above = tasks at h
  cases h with
  | waits | admitted => cases htasks
  | script before other others =>
      cases before with
      | nil =>
          cases htasks
          exact .script [] scope chosen o
      | cons first before =>
          cases htasks
          exact .script (_ :: before) other others o
  | entering before hresult =>
      cases before with
      | nil => cases htasks
      | cons first before =>
          cases htasks
          exact .entering (_ :: before) hresult o
  | @entered before o hengaged =>
      cases before with
      | nil => cases htasks
      | cons first before =>
          cases htasks
          exact .entered (hengaged.choose chosen)

/-- With nothing above the batch no entry is due. -/
theorem idle (h : Batching key results [] o next) : next = none := by
  generalize hnothing : ([] : List Task) = above at h
  cases h with
  | waits => rfl
  | script above | entering above | entered => simp at hnothing
  | admitted => cases hnothing

/-- An entry that enters the script engine is the one that is due. -/
theorem enters {text origin : String} {line : Nat}
    (h : Batching key results [engine key text origin line, announce key] o next) :
    ∃ url, next = some url ∧ results.treatment url = .evaluated text origin line := by
  generalize htasks : [engine key text origin line, announce key] = tasks at h
  cases h with
  | waits | admitted => cases htasks
  | script before scope actions =>
      rcases before with _ | ⟨first, _ | ⟨second, before⟩⟩ <;> simp at htasks
  | @entering before url text' hresult =>
      rcases before with _ | ⟨first, before⟩
      · cases htasks
        exact ⟨url, rfl, FetchResults.treatment_ok hresult⟩
      · have hlength := congrArg List.length htasks
        simp at hlength
  | @entered before o hengaged =>
      rcases before with _ | ⟨first, _ | ⟨second, before⟩⟩ <;> simp at htasks
      -- the engine has not begun anything that would be the engine again
      obtain rfl := htasks
      generalize hfirst : [engine key text origin line] = above at hengaged
      cases hengaged with
      | left => cases hfirst
      | script above => rcases above with _ | ⟨_, _ | ⟨_, above⟩⟩ <;> simp at hfirst
      | directives => cases hfirst
      | batch above => rcases above with _ | ⟨_, above⟩ <;> simp at hfirst

/-- A step of what is above a batch brings it further: an entry enters the script engine, or none
does. -/
theorem react {t : Task} (h : Batching key results (t :: above) o next)
    (hopen : w.isStopping key = false) :
    (∃ text origin line, t :: above = [engine key text origin line, announce key]) ∧
        Batching key results ((t.react w o).next ++ above) (t.react w o).outcome none ∨
      (∀ text origin line, t :: above ≠ [engine key text origin line, announce key]) ∧
        Batching key results ((t.react w o).next ++ above) (t.react w o).outcome next := by
  generalize htasks : t :: above = tasks at h
  cases h with
  | waits => cases htasks
  | script before scope actions =>
      right
      constructor
      · intro text origin line heq
        rcases before with _ | ⟨first, _ | ⟨second, before⟩⟩ <;> simp at heq
      · cases before with
        | nil =>
            cases htasks
            rw [List.append_nil]
            rcases performOne_next w o scope actions with hnone | ⟨front, rest, hsome⟩
            · simp only [Task.react, hnone]
              exact .waits
            · simp only [Task.react, hsome]
              exact .script front scope rest _
        | cons first before =>
            rw [List.cons_append] at htasks
            cases htasks
            rw [← List.append_assoc]
            exact .script _ scope actions _
  | admitted hresult =>
      cases htasks
      rw [react_evaluate_next _ _ _ hopen]
      exact .inr ⟨fun _ _ _ => by simp, .entering [initialise key] hresult _⟩
  | entering before hresult =>
      cases before with
      | nil =>
          cases htasks
          exact .inl ⟨⟨_, _, _, rfl⟩, .entered (enterEngine_engaged _ _ _)⟩
      | cons first before =>
          rw [List.cons_append] at htasks
          cases htasks
          refine .inr ⟨fun _ _ _ heq => ?_, ?_⟩
          · have hlength := congrArg List.length heq
            simp at hlength
          · rw [← List.append_assoc]
            exact .entering _ hresult _
  | @entered before o hengaged =>
      right
      constructor
      · intro text origin line heq
        have hentered : Batching key results (before ++ [announce key]) o none :=
          .entered hengaged
        rw [heq] at hentered
        obtain ⟨url, hurl, -⟩ := hentered.enters
        cases hurl
      · cases before with
        | nil =>
            cases htasks
            exact .waits
        | cons first before =>
            rw [List.cons_append] at htasks
            cases htasks
            rw [← List.append_assoc]
            exact .entered (hengaged.react w)

end Batching

end Task

namespace Machine

variable {m : Machine} {key : Nat} {urls : List Url} {given results : FetchResults}
  {tail : List Task}

@[simp]
theorem reply_world (m : Machine) (results : FetchResults) :
    (m.reply results).world = m.world := by
  unfold reply
  split <;> rfl

@[simp]
theorem reply_entering (m : Machine) (results : FetchResults) :
    (m.reply results).entering = m.entering := by
  unfold reply
  split
  · rename_i hagenda
    rw [entering_of_agenda hagenda, entering_of_agenda rfl]
    rfl
  · rfl

theorem reply_agenda (hagenda : m.agenda = .batch key urls given :: tail) :
    (m.reply results).agenda = .batch key urls results :: tail := by
  rw [reply, hagenda]

/-- A machine is in order however its batch is answered. -/
theorem Sound.reply (hsound : m.Sound) (results : FetchResults) : (m.reply results).Sound := by
  unfold Machine.reply
  split
  · rename_i key urls given rest hagenda
    refine ⟨hsound.linked, hsound.roster, ?_, fun hcrashed => ?_, fun k => ?_,
      fun hcrashed k => ?_, hsound.done⟩
    · intro t ht k hk
      rcases List.mem_cons.mp ht with rfl | ht
      · exact hsound.keys (.batch key urls given) (by simp [hagenda]) k hk
      · exact hsound.keys t (by simp [hagenda, ht]) k hk
    · simp [hsound.crash hcrashed] at hagenda
    · have hnested := hsound.nested k
      rwa [hagenda] at hnested
    · have hdepth := hsound.depth hcrashed k
      rwa [hagenda] at hdepth
  · exact hsound

/-- The batch is on the agenda with what is left of it, below what was begun of an entry. -/
def Batches (m : Machine) (key : Nat) (results : FetchResults) (tail : List Task)
    (next : Option Url) (left : List Url) : Prop :=
  ∃ above, m.agenda = above ++ .batch key left results :: tail ∧
    Task.Batching key results above m.outcome next

end Machine

section Treats

variable {τ : Nat → Machine} {key i : Nat} {results : FetchResults} {tail : List Task}
  {x : Treatment}

/-- Where a batch is when one of its entries is treated. -/
theorem Treats.place (htreats : Treats τ key results tail i x) {above : List Task}
    {left : List Url} (hagenda : (τ i).agenda = above ++ .batch key left results :: tail) :
    τ (i + 1) = (τ i).step ∧
      ((∃ text origin line, above = [.engine key text origin line, .announce key] ∧
          x = .evaluated text origin line) ∨
        ∃ url rest origin, above = [] ∧ left = url :: rest ∧
          results.treatment url = .reported origin ∧ x = .reported origin) := by
  cases x with
  | evaluated text origin line =>
      obtain ⟨other, hexec⟩ := htreats
      refine ⟨hexec.step, .inl ⟨text, origin, line, ?_, rfl⟩⟩
      have hlists : above ++ [.batch key left results] =
          [.engine key text origin line, .announce key] ++ [.batch key other results] := by
        apply (List.append_left_inj tail).mp
        simpa using hagenda.symm.trans hexec.agenda
      exact (List.append_inj' hlists rfl).1
  | reported origin =>
      obtain ⟨url, rest, hexec, hreported, -⟩ := htreats
      have hlists : above ++ [.batch key left results] =
          [] ++ [.batch key (url :: rest) results] := by
        apply (List.append_left_inj tail).mp
        simpa using hagenda.symm.trans hexec.agenda
      obtain ⟨habove, hbatch⟩ := List.append_inj' hlists rfl
      cases hbatch
      exact ⟨hexec.step, .inr ⟨url, rest, origin, habove, rfl, hreported, rfl⟩⟩

/-- A batch of which an entry is treated is on the agenda. -/
theorem Treats.suffix (htreats : Treats τ key results tail i x) :
    ∃ left, .batch key left results :: tail <:+ (τ i).agenda := by
  cases x with
  | evaluated text origin line =>
      obtain ⟨left, hexec⟩ := htreats
      rw [hexec.agenda]
      exact ⟨left, [.engine key text origin line, .announce key], rfl⟩
  | reported origin =>
      obtain ⟨url, left, hexec, -⟩ := htreats
      rw [hexec.agenda]
      exact ⟨url :: left, List.suffix_rfl⟩

/-- No two entries are treated in one step. -/
theorem Treats.unique {y : Treatment} (htreats : Treats τ key results tail i x)
    (htreats' : Treats τ key results tail i y) : x = y := by
  cases x with
  | evaluated text origin line =>
      obtain ⟨left, hexec⟩ := htreats
      cases y with
      | evaluated text' origin' line' =>
          obtain ⟨left', hexec'⟩ := htreats'
          cases (hexec.unique hexec').1
          rfl
      | reported origin' =>
          obtain ⟨url, left', hexec', -⟩ := htreats'
          cases (hexec.unique hexec').1
  | reported origin =>
      obtain ⟨url, left, hexec, htreatment, -⟩ := htreats
      cases y with
      | evaluated text' origin' line' =>
          obtain ⟨left', hexec'⟩ := htreats'
          cases (hexec.unique hexec').1
      | reported origin' =>
          obtain ⟨url', left', hexec', htreatment', -⟩ := htreats'
          cases (hexec.unique hexec').1
          exact htreatment.symm.trans htreatment'

/-- Others change nothing about a batch. -/
theorem Machine.Interrupts.batches {m m' : Machine} {next : Option Url} {left : List Url}
    (hinterrupts : Interrupts m m') (hbatch : m.Batches key results tail next left) :
    m'.Batches key results tail next left := by
  obtain ⟨above, hagenda, hbatching⟩ := hbatch
  obtain ⟨above', hshifts, hagenda'⟩ := hinterrupts.shifts rfl hagenda
  refine ⟨above', hagenda', ?_⟩
  rw [hinterrupts.outcome]
  cases hshifts with
  | chooses scope actions chosen above => exact hbatching.choose chosen
  | intrudes scope actions _ hturn =>
      refine hbatching.cons ?_ scope actions
      rintro first above rfl
      exact hturn first _ rfl
  | reorders => exact hbatching

variable (hcrashed : (τ (i + 1)).world.crashed = false)

include hcrashed

/-- The next entry of a batch is admitted or reported, when the batch comes up. -/
theorem batch_turn {url : Url} {rest : List Url}
    (hexec : Executes τ i (.batch key (url :: rest) results) tail) :
    ((τ (i + 1)).Batches key results tail (some url) rest ∧
        ∀ x, ¬ Treats τ key results tail i x) ∨
      ((τ (i + 1)).Batches key results tail none rest ∧
        Treats τ key results tail i (results.treatment url)) := by
  have hafter := Behavior.after hexec hcrashed
  have hplace : ∀ x, Treats τ key results tail i x → results.treatment url = x := by
    intro x htreats
    have hplain : (τ i).agenda = [] ++ .batch key (url :: rest) results :: tail := hexec.agenda
    rcases (htreats.place hplain).2 with ⟨_, _, _, hnot, -⟩ |
      ⟨other, left, origin, -, hlist, hreported, rfl⟩
    · cases hnot
    · cases hlist
      exact hreported
  have hreported : (∀ text, results.get? url ≠ some (.ok text)) →
      (Task.react (τ i).world (τ i).outcome (.batch key (url :: rest) results)).next =
          [.batch key rest results] ∧
        (Task.react (τ i).world (τ i).outcome (.batch key (url :: rest) results)).world =
          (τ i).world.publish key (.errorLoadingScript url.render) .loader ∧
        results.treatment url = .reported url.render := by
    intro hmissing
    simp only [Task.react, Task.runBatch, FetchResults.treatment, and_self]
  by_cases hcame : ∃ text, results.get? url = some (.ok text)
  · left
    obtain ⟨text, hresult⟩ := hcame
    have hnext : (Task.react (τ i).world (τ i).outcome (.batch key (url :: rest) results)).next =
        [.evaluate key text url.render 1, .batch key rest results] := by
      simp [Task.react, Task.runBatch, hresult]
    rw [hnext] at hafter
    refine ⟨⟨_, hafter, .admitted hresult _⟩, fun x htreats => ?_⟩
    have hsame := hplace x htreats
    rw [FetchResults.treatment_ok hresult] at hsame
    subst hsame
    obtain ⟨left, hother⟩ := htreats
    cases (hexec.unique hother).1
  · right
    obtain ⟨hnext, hworld, htreatment⟩ := hreported fun text hresult => hcame ⟨text, hresult⟩
    rw [hnext] at hafter
    refine ⟨⟨[], hafter, .waits⟩, ?_⟩
    rw [htreatment]
    refine ⟨url, rest, hexec, htreatment, ?_⟩
    have hsaid := publish_says (τ i).world key (.errorLoadingScript url.render) .loader
    rw [← hworld, ← Behavior.world_after hexec] at hsaid
    rw [told, Behavior.heard_eq hsaid, Host.utterance, Host.misses]
    split <;> rfl

/-- What one step does for a batch: no entry is treated, the next one is, or the batch is over. -/
theorem batch_step {next : Option Url} {left : List Url} (hnext : (τ i).Next (τ (i + 1)))
    (hopen : (τ i).world.isStopping key = false)
    (hbatch : (τ i).Batches key results tail next left) :
    (∃ next' left', next'.toList ++ left' = next.toList ++ left ∧
        (τ (i + 1)).Batches key results tail next' left' ∧
        ∀ x, ¬ Treats τ key results tail i x) ∨
      (∃ url next' left', next.toList ++ left = url :: (next'.toList ++ left') ∧
        (τ (i + 1)).Batches key results tail next' left' ∧
        Treats τ key results tail i (results.treatment url)) ∨
      (next.toList ++ left = [] ∧ Executes τ i (.batch key [] results) tail ∧
        ∀ x, ¬ Treats τ key results tail i x) := by
  obtain ⟨above, hagenda, hbatching⟩ := id hbatch
  by_cases hstep : τ (i + 1) = (τ i).step
  · cases above with
    | nil =>
        obtain rfl := hbatching.idle
        cases left with
        | nil =>
            refine .inr (.inr ⟨rfl, ⟨hagenda, hstep⟩, fun x htreats => ?_⟩)
            rcases (htreats.place hagenda).2 with ⟨_, _, _, hnot, -⟩ | ⟨_, _, _, -, hnot, -⟩
            · cases hnot
            · cases hnot
        | cons url rest =>
            rcases batch_turn hcrashed ⟨hagenda, hstep⟩ with ⟨hafter, hquiet⟩ |
              ⟨hafter, htreats⟩
            · exact .inl ⟨some url, rest, rfl, hafter, hquiet⟩
            · exact .inr (.inl ⟨url, none, rest, rfl, hafter, htreats⟩)
    | cons t above =>
        have hafter : (τ (i + 1)).agenda =
            ((t.react (τ i).world (τ i).outcome).next ++ above) ++
              .batch key left results :: tail := by
          rw [Behavior.after ⟨hagenda, hstep⟩ hcrashed, List.append_assoc]
          rfl
        have houtcome : (τ (i + 1)).outcome = (t.react (τ i).world (τ i).outcome).outcome :=
          Behavior.outcome_after ⟨hagenda, hstep⟩
        rcases hbatching.react hopen with ⟨⟨text, origin, line, henters⟩, hentered⟩ |
          ⟨hother, hwaits⟩
        · obtain ⟨url, rfl, htreatment⟩ := (henters ▸ hbatching).enters
          refine .inr (.inl ⟨url, none, left, rfl, ⟨_, hafter, houtcome ▸ hentered⟩, ?_⟩)
          rw [htreatment]
          rw [henters] at hagenda
          exact ⟨left, hagenda, hstep⟩
        · refine .inl ⟨next, left, rfl, ⟨_, hafter, houtcome ▸ hwaits⟩, fun x htreats => ?_⟩
          rcases (htreats.place hagenda).2 with ⟨text, origin, line, hengine, -⟩ |
            ⟨_, _, _, hnot, -⟩
          · exact hother text origin line hengine
          · cases hnot
  · have hinterrupts : Interrupts (τ i) (τ (i + 1)) := by
      generalize hm : τ (i + 1) = m' at hnext hstep
      cases hnext with
      | step => exact absurd rfl hstep
      | interrupt hinterrupts => exact hinterrupts
    exact .inl ⟨next, left, rfl, hinterrupts.batches hbatch,
      fun x htreats => hstep (htreats.place hagenda).1⟩

end Treats

namespace Onward

variable {τ : Nat → Machine} {a m : Nat}

/-- An execution goes on in some way however a batch is answered. -/
theorem of_reply {σ : Nat → Machine} {results : FetchResults} (hσ : Onward σ a)
    (hreply : τ a = (σ a).reply results) (hnext : ∀ i, a ≤ i → (τ i).Next (τ (i + 1))) :
    Onward τ a := by
  refine ⟨?_, ?_, hnext⟩
  · rw [hreply]
    exact hσ.sound.reply results
  · rw [hreply, Machine.reply_entering, Machine.reply_world]
    exact hσ.orderly

variable (hτ : Onward τ a)

include hτ

/-- The entries of a batch are treated in the order of the list and each once, as its results say,
for as long as nothing is stopped. -/
theorem proceeds {key : Nat} {urls : List Url} {results : FetchResults} {tail : List Task}
    (ham : a ≤ m) (hagenda : (τ a).agenda = .batch key urls results :: tail)
    (hcrashed : (τ m).world.crashed = false)
    (hopen : ∀ i, a ≤ i → i < m → (τ i).world.isStopping key = false) :
    Proceeds τ key urls results tail a m := by
  have hinvariant : (∃ treated next left, urls = treated ++ (next.toList ++ left) ∧
      (τ m).Batches key results tail next left ∧
      Log (Treats τ key results tail) a m (treated.map results.treatment)) ∨
      ∃ j, a ≤ j ∧ j < m ∧ Executes τ j (.batch key [] results) tail ∧
        Log (Treats τ key results tail) a (j + 1) (urls.map results.treatment) := by
    induction ham with
    | refl => exact .inl ⟨[], none, urls, rfl, ⟨[], hagenda, .waits⟩, .start⟩
    | @step m ham ih =>
        have hbefore := (hτ.next m ham).uncrashed (hτ.later ham).sound hcrashed
        have hlast := hopen m ham (Nat.lt_succ_self m)
        rcases ih hbefore fun i hai him => hopen i hai (Nat.lt_succ_of_lt him) with
          ⟨treated, next, left, hlist, hbatch, hlog⟩ | ⟨j, haj, hjm, hover⟩
        · rcases batch_step hcrashed (hτ.next m ham) hlast hbatch with
            ⟨next', left', hdue, hafter, hquiet⟩ | ⟨url, next', left', hdue, hafter, htreats⟩ |
            ⟨hnothing, hends, hquiet⟩
          · exact .inl ⟨treated, next', left', hdue ▸ hlist, hafter, hlog.quiet hquiet⟩
          · refine .inl ⟨treated ++ [url], next', left', ?_, hafter, ?_⟩
            · rw [hlist, hdue, List.append_assoc]
              rfl
            · rw [List.map_append]
              exact hlog.event htreats fun _ hother => hother.unique htreats
          · refine .inr ⟨m, ham, Nat.lt_succ_self m, hends, ?_⟩
            rw [hnothing, List.append_nil] at hlist
            rw [hlist]
            exact hlog.quiet hquiet
        · exact .inr ⟨j, haj, Nat.lt_succ_of_lt hjm, hover⟩
  rcases hinvariant with ⟨treated, next, left, hlist, ⟨above, hplace, -⟩, hlog⟩ |
    ⟨j, haj, hjm, hends, hlog⟩
  · refine .underway treated next.toList left (by rw [hlist, List.append_assoc]) ?_
      ⟨above, hplace.symm⟩ hlog
    cases next with
    | none => exact Nat.zero_le 1
    | some url => exact Nat.le_refl 1
  · exact .through j haj hjm hends hlog

end Onward

end TickHost
