import TickHost.Proofs.Steps

/-!
The shape of the agenda. The tasks of one host nest: while it runs there is one task that its run
goes on with, below it are runs that were accepted and have not begun, and the evaluations that
were entered and not announced are as many as the host counts. Every task keeps this shape.
-/

namespace TickHost

open World

namespace Task

/-- What a task is in the runs of a host. -/
inductive Part where
  | none
  /-- A run begins with it. -/
  | entry
  /-- A run goes on with it. -/
  | inside
deriving DecidableEq

def part (key : Nat) : Task → Part
  | beginRun k => if k = key then .entry else .none
  | confirmRun k | startTicking k _ | awaitTick k _ | pump k _ | flush k _ | stream k _
  | update k _ | close k _ | finish k _ => if k = key then .inside else .none
  | _ => .none

/-- The tasks of a host on an agenda, from the top: what its run goes on with, if it runs, and
beginnings of runs. -/
def Nested (key : Nat) : Bool → List Task → Prop
  | _, [] => True
  | running, t :: rest =>
      match t.part key with
      | .none => Nested key running rest
      | .entry => running = false ∧ Nested key false rest
      | .inside => running = true ∧ Nested key false rest

/-- Whether a task enters or announces an evaluation. -/
def isEvaluation : Task → Bool
  | engine _ _ _ _ | announce _ => true
  | _ => false

/-- The evaluations of a host on an agenda that are to be announced, with as many under way. -/
def Depth (key : Nat) : Nat → List Task → Prop
  | pending, [] => pending = 0
  | pending, engine k _ _ _ :: rest =>
      if k = key then Depth key (pending + 1) rest else Depth key pending rest
  | pending, announce k :: rest =>
      if k = key then 0 < pending ∧ Depth key (pending - 1) rest else Depth key pending rest
  | pending, _ :: rest => Depth key pending rest

def isEngine (key : Nat) : Task → Bool
  | engine k _ _ _ => k = key
  | _ => false

def isAnnounce (key : Nat) : Task → Bool
  | announce k => k = key
  | _ => false

/-- The evaluations of a host that were entered and are not announced yet. -/
def evaluating (key : Nat) (agenda : List Task) : Nat :=
  agenda.countP (isAnnounce key) - agenda.countP (isEngine key)

variable {w : World} {o : Outcome} {key : Nat} {running : Bool} {pending : Nat}

theorem part_of_isPlain {t : Task} (hplain : t.isPlain = true) : t.part key = .none := by
  cases t <;> first | rfl | cases hplain

theorem not_isEvaluation_of_isPlain {t : Task} (hplain : t.isPlain = true) :
    t.isEvaluation = false := by
  cases t <;> first | rfl | cases hplain

theorem nested_append {next rest : List Task} (hnone : ∀ t ∈ next, t.part key = .none) :
    Nested key running (next ++ rest) ↔ Nested key running rest := by
  induction next with
  | nil => rfl
  | cons t next ih =>
      have hfirst := hnone t List.mem_cons_self
      have hrest := ih fun t' h => hnone t' (List.mem_cons_of_mem t h)
      simp only [List.cons_append, Nested, hfirst, hrest]

theorem nested_cons_none {t : Task} {rest : List Task} (hnone : t.part key = .none) :
    Nested key running (t :: rest) ↔ Nested key running rest := by
  simp only [Nested, hnone]

theorem nested_cons_inside {t : Task} {rest : List Task} (hinside : t.part key = .inside) :
    Nested key running (t :: rest) ↔ running = true ∧ Nested key false rest := by
  simp only [Nested, hinside]

theorem nested_cons_entry {t : Task} {rest : List Task} (hentry : t.part key = .entry) :
    Nested key running (t :: rest) ↔ running = false ∧ Nested key false rest := by
  simp only [Nested, hentry]

/-- What a run goes on with is nowhere below the tasks of a host that does not run, unless the run
begins again in between. -/
theorem Nested.not_inside {pre rest : List Task} {t : Task} (hinside : t.part key = .inside)
    (hnested : Nested key false (pre ++ t :: rest)) : False := by
  induction pre with
  | nil =>
      rw [List.nil_append, nested_cons_inside hinside] at hnested
      cases hnested.1
  | cons first pre ih =>
      rw [List.cons_append, Nested] at hnested
      split at hnested
      · exact ih hnested
      · exact ih hnested.2
      · cases hnested.1

/-- Above the task that a run goes on with there is no other of the same host. -/
theorem Nested.none_above {pre rest : List Task} {t : Task} (hinside : t.part key = .inside)
    (hnested : Nested key running (pre ++ t :: rest)) : ∀ t' ∈ pre, t'.part key = .none := by
  induction pre generalizing running with
  | nil => simp
  | cons first pre ih =>
      intro t' ht'
      rw [List.cons_append, Nested] at hnested
      split at hnested
      · rename_i hnone
        rcases List.mem_cons.mp ht' with rfl | ht'
        · exact hnone
        · exact ih hnested t' ht'
      · exact (hnested.2.not_inside hinside).elim
      · exact (hnested.2.not_inside hinside).elim

theorem Nested.is_running {pre rest : List Task} {t : Task} (hinside : t.part key = .inside)
    (hnested : Nested key running (pre ++ t :: rest)) : running = true := by
  rw [nested_append (hnested.none_above hinside), nested_cons_inside hinside] at hnested
  exact hnested.1

theorem depth_cons {t : Task} {rest : List Task} (hplain : t.isEvaluation = false) :
    Depth key pending (t :: rest) ↔ Depth key pending rest := by
  cases t <;> first | rfl | cases hplain

theorem depth_append {next rest : List Task} (hplain : ∀ t ∈ next, t.isEvaluation = false) :
    Depth key pending (next ++ rest) ↔ Depth key pending rest := by
  induction next with
  | nil => rfl
  | cons t next ih =>
      rw [List.cons_append, depth_cons (hplain t List.mem_cons_self)]
      exact ih fun t' h => hplain t' (List.mem_cons_of_mem t h)

theorem Depth.count {agenda : List Task} (hdepth : Depth key pending agenda) :
    agenda.countP (isAnnounce key) = pending + agenda.countP (isEngine key) := by
  induction agenda generalizing pending with
  | nil => simpa [Depth] using hdepth.symm
  | cons t rest ih =>
      cases t with
      | engine k program origin line =>
          rw [Depth] at hdepth
          split at hdepth
          · rename_i heq
            have hrest := ih hdepth
            simp [isAnnounce, isEngine, heq, hrest]
            omega
          · rename_i hne
            simp [isAnnounce, isEngine, hne, ih hdepth]
      | announce k =>
          rw [Depth] at hdepth
          split at hdepth
          · rename_i heq
            have hrest := ih hdepth.2
            have hpos := hdepth.1
            simp [isAnnounce, isEngine, heq, hrest]
            omega
          · rename_i hne
            simp [isAnnounce, isEngine, hne, ih hdepth]
      | _ => exact ih hdepth

/-- A host counts exactly its evaluations that were entered and are not announced yet. -/
theorem Depth.evaluating {agenda : List Task} (hdepth : Depth key pending agenda) :
    evaluating key agenda = pending := by
  rw [Task.evaluating, hdepth.count]
  omega

/-! What tasks put on the agenda. -/

/-- The tasks of a ticking run, with the origin under which it began. -/
inductive Loops (key : Nat) (origin : String) : Task → Prop where
  | awaitTick (t : Ticking) (horigin : t.origin = origin) : Loops key origin (.awaitTick key t)
  | pump (t : Ticking) (horigin : t.origin = origin) : Loops key origin (.pump key t)
  | flush (t : Ticking) (horigin : t.origin = origin) : Loops key origin (.flush key t)
  | stream (t : Ticking) (horigin : t.origin = origin) : Loops key origin (.stream key t)
  | update (t : Ticking) (horigin : t.origin = origin) : Loops key origin (.update key t)

theorem Loops.inside {origin : String} {x : Task} (hx : Loops key origin x) :
    x.part key = .inside := by
  cases hx <;> simp [part]

/-- A ticking run goes on ticking, or it is closed because the host has stopped. -/
theorem Loops.next {origin : String} {x : Task} (hx : Loops key origin x) :
    ((w.host key).finished = true ∧ (react w o x).next = [.close key origin]) ∨
      ∃ before y, (react w o x).next = before ++ [y] ∧ before.all isPlain = true ∧
        Loops key origin y := by
  cases hx with
  | awaitTick t horigin =>
      simp only [react, awaitNext]
      split
      · rename_i hfinished
        exact .inl ⟨hfinished, by rw [horigin]⟩
      · exact .inr ⟨[], _, rfl, rfl, .pump _ horigin⟩
  | pump t horigin =>
      simp only [react]
      split
      · rename_i hfinished
        exact .inl ⟨hfinished, by rw [horigin]⟩
      · exact .inr ⟨[.drain key], _, rfl, rfl, .flush t horigin⟩
  | flush t horigin =>
      simp only [react]
      split
      · rename_i hfinished
        exact .inl ⟨hfinished, by rw [horigin]⟩
      · exact .inr ⟨[], _, rfl, rfl, .stream t horigin⟩
  | stream t horigin =>
      simp only [react]
      split
      · rename_i hfinished
        exact .inl ⟨hfinished, by rw [horigin]⟩
      · exact .inr ⟨[], _, rfl, rfl, .update t horigin⟩
  | update t horigin =>
      simp only [react, sendUpdate]
      split
      · exact .inr ⟨[], _, rfl, rfl, .awaitTick _ horigin⟩
      · exact .inr ⟨[.notify key _ _], _, rfl, rfl, .awaitTick _ horigin⟩

/-- What a run goes on with belongs to no other host and is no evaluation. -/
theorem alone_of_inside {x : Task} {run : Nat} (hx : x.part run = .inside) :
    x.isEvaluation = false ∧ ∀ key, key ≠ run → x.part key = .none := by
  refine ⟨?_, fun key hne => ?_⟩
  · cases x <;> first | rfl | cases hx
  · cases x with
    | confirmRun k | startTicking k _ | awaitTick k _ | pump k _ | flush k _ | stream k _
    | update k _ | close k _ | finish k _ =>
        simp only [part] at hx ⊢
        split at hx
        · rename_i heq
          simp [heq, Ne.symm hne]
        · cases hx
    | beginRun k =>
        simp only [part] at hx
        split at hx <;> cases hx
    | _ => cases hx

/-- A run goes on: the next tasks end with one that is the run's. -/
theorem react_continues {t : Task} {run : Nat} (hinside : t.part run = .inside)
    (hfinish : ∀ origin, t ≠ .finish run origin)
    (hopen : t = .confirmRun run → w.isStopping run = false) :
    ∃ pre x, (react w o t).next = pre ++ [x] ∧
      (∀ t' ∈ pre, t'.isEvaluation = false ∧ ∀ key, t'.part key = .none) ∧
      x.isEvaluation = false ∧ x.part run = .inside ∧ ∀ key, key ≠ run → x.part key = .none := by
  have hplain : ∀ pre : List Task, pre.all isPlain = true →
      ∀ t' ∈ pre, t'.isEvaluation = false ∧ ∀ key, t'.part key = .none := fun pre hpre t' ht' =>
    have hplain := List.all_eq_true.mp hpre t' ht'
    ⟨not_isEvaluation_of_isPlain hplain, fun _ => part_of_isPlain hplain⟩
  have hlast : ∀ x : Task, x.part run = .inside →
      x.isEvaluation = false ∧ x.part run = .inside ∧ ∀ key, key ≠ run → x.part key = .none :=
    fun x hx => ⟨(alone_of_inside hx).1, hx, (alone_of_inside hx).2⟩
  have hloop : ∀ origin, Loops run origin t → ∃ pre x, (react w o t).next = pre ++ [x] ∧
      (∀ t' ∈ pre, t'.isEvaluation = false ∧ ∀ key, t'.part key = .none) ∧
      x.isEvaluation = false ∧ x.part run = .inside ∧ ∀ key, key ≠ run → x.part key = .none := by
    intro origin hloops
    rcases hloops.next with ⟨-, hclose⟩ | ⟨before, y, hlist, hbefore, hy⟩
    · exact ⟨[], _, hclose, by simp, hlast _ (by simp [part])⟩
    · exact ⟨before, y, hlist, hplain before hbefore, hlast y hy.inside⟩
  have hrun : ∀ k, (if k = run then Part.inside else .none) = .inside → k = run := by
    intro k h
    split at h
    · assumption
    · cases h
  cases t with
  | confirmRun k =>
      obtain rfl := hrun k hinside
      simp only [react, hopen rfl, Bool.false_eq_true, if_false]
      exact ⟨[_], _, rfl, hplain _ rfl, hlast _ (by simp [part])⟩
  | startTicking k origin =>
      obtain rfl := hrun k hinside
      exact ⟨[], _, rfl, by simp, hlast _ (by simp [part])⟩
  | awaitTick k t =>
      obtain rfl := hrun k hinside
      exact hloop t.origin (.awaitTick t rfl)
  | pump k t =>
      obtain rfl := hrun k hinside
      exact hloop t.origin (.pump t rfl)
  | flush k t =>
      obtain rfl := hrun k hinside
      exact hloop t.origin (.flush t rfl)
  | stream k t =>
      obtain rfl := hrun k hinside
      exact hloop t.origin (.stream t rfl)
  | update k t =>
      obtain rfl := hrun k hinside
      exact hloop t.origin (.update t rfl)
  | close k origin =>
      obtain rfl := hrun k hinside
      exact ⟨[_, _], _, rfl, by simp [isEvaluation, part], hlast _ (by simp [part])⟩
  | finish k origin =>
      obtain rfl := hrun k hinside
      exact absurd rfl (hfinish origin)
  | beginRun k =>
      simp only [part] at hinside
      split at hinside <;> cases hinside
  | perform _ _ | answer _ _ | answerRun _ | answerOutcome _ | release _ | leaveThread _
  | evaluate _ _ _ _ | report _ | directives _ _ _ | give _ | batch _ _ _ | call _ _ _
  | notify _ _ _ | drain _ | fire _ _ _ | lastFlush _ | engine _ _ _ _ | announce _
  | initialise _ => cases hinside

theorem eq_beginRun_of_part {t : Task} (hentry : t.part key = .entry) : t = .beginRun key := by
  cases t with
  | beginRun k =>
      simp only [part] at hentry
      split at hentry
      · rename_i heq
        rw [heq]
      · cases hentry
  | confirmRun _ | startTicking _ _ | awaitTick _ _ | pump _ _ | flush _ _ | stream _ _
  | update _ _ | close _ _ | finish _ _ =>
      simp only [part] at hentry
      split at hentry <;> cases hentry
  | _ => cases hentry

theorem runs?_of_part {t : Task} (hnone : t.part key = .none) : t.runs? ≠ some key := by
  intro hruns
  cases t with
  | beginRun _ | confirmRun _ | update _ _ | close _ _ | finish _ _ =>
      cases hruns
      simp [part] at hnone
  | _ => cases hruns

theorem react_refused_next (hstopping : w.isStopping key = true) :
    (react w o (.confirmRun key)).next = [] := by
  simp [react, hstopping]

theorem react_evaluate_next (program origin : String) (line : Nat)
    (hopen : w.isStopping key = false) : (react w o (.evaluate key program origin line)).next =
      [.initialise key, .engine key program origin line, .announce key] := by
  simp [react, hopen]

theorem react_evaluate_refused (program origin : String) (line : Nat)
    (hstopping : w.isStopping key = true) :
    react w o (.evaluate key program origin line) = ⟨w, .returned .undefined, []⟩ := by
  simp [react, hstopping]

theorem host?_of_inside {t : Task} {run : Nat} (hinside : t.part run = .inside) :
    t.host? = some run := by
  cases t with
  | confirmRun _ | startTicking _ _ | awaitTick _ _ | pump _ _ | flush _ _ | stream _ _
  | update _ _ | close _ _ | finish _ _ =>
      simp only [part] at hinside
      split at hinside
      · rename_i heq
        rw [← heq]
        rfl
      · cases hinside
  | beginRun _ =>
      simp only [part] at hinside
      split at hinside <;> cases hinside
  | _ => cases hinside

/-- Apart from an evaluation that begins, tasks add nothing that enters or announces one. -/
theorem react_next_depth {t : Task}
    (hbegin : ∀ k program origin line, t ≠ .evaluate k program origin line) :
    ∀ t' ∈ (react w o t).next, t'.isEvaluation = false := by
  have hsequel := react_sequel w o t
  generalize (react w o t).next = next at hsequel
  cases hsequel with
  | evaluate k program origin line => exact absurd rfl (hbegin k program origin line)
  | perform scope action actions hbegun => cases hbegun <;> simp [isEvaluation]
  | _ => simp [isEvaluation]

/-- A task that belongs to no run of a host adds to the agenda no more than a new run of it, and
that only while it does not run. -/
theorem react_next_nested {t : Task} {rest : List Task} (hnone : t.part key = .none)
    (hrest : Nested key (w.host key).running rest) :
    Nested key (w.host key).running ((react w o t).next ++ rest) := by
  have hsequel := react_sequel w o t
  generalize (react w o t).next = next at hsequel
  have hquiet : (∀ t' ∈ next, t'.part key = .none) →
      Nested key (w.host key).running (next ++ rest) := fun hnext => (nested_append hnext).mpr hrest
  cases hsequel with
  | perform scope action actions hbegun =>
      cases hbegun with
      | run name k hname hidle | spawn name k previous hname hidle =>
          by_cases hk : k = key
          · subst hk
            rw [hidle] at hrest ⊢
            show Nested k false (initialise k :: beginRun k :: _)
            rw [nested_cons_none rfl, nested_cons_entry (by simp [part])]
            exact ⟨rfl, (nested_append (by simp [part])).mpr hrest⟩
          · exact hquiet (by simp [part, hk])
      | _ => exact hquiet (by simp [part])
  | beginRun k | confirmRun k | startTicking k | awaitTick k | awaitStop k | pump k | pumpStop k
  | flush k | flushStop k | stream k | streamStop k | update k | skip k | close k =>
      have hk : k ≠ key := by
        rintro rfl
        simp [part] at hnone
      exact hquiet (by simp [part, hk])
  | _ => exact hquiet (by simp [part])

section Shape

variable {t : Task} {rest : List Task} (hlinked : w.Linked)
  (hkeys : ∀ key, t.host? = some key → w.Has key)

include hlinked hkeys

/-- A run that goes on keeps its host running. -/
theorem react_running_inside (hinside : t.part key = .inside)
    (hfinish : ∀ origin, t ≠ .finish key origin)
    (hopen : t = .confirmRun key → w.isStopping key = false) :
    ((react w o t).world.host key).running = (w.host key).running := by
  by_cases hruns : t.runs? = some key
  · have hkey := hkeys key (host?_of_sets? (sets?_of_runs? hruns))
    cases t with
    | confirmRun k =>
        cases hruns
        rw [(confirmRun_sets hkey (hopen rfl)).host_self]
        rfl
    | update k t =>
        cases hruns
        cases hfinished : (w.host key).finished with
        | true => rw [update_idle t hfinished]
        | false =>
            rw [(update_sets hkey t hfinished).host_self]
            rfl
    | close k origin =>
        cases hruns
        rw [(close_sets hkey origin).host_self]
        rfl
    | finish k origin =>
        cases hruns
        exact absurd rfl (hfinish origin)
    | beginRun k =>
        cases hruns
        simp [part] at hinside
    | _ => cases hruns
  · exact (react_running hlinked hkeys hruns).1

/-- The tasks of a host stay nested. -/
theorem react_nested (hnested : Nested key (w.host key).running (t :: rest)) :
    Nested key ((react w o t).world.host key).running ((react w o t).next ++ rest) := by
  cases hpart : t.part key with
  | none =>
      rw [(react_running (o := o) hlinked hkeys (runs?_of_part hpart)).1]
      rw [nested_cons_none hpart] at hnested
      exact react_next_nested hpart hnested
  | entry =>
      obtain rfl := eq_beginRun_of_part hpart
      rw [nested_cons_entry hpart] at hnested
      rw [beginRun_sets.host_self]
      show Nested key true (.confirmRun key :: rest)
      rw [nested_cons_inside (by simp [part])]
      exact ⟨rfl, hnested.2⟩
  | inside =>
      rw [nested_cons_inside hpart] at hnested
      by_cases hfinish : ∃ origin, t = .finish key origin
      · obtain ⟨origin, rfl⟩ := hfinish
        rw [(finish_sets (hkeys key rfl) origin).host_self]
        exact hnested.2
      · by_cases hrefused : t = .confirmRun key ∧ w.isStopping key = true
        · obtain ⟨rfl, hstopping⟩ := hrefused
          rw [(confirmRun_sets_refused hstopping).host_self, react_refused_next hstopping]
          exact hnested.2
        · obtain ⟨pre, x, hnext, hpre, _, hx, _⟩ := react_continues (w := w) (o := o) hpart
            (fun origin h => hfinish ⟨origin, h⟩) (fun h => by simpa [h] using hrefused)
          have hrunning : ((react w o t).world.host key).running = true := by
            rw [react_running_inside hlinked hkeys hpart (fun origin h => hfinish ⟨origin, h⟩)
              fun h => by simpa [h] using hrefused]
            exact hnested.1
          rw [hnext, hrunning, List.append_assoc]
          refine (nested_append fun t' ht' => (hpre t' ht').2 key).mpr ?_
          rw [List.singleton_append, nested_cons_inside hx]
          exact ⟨rfl, hnested.2⟩

/-- The number of evaluations under way is up to the tasks of evaluations. -/
theorem react_pending (heval : t.isEvaluation = false) :
    ((react w o t).world.host key).pending = (w.host key).pending := by
  by_cases hsets : t.sets? = some key
  · have hkey := hkeys key (host?_of_sets? hsets)
    cases t with
    | initialise k =>
        cases hsets
        rw [(initialise_sets hkey).host_self]
    | engine _ _ _ _ | announce _ => cases heval
    | beginRun k =>
        cases hsets
        rw [beginRun_sets.host_self]
        rfl
    | confirmRun k | update k _ | close k _ | finish k _ =>
        cases hsets
        exact (react_stride hkeys rfl (by simp)).kept.2.2.2.2
    | _ => cases hsets
  · exact (react_still hlinked hkeys hsets).2.2.1

/-- The evaluations of a host stay paired. -/
theorem react_depth (hdepth : Depth key (w.host key).pending (t :: rest)) :
    Depth key ((react w o t).world.host key).pending ((react w o t).next ++ rest) := by
  by_cases hbegin : ∃ k program origin line, t = .evaluate k program origin line
  · obtain ⟨k, program, origin, line, rfl⟩ := hbegin
    cases hstopping : w.isStopping k with
    | true =>
        rw [react_evaluate_refused program origin line hstopping]
        exact hdepth
    | false =>
        rw [react_evaluate_next program origin line hstopping,
          react_pending (o := o) hlinked hkeys rfl]
        show Depth key _ (.engine k program origin line :: .announce k :: rest)
        by_cases hk : k = key
        · simpa [Depth, hk] using hdepth
        · simpa [Depth, hk] using hdepth
  · have hnext := react_next_depth (w := w) (o := o) fun k program origin line h =>
      hbegin ⟨k, program, origin, line, h⟩
    rw [depth_append hnext]
    cases heval : t.isEvaluation with
    | false =>
        rw [react_pending (o := o) hlinked hkeys heval]
        exact (depth_cons heval).mp hdepth
    | true =>
        cases t with
        | engine k program origin line =>
            rw [Depth] at hdepth
            rw [(engine_sets program origin line).host]
            split at hdepth
            · rename_i heq
              subst heq
              simpa using hdepth
            · rename_i hne
              rw [if_neg hne]
              exact hdepth
        | announce k =>
            rw [Depth] at hdepth
            rw [(announce_sets (hkeys k rfl)).host]
            split at hdepth
            · rename_i heq
              subst heq
              rw [if_pos rfl]
              have hpending : ((w.host k).conclude w.clock o).pending = (w.host k).pending - 1 := by
                cases o <;> rfl
              rw [hpending]
              exact hdepth.2
            · rename_i hne
              rw [if_neg hne]
              exact hdepth
        | _ => cases heval

end Shape

end Task

end TickHost
