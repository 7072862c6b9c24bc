import TickHost.Proofs.Runs
import TickHost.Proofs.Sequels
import TickHost.Proofs.Tending

/-!
Pumps. Once a tick a host carries out its commands and fires the timers that are due. The tasks of
a pump stand on the agenda directly above the flush that the tick goes on with, and there is at
most one of them at a time. So everything that is fired belongs to a pump that is under way, the
clock was read in the same pump, and no timer is fired twice in it.
-/

namespace TickHost

open World Machine

namespace Task

/-- The host that a task pumps for. -/
def pumps? : Task → Option Nat
  | drain key | fire key _ _ => some key
  | _ => none

variable {w : World} {o : Outcome} {key : Nat}

/-- Among some tasks the only one of a pump is found in one place. -/
theorem eq_of_only {before after pre post : List Task} {x y : Task}
    (hbefore : ∀ t ∈ before, t.pumps? = none) (hafter : ∀ t ∈ after, t.pumps? = none)
    (hx : x.pumps? = some key) (hlist : before ++ y :: after = pre ++ x :: post) :
    x = y ∧ post = after := by
  have hnot : ∀ tasks : List Task, (∀ t ∈ tasks, t.pumps? = none) → x ∉ tasks := by
    intro tasks htasks hmem
    rw [htasks x hmem] at hx
    cases hx
  induction before generalizing pre with
  | nil =>
      cases pre with
      | nil =>
          cases hlist
          exact ⟨rfl, rfl⟩
      | cons first pre =>
          cases hlist
          exact absurd (by simp) (hnot _ hafter)
  | cons first before ih =>
      cases pre with
      | nil =>
          cases hlist
          exact absurd List.mem_cons_self (hnot _ hbefore)
      | cons second pre =>
          apply ih (fun t ht => hbefore t (List.mem_cons_of_mem first ht))
          exact (List.cons.inj hlist).2

/-- How a pump goes on: it drains above the flush, then it fires what is due by the clock, and
what is left to fire gets shorter. -/
inductive Pumps (w : World) (key : Nat) : Task → Task → List Task → Prop where
  | enter (ticking : Ticking) (hlive : (w.host key).finished = false) :
      Pumps w key (.pump key ticking) (.drain key) [.flush key ticking]
  | drain : Pumps w key (.drain key) (.drain key) []
  | due : Pumps w key (.drain key)
      (.fire key w.clock ((w.host key).timers.due w.clock)) []
  | fire (now : Nat) (id : TimerId) (due : List TimerId)
      (hlive : (w.host key).finished = false) :
      Pumps w key (.fire key now (id :: due)) (.fire key now due) []

theorem Begun.pumps {scope : Scope} {begun : List Task} (hbegun : Begun w scope begun) :
    ∀ t ∈ begun, t.pumps? = none := by
  cases hbegun <;> simp [pumps?]

/-- Only the tasks of a pump put others of it on the agenda. -/
theorem pumps_of_pushes {t x : Task} {pre post : List Task} (hx : x.pumps? = some key)
    (hnext : (react w o t).next = pre ++ x :: post) : Pumps w key t x post := by
  have hsequel := react_sequel w o t
  generalize (react w o t).next = next at hsequel hnext
  have hnone : (∀ t ∈ next, t.pumps? = none) → False := by
    intro hquiet
    have hmem : x ∈ next := by
      rw [hnext]
      simp
    rw [hquiet x hmem] at hx
    cases hx
  have hone : ∀ before y after, next = before ++ y :: after →
      (∀ t ∈ before, t.pumps? = none) → (∀ t ∈ after, t.pumps? = none) → x = y ∧ post = after :=
    fun before y after hlist hbefore hafter =>
      eq_of_only hbefore hafter hx (hlist.symm.trans hnext)
  cases hsequel with
  | pump k ticking hlive =>
      obtain ⟨rfl, rfl⟩ := hone [] (.drain k) [.flush k ticking] rfl (by simp) (by simp [pumps?])
      cases hx
      exact .enter ticking hlive
  | drained k =>
      obtain ⟨rfl, rfl⟩ := hone [] _ [] rfl (by simp) (by simp)
      cases hx
      exact .due
  | drain k =>
      obtain ⟨rfl, rfl⟩ := hone [] (.drain k) [] rfl (by simp) (by simp)
      cases hx
      exact .drain
  | drainInclude k urls results callback =>
      obtain ⟨rfl, rfl⟩ := hone [_, _, _] (.drain k) [] rfl (by simp [pumps?]) (by simp)
      cases hx
      exact .drain
  | drainTask k scope actions =>
      obtain ⟨rfl, rfl⟩ := hone [_] (.drain k) [] rfl (by simp [pumps?]) (by simp)
      cases hx
      exact .drain
  | fire k now id due callback hlive =>
      obtain ⟨rfl, rfl⟩ := hone [_, _] (.fire k now due) [] rfl (by simp [pumps?]) (by simp)
      cases hx
      exact .fire now id due hlive
  | pass k now id due hlive =>
      obtain ⟨rfl, rfl⟩ := hone [] (.fire k now due) [] rfl (by simp) (by simp)
      cases hx
      exact .fire now id due hlive
  | perform scope action actions hbegun =>
      refine (hnone fun y hy => ?_).elim
      rcases List.mem_append.mp hy with hy | hy
      · exact hbegun.pumps y hy
      · rw [List.mem_singleton.mp hy]
        rfl
  | _ => exact (hnone (by simp [pumps?])).elim

theorem isPerform_of_pumps {x : Task} (hx : x.pumps? = some key) : x.isPerform = false := by
  cases x <;> first | rfl | cases hx

end Task

namespace Behavior

variable {σ : Nat → Machine} (hσ : Behavior σ) {key : Nat} {x y : Task} {below tail : List Task}

include hσ

/-- A task of a pump comes from the task before it in the same pump. -/
theorem pumped {n : Nat} (hx : x.pumps? = some key) (hsuffix : x :: tail <:+ (σ n).agenda) :
    ∃ a t rest post, a < n ∧ Executes σ a t rest ∧ Task.Pumps (σ a).world key t x post ∧
      tail = post ++ rest ∧ ∀ i, a < i → i ≤ n → x :: tail <:+ (σ i).agenda := by
  obtain ⟨a, t, rest, pre, post, han, hexec, hnext, htail, hstays⟩ :=
    hσ.pushed (Task.isPerform_of_pumps hx) hsuffix
  exact ⟨a, t, rest, post, han, hexec, Task.pumps_of_pushes hx hnext, htail, hstays⟩

/-- A task of a pump stands directly above the flush of the tick that the pump was begun in. -/
theorem pump_begun {n : Nat} (hx : x.pumps? = some key) (hsuffix : x :: tail <:+ (σ n).agenda) :
    ∃ p ticking below, p < n ∧ Executes σ p (.pump key ticking) below ∧
      tail = .flush key ticking :: below ∧ ∀ i, p < i → i ≤ n → tail <:+ (σ i).agenda := by
  induction n using Nat.strongRecOn generalizing x with
  | ind n ih =>
      obtain ⟨a, t, rest, post, han, hexec, hpumps, htail, hstays⟩ := hσ.pumped hx hsuffix
      have hkept : ∀ i, a < i → i ≤ n → tail <:+ (σ i).agenda := by
        intro i hai hin
        exact (List.suffix_cons x tail).trans (hstays i hai hin)
      have hearlier : t.pumps? = some key → post = [] → ∃ p ticking below, p < n ∧
          Executes σ p (.pump key ticking) below ∧ tail = .flush key ticking :: below ∧
          ∀ i, p < i → i ≤ n → tail <:+ (σ i).agenda := by
        intro ht hpost
        rw [hpost, List.nil_append] at htail
        subst htail
        obtain ⟨p, ticking, below, hpa, hpump, hflush, hstands⟩ :=
          ih a han ht (suffix_of_executes hexec)
        refine ⟨p, ticking, below, Nat.lt_trans hpa han, hpump, hflush, ?_⟩
        intro i hpi hin
        rcases Nat.lt_or_ge a i with hai | hia
        · exact hkept i hai hin
        · exact hstands i hpi hia
      cases hpumps with
      | enter ticking _ => exact ⟨a, ticking, rest, han, hexec, htail, hkept⟩
      | drain | due | fire _ _ _ _ => exact hearlier rfl rfl

/-- What the run of a host goes on with is found in one place. -/
theorem inside_unique {n : Nat} (hx : x.part key = .inside) (hy : y.part key = .inside)
    (hxs : x :: tail <:+ (σ n).agenda) (hys : y :: below <:+ (σ n).agenda) :
    x :: tail = y :: below := by
  have hnested := (hσ.sound n).nested key
  have habove : ∀ {a b : Task} {p q : List Task}, a.part key = .inside → b.part key = .inside →
      b :: q <:+ (σ n).agenda → a :: p <:+ b :: q → a :: p = b :: q := by
    intro a b p q ha hb hbs hab
    rcases List.suffix_cons_iff.mp hab with heq | ⟨between, hbetween⟩
    · exact heq
    · obtain ⟨above, hagenda⟩ := hbs
      rw [← hagenda, ← hbetween, ← List.cons_append, ← List.append_assoc] at hnested
      have hnone := hnested.none_above ha b (by simp)
      rw [hb] at hnone
      cases hnone
  rcases List.suffix_or_suffix_of_suffix hxs hys with h | h
  · exact habove hx hy hys h
  · exact (habove hy hx hxs h).symm

/-- There is at most one task of a pump of a host at a time. -/
theorem pump_unique {n : Nat} (hx : x.pumps? = some key) (hy : y.pumps? = some key)
    (hxs : x :: tail <:+ (σ n).agenda) (hys : y :: below <:+ (σ n).agenda) :
    x = y ∧ tail = below := by
  obtain ⟨_, ticking, under, _, _, hflush, _⟩ := hσ.pump_begun hx hxs
  obtain ⟨_, ticking', under', _, _, hflush', _⟩ := hσ.pump_begun hy hys
  have htail : tail = below := by
    have hxt : tail <:+ (σ n).agenda := (List.suffix_cons x tail).trans hxs
    have hyt : below <:+ (σ n).agenda := (List.suffix_cons y below).trans hys
    have hinside : ∀ t, (Task.flush key t).part key = .inside := by
      intro t
      simp [Task.part]
    rw [hflush] at hxt ⊢
    rw [hflush'] at hyt ⊢
    exact hσ.inside_unique (hinside ticking) (hinside ticking') hxt hyt
  subst htail
  exact ⟨Task.same_place hxs hys, rfl⟩

/-- What is left to fire was due by the clock when the pump came to its timers, and since then the
pump has had a task on the agenda that still has it all to fire. -/
theorem looked {n now : Nat} {due : List TimerId}
    (hsuffix : .fire key now due :: tail <:+ (σ n).agenda) :
    ∃ d, d < n ∧ Executes σ d (.drain key) tail ∧ now = (σ d).world.clock ∧
      due <:+ (timersOf σ key d).due now ∧
      ∀ i, d < i → i ≤ n → ∃ left, .fire key now left :: tail <:+ (σ i).agenda ∧
        due <:+ left ∧ left <:+ (timersOf σ key d).due now := by
  induction n using Nat.strongRecOn generalizing due with
  | ind n ih =>
      obtain ⟨a, t, rest, post, han, hexec, hpumps, htail, hstays⟩ :=
        hσ.pumped (x := .fire key now due) rfl hsuffix
      cases hpumps with
      | due =>
          rw [List.nil_append] at htail
          subst htail
          refine ⟨a, han, hexec, rfl, List.suffix_refl _, ?_⟩
          intro i hai hin
          exact ⟨_, hstays i hai hin, List.suffix_refl _, List.suffix_refl _⟩
      | fire _ id _ hlive =>
          rw [List.nil_append] at htail
          subst htail
          obtain ⟨d, hda, hdrain, hnow, hdue, hleft⟩ := ih a han (suffix_of_executes hexec)
          have htl : due <:+ id :: due := List.suffix_cons id due
          refine ⟨d, Nat.lt_trans hda han, hdrain, hnow, htl.trans hdue, ?_⟩
          intro i hdi hin
          rcases Nat.lt_or_ge a i with hai | hia
          · exact ⟨due, hstays i hai hin, List.suffix_refl _, htl.trans hdue⟩
          · obtain ⟨left, hfire, hshort, hlong⟩ := hleft i hdi hia
            exact ⟨left, hfire, htl.trans hshort, hlong⟩

/-- In one pump a timer comes up once. -/
theorem fired_once {n now : Nat} {id : TimerId} {due : List TimerId}
    (hexec : Executes σ n (.fire key now (id :: due)) tail) :
    ∃ d, d < n ∧ Executes σ d (.drain key) tail ∧ now = (σ d).world.clock ∧
      id ∈ (timersOf σ key d).due now ∧
      ∀ i, d ≤ i → i < n → ∀ now' due' rest, ¬ Executes σ i (.fire key now' (id :: due')) rest := by
  obtain ⟨d, hdn, hdrain, hnow, hdue, hleft⟩ := hσ.looked (suffix_of_executes hexec)
  refine ⟨d, hdn, hdrain, hnow, hdue.subset List.mem_cons_self, ?_⟩
  intro i hdi hin now' due' rest hearlier
  rcases Nat.lt_or_eq_of_le hdi with hlt | rfl
  · obtain ⟨left, hfire, -, hlong⟩ := hleft i hlt (Nat.le_of_lt hin)
    obtain ⟨hsame, rfl⟩ :=
      hσ.pump_unique (x := .fire key now' (id :: due')) rfl rfl (suffix_of_executes hearlier) hfire
    cases hsame
    -- one step later the pump has gone past the timer, and the list has it only once
    obtain ⟨later, hfire', hshort, -⟩ := hleft (i + 1) (Nat.lt_succ_of_lt hlt) hin
    have hnodup : (id :: due').Nodup := hlong.sublist.nodup ((timersOf σ key d).due_nodup now)
    have hlater : later = due' := by
      rw [after hearlier (hσ.uncrashed_of_suffix hfire')] at hfire'
      obtain ⟨pre, hpre⟩ := hfire'
      have hsplit : (pre ++ [.fire key now later]) ++ rest =
          ((Task.fire key now (id :: due')).react (σ i).world (σ i).outcome).next ++ rest := by
        simpa using hpre
      have hpumps := Task.pumps_of_pushes (x := .fire key now later) rfl
        (List.append_cancel_right hsplit).symm
      cases hpumps
      rfl
    subst hlater
    exact (List.nodup_cons.mp hnodup).1 (hshort.subset List.mem_cons_self)
  · have hheads := hearlier.agenda.symm.trans hdrain.agenda
    cases hheads

end Behavior

end TickHost
