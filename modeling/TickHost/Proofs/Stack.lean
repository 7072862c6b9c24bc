import TickHost.Proofs.Behavior

/-!
The agenda as a stack. A task stays where it is, with everything below it, until it comes up and is
executed, and it was put there by a task that was executed before. Only scripts come from others.
So the history of a task can be read off the agenda, backwards from the moment at which it is
executed, and what lies above it meanwhile is executed before it.
-/

namespace TickHost

open World Machine

def Task.isPerform : Task → Bool
  | perform _ _ => true
  | _ => false

/-- What others make of the tasks above some task: a script goes on in another way, or another one
is put on top, where the task that is next lets others have a turn. -/
inductive Task.Shifts (x : Task) : List Task → List Task → Prop where
  | chooses (scope : Scope) (actions chosen : List Action) (above : List Task) :
      Shifts x (perform scope actions :: above) (perform scope chosen :: above)
  | intrudes (scope : Scope) (actions : List Action) (above : List Task)
      (hpauses : ∀ t rest, above ++ [x] = t :: rest → t.pauses = true) :
      Shifts x above (perform scope actions :: above)
  | reorders (above : List Task) : Shifts x above above

namespace Machine

variable {m m' : Machine} {x : Task} {above tail : List Task}

theorem Interrupts.outcome (hinterrupts : Interrupts m m') : m'.outcome = m.outcome := by
  cases hinterrupts <;> rfl

/-- Others leave a task in its place, with everything below it. -/
theorem Interrupts.shifts (hinterrupts : Interrupts m m') (hx : x.isPerform = false)
    (hagenda : m.agenda = above ++ x :: tail) :
    ∃ above', Task.Shifts x above above' ∧ m'.agenda = above' ++ x :: tail := by
  cases hinterrupts with
  | chooses scope actions chosen rest hscript =>
      rw [hagenda] at hscript
      cases above with
      | nil =>
          cases hscript
          cases hx
      | cons t above =>
          rw [List.cons_append] at hscript
          cases hscript
          exact ⟨_, .chooses scope actions chosen above, rfl⟩
  | intrudes scope actions t rest hturn hpauses _ =>
      refine ⟨_, .intrudes scope actions above fun first below hfirst => ?_, ?_⟩
      · rw [List.append_cons, hfirst] at hagenda
        cases hagenda.symm.trans hturn
        exact hpauses
      · rw [← hturn, hagenda]
        rfl
  | reorders => exact ⟨above, .reorders above, hagenda⟩

/-- What one step makes of the tasks above a task that waits: the first is executed, or others
shift them, or there are none and the task itself is executed. -/
theorem Next.shifts (hnext : m.Next m') (hx : x.isPerform = false)
    (hcrashed : m'.world.crashed = false) (hagenda : m.agenda = above ++ x :: tail) :
    (∃ t rest, above = t :: rest ∧ m' = m.step ∧
      m'.agenda = ((t.react m.world m.outcome).next ++ rest) ++ x :: tail ∧
      m'.outcome = (t.react m.world m.outcome).outcome) ∨
    (∃ above', Task.Shifts x above above' ∧ m'.agenda = above' ++ x :: tail ∧
      m'.outcome = m.outcome) ∨
    above = [] ∧ m' = m.step := by
  cases hnext with
  | interrupt hinterrupts =>
      obtain ⟨above', hshifts, hagenda'⟩ := hinterrupts.shifts hx hagenda
      exact .inr (.inl ⟨above', hshifts, hagenda', hinterrupts.outcome⟩)
  | step =>
      cases above with
      | nil => exact .inr (.inr ⟨rfl, rfl⟩)
      | cons t rest =>
          rw [List.cons_append] at hagenda
          refine .inl ⟨t, rest, rfl, rfl, ?_, ?_⟩
          · rw [step_agenda hagenda, hcrashed, List.append_assoc]
            rfl
          · simp [Machine.step, hagenda]

/-- Where a task on the agenda was before: in the same place, or it was put there just now. -/
theorem Next.suffix_back (hnext : m.Next m') (hx : x.isPerform = false)
    (hsuffix : x :: tail <:+ m'.agenda) :
    x :: tail <:+ m.agenda ∨ m' = m.step ∧ ∃ t rest pre post, m.agenda = t :: rest ∧
      (t.react m.world m.outcome).next = pre ++ x :: post ∧ tail = post ++ rest := by
  have hscript : ∀ (scope : Scope) (actions : List Action) (rest : List Task),
      x :: tail <:+ .perform scope actions :: rest → x :: tail <:+ rest := by
    intro scope actions rest h
    rcases List.suffix_cons_iff.mp h with h | h
    · cases h
      cases hx
    · exact h
  cases hnext with
  | interrupt hinterrupts =>
      left
      cases hinterrupts with
      | chooses scope actions chosen rest hagenda =>
          rw [hagenda]
          exact (hscript scope chosen rest hsuffix).trans (List.suffix_cons _ _)
      | intrudes scope actions t rest hagenda _ _ =>
          rw [hagenda]
          exact hscript scope actions _ hsuffix
      | reorders => exact hsuffix
  | step =>
      cases hagenda : m.agenda with
      | nil =>
          rw [step_nil hagenda, hagenda] at hsuffix
          exact .inl hsuffix
      | cons t rest =>
          rw [step_agenda hagenda] at hsuffix
          split at hsuffix
          · simp at hsuffix
          · obtain ⟨above, habove⟩ := hsuffix
            rcases List.append_eq_append_iff.mp habove with ⟨as, hnew, hold⟩ | ⟨bs, _, hold⟩
            · cases as with
              | nil =>
                  rw [List.nil_append] at hold
                  rw [hold]
                  exact .inl (List.suffix_cons _ _)
              | cons first post =>
                  cases hold
                  exact .inr ⟨rfl, t, rest, above, post, rfl, hnew, rfl⟩
            · rw [hold]
              exact .inl ((List.suffix_append _ _).trans (List.suffix_cons _ _))

/-- A task stays where it is until it comes up. -/
theorem Next.suffix (hnext : m.Next m') (hx : x.isPerform = false)
    (hcrashed : m'.world.crashed = false) (hsuffix : x :: tail <:+ m.agenda) :
    (m.agenda = x :: tail ∧ m' = m.step) ∨ x :: tail <:+ m'.agenda := by
  obtain ⟨above, habove⟩ := hsuffix
  rcases hnext.shifts hx hcrashed habove.symm with ⟨t, rest, -, -, hagenda', -⟩ |
    ⟨above', -, hagenda', -⟩ | ⟨rfl, hstep⟩
  · exact .inr ⟨_, hagenda'.symm⟩
  · exact .inr ⟨_, hagenda'.symm⟩
  · exact .inl ⟨habove.symm, hstep⟩

/-- A task before which nobody else gets a turn is executed next, or nothing happens yet. -/
theorem Next.stuck (hnext : m.Next m') (hx : x.isPerform = false) (hpauses : x.pauses = false)
    (hagenda : m.agenda = x :: tail) :
    m' = m.step ∨ m'.agenda = m.agenda ∧ Interrupts.Same m.world m'.world := by
  cases hnext with
  | step => exact .inl rfl
  | interrupt hinterrupts =>
      right
      have hplace : m.agenda = [] ++ x :: tail := hagenda
      obtain ⟨above', hshifts, hagenda'⟩ := hinterrupts.shifts hx hplace
      refine ⟨?_, hinterrupts.same⟩
      cases hshifts with
      | intrudes scope actions _ hturn =>
          have hx' := hturn x [] rfl
          rw [hpauses] at hx'
          cases hx'
      | reorders => exact hagenda'.trans hplace.symm

end Machine

namespace Behavior

variable {σ : Nat → Machine} (hσ : Behavior σ) {x : Task} {tail : List Task}

include hσ

/-- After a crash there is no way back. -/
theorem uncrashed {n m : Nat} (hnm : n ≤ m) (hcrashed : (σ m).world.crashed = false) :
    (σ n).world.crashed = false := by
  induction m with
  | zero =>
      obtain rfl := Nat.le_zero.mp hnm
      exact hcrashed
  | succ m ih =>
      rcases Nat.lt_or_eq_of_le hnm with hlt | rfl
      · exact ih (Nat.le_of_lt_succ hlt) ((hσ.next m).uncrashed (hσ.sound m) hcrashed)
      · exact hcrashed

theorem uncrashed_of_suffix {n : Nat} (hsuffix : x :: tail <:+ (σ n).agenda) :
    (σ n).world.crashed = false := by
  cases hagenda : (σ n).agenda with
  | nil => simp [hagenda] at hsuffix
  | cons t rest => exact (hσ.sound n).uncrashed hagenda

/-- Every task but a script was put on the agenda by a task that was executed, and has been in its
place since. -/
theorem pushed {n : Nat} (hx : x.isPerform = false) (hsuffix : x :: tail <:+ (σ n).agenda) :
    ∃ a t rest pre post, a < n ∧ Executes σ a t rest ∧
      (t.react (σ a).world (σ a).outcome).next = pre ++ x :: post ∧ tail = post ++ rest ∧
      ∀ i, a < i → i ≤ n → x :: tail <:+ (σ i).agenda := by
  induction n with
  | zero =>
      obtain ⟨disk, remote, programs, functions, network, actions, hstart⟩ := hσ.starts
      rw [hstart, Machine.start] at hsuffix
      rcases List.suffix_cons_iff.mp hsuffix with h | h
      · cases h
        cases hx
      · simp at h
  | succ n ih =>
      rcases (hσ.next n).suffix_back hx hsuffix with hbefore | ⟨hstep, t, rest, pre, post,
        hagenda, hnext, htail⟩
      · obtain ⟨a, t, rest, pre, post, han, hexec, hnext, htail, hstays⟩ := ih hbefore
        refine ⟨a, t, rest, pre, post, Nat.lt_succ_of_lt han, hexec, hnext, htail,
          fun i hai hin => ?_⟩
        rcases Nat.lt_or_eq_of_le hin with hlt | rfl
        · exact hstays i hai (Nat.le_of_lt_succ hlt)
        · exact hsuffix
      · refine ⟨n, t, rest, pre, post, Nat.lt_succ_self n, ⟨hagenda, hstep⟩, hnext, htail,
          fun i hai hin => ?_⟩
        obtain rfl : i = n + 1 := by omega
        exact hsuffix

/-- A task is still in its place, or it was executed. -/
theorem stays_or_popped {a n : Nat} (hx : x.isPerform = false)
    (hsuffix : x :: tail <:+ (σ a).agenda) (han : a ≤ n)
    (hcrashed : (σ n).world.crashed = false) :
    (∀ j, a ≤ j → j ≤ n → x :: tail <:+ (σ j).agenda) ∨
      ∃ i, a ≤ i ∧ i < n ∧ Executes σ i x tail ∧
        ∀ j, a ≤ j → j ≤ i → x :: tail <:+ (σ j).agenda := by
  induction n with
  | zero =>
      obtain rfl := Nat.le_zero.mp han
      left
      intro j _ hj
      obtain rfl := Nat.le_zero.mp hj
      exact hsuffix
  | succ n ih =>
      rcases Nat.lt_or_eq_of_le han with hlt | rfl
      · have hle : a ≤ n := Nat.le_of_lt_succ hlt
        rcases ih hle (hσ.uncrashed (Nat.le_succ n) hcrashed) with hstays | hpopped
        · rcases (hσ.next n).suffix hx hcrashed (hstays n hle (Nat.le_refl n)) with
            ⟨hagenda, hstep⟩ | hafter
          · exact .inr ⟨n, hle, Nat.lt_succ_self n, ⟨hagenda, hstep⟩, hstays⟩
          · left
            intro j haj hjn
            rcases Nat.lt_or_eq_of_le hjn with hlt | rfl
            · exact hstays j haj (Nat.le_of_lt_succ hlt)
            · exact hafter
        · obtain ⟨i, hai, hin, hpopped⟩ := hpopped
          exact .inr ⟨i, hai, Nat.lt_succ_of_lt hin, hpopped⟩
      · left
        intro j haj hja
        obtain rfl := Nat.le_antisymm hja haj
        exact hsuffix

/-- A task that is gone from its place was executed. -/
theorem popped {a n : Nat} (hx : x.isPerform = false) (hsuffix : x :: tail <:+ (σ a).agenda)
    (han : a ≤ n) (hcrashed : (σ n).world.crashed = false)
    (hgone : ¬ x :: tail <:+ (σ n).agenda) :
    ∃ i, a ≤ i ∧ i < n ∧ Executes σ i x tail ∧
      ∀ j, a ≤ j → j ≤ i → x :: tail <:+ (σ j).agenda := by
  rcases hσ.stays_or_popped hx hsuffix han hcrashed with hstays | hpopped
  · exact absurd (hstays n han (Nat.le_refl n)) hgone
  · exact hpopped

/-- A task before which nobody else gets a turn is executed before anything else happens. -/
theorem stuck_until {a n : Nat} (hx : x.isPerform = false) (hpauses : x.pauses = false)
    (hagenda : (σ a).agenda = x :: tail) (han : a ≤ n) :
    ((σ n).agenda = x :: tail ∧ Interrupts.Same (σ a).world (σ n).world) ∨
      ∃ j, a ≤ j ∧ j < n ∧ Executes σ j x tail ∧
        Interrupts.Same (σ a).world (σ j).world := by
  induction han with
  | refl => exact .inl ⟨hagenda, .refl _⟩
  | @step n han ih =>
      rcases ih with ⟨hhead, hsame⟩ | ⟨j, haj, hjn, hdone⟩
      · rcases (hσ.next n).stuck hx hpauses hhead with hstep | ⟨hstuck, hsame'⟩
        · exact .inr ⟨n, han, Nat.lt_succ_self n, ⟨hhead, hstep⟩, hsame⟩
        · exact .inl ⟨hstuck.trans hhead, hsame.trans hsame'⟩
      · exact .inr ⟨j, haj, Nat.lt_succ_of_lt hjn, hdone⟩

end Behavior

end TickHost
