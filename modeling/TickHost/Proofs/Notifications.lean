import TickHost.Proofs.Deferrals

/-!
How signals are given to callbacks. Those that are connected to a signal when it is given are called
one after the other, each once, in the order in which they were connected. What one of them does,
and whether it fails, makes no difference to the others. What is connected meanwhile has to wait for
the next time.
-/

namespace TickHost

open World Machine

/-- A callback is called in this step, above what is left to do when the signal has been given to
all. -/
def Calls (σ : Nat → Machine) (key : Nat) (args : List Value) (below : List Task) (n : Nat)
    (callback : Callback) : Prop :=
  ∃ left, Executes σ n (.call key callback args)
    (.report key :: .notify key left args :: below)

/-- What is to be done while a signal is given, with these callbacks still to be called. -/
inductive Notifying (key : Nat) (args : List Value) (below : List Task) :
    List Task → List Callback → Prop where
  | ready (left : List Callback) : Notifying key args below (.notify key left args :: below) left
  | calling (callback : Callback) (left : List Callback) :
      Notifying key args below
        (.call key callback args :: .report key :: .notify key left args :: below)
        (callback :: left)
  /-- What the latest callback has begun goes on. -/
  | called {above : List Task} (hscripted : Task.Scripted above) (left : List Callback) :
      Notifying key args below (above ++ .report key :: .notify key left args :: below) left
  | through : Notifying key args below below []

section

variable {key : Nat} {args : List Value} {below : List Task} {left : List Callback}

/-- When the signal has been given to all, nobody is left. -/
theorem Notifying.nobody {agenda : List Task} (h : Notifying key args below agenda left)
    (hagenda : agenda = below) : left = [] := by
  cases h with
  | through => rfl
  | ready | calling | called =>
      have hlength := congrArg List.length hagenda
      simp only [List.length_append, List.length_cons] at hlength
      omega

namespace Machine

variable {m m' : Machine}

/-- The callback that comes next is called, or none is called for now. -/
theorem Next.notifying (hnext : m.Next m') (hcrashed : m'.world.crashed = false)
    (h : Notifying key args below m.agenda left) (hgoes : m.agenda ≠ below) :
    (∃ callback left', left = callback :: left' ∧
        m.agenda = .call key callback args :: .report key :: .notify key left' args :: below ∧
        m' = m.step ∧ Notifying key args below m'.agenda left') ∨
      Notifying key args below m'.agenda left ∧ ∀ callback left',
        m.agenda = .call key callback args :: .report key :: .notify key left' args :: below →
        m' ≠ m.step := by
  have hafter : ∀ {t : Task} {rest : List Task}, m.agenda = t :: rest → m' = m.step →
      m'.agenda = (t.react m.world m.outcome).next ++ rest := by
    rintro t rest hagenda rfl
    rw [step_agenda hagenda, hcrashed, if_neg Bool.false_ne_true]
  generalize hagenda : m.agenda = agenda at h hgoes
  cases h with
  | through => exact absurd rfl hgoes
  | ready =>
      refine .inr ⟨?_, nofun⟩
      rcases hnext.stuck rfl rfl hagenda with hstep | ⟨hsame, -⟩
      · rw [hafter hagenda hstep]
        cases left with
        | nil => exact .through
        | cons callback left => exact .calling callback left
      · rw [hsame, hagenda]
        exact .ready left
  | calling callback left =>
      have hscripted := Task.callBack_scripted m.world m.outcome key callback args
      rcases hnext.stuck rfl rfl hagenda with hstep | ⟨hsame, -⟩
      · refine .inl ⟨callback, left, rfl, rfl, hstep, ?_⟩
        rw [hafter hagenda hstep]
        exact .called hscripted left
      · rw [hsame, hagenda]
        refine .inr ⟨.calling callback left, fun other left' heq hstep => ?_⟩
        -- a callback that is called does not stay where it is
        have hmoves := hafter hagenda hstep
        rw [hsame, hagenda] at hmoves
        have hstays : [.call key callback args] = (Task.callBack m.world m.outcome key callback
            args).next := List.append_cancel_right hmoves
        cases hscripted (.call key callback args) (hstays ▸ rfl)
  | @called above hscripted left =>
      refine .inr ⟨?_, fun callback left' heq _ => ?_⟩
      · rcases hnext.scripted hcrashed hscripted rfl hagenda with
          ⟨above', hscripted', hagenda'⟩ | ⟨rfl, rfl⟩
        · exact hagenda' ▸ .called hscripted' left
        · exact report_step hagenda hcrashed ▸ .ready left
      · cases above with
        | nil => cases heq
        | cons t above =>
            have hlength := congrArg List.length heq
            simp only [List.cons_append, List.length_append, List.length_cons] at hlength
            obtain rfl : above = [] := List.length_eq_zero_iff.mp (by omega)
            cases heq
            cases hscripted (.call key callback args) rfl

end Machine

end

namespace Behavior

variable {σ : Nat → Machine} (hσ : Behavior σ)

include hσ

/-- A signal that is given calls the callbacks in order. -/
theorem called_in_order {key n m : Nat} {args : List Value} {below : List Task}
    {callbacks : List Callback}
    (hagenda : (σ n).agenda = .notify key callbacks args :: below) (hnm : n ≤ m)
    (hcrashed : (σ m).world.crashed = false)
    (hgoes : ∀ i, n ≤ i → i < m → (σ i).agenda ≠ below) :
    ∃ called left, Log (Calls σ key args below) n m called ∧ callbacks = called ++ left ∧
      Notifying key args below (σ m).agenda left := by
  induction hnm with
  | refl => exact ⟨[], callbacks, .start, rfl, hagenda ▸ .ready callbacks⟩
  | @step m hnm ih =>
      obtain ⟨called, left, hlog, hlist, hnotifying⟩ :=
        ih (hσ.uncrashed (Nat.le_succ m) hcrashed) fun i hni him =>
          hgoes i hni (Nat.lt_succ_of_lt him)
      rcases (hσ.next m).notifying hcrashed hnotifying (hgoes m hnm (Nat.lt_succ_self m)) with
        ⟨callback, left', rfl, hcall, hstep, hnext⟩ | ⟨hnext, hnone⟩
      · have hcalls : Calls σ key args below m callback := ⟨left', hcall, hstep⟩
        refine ⟨called ++ [callback], left', hlog.event hcalls fun other hother => ?_,
          by rw [hlist, List.append_assoc]; rfl, hnext⟩
        obtain ⟨left'', hexec⟩ := hother
        cases (hexec.unique ⟨hcall, hstep⟩).1
        rfl
      · refine ⟨called, left, hlog.quiet fun callback hcalls => ?_, hlist, hnext⟩
        obtain ⟨left', hexec⟩ := hcalls
        exact hnone callback left' hexec.agenda hexec.step

end Behavior

end TickHost
