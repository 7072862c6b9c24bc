import TickHost.Timer

/-!
Which timers a table can have after an operation. Only starting a timer adds one: cancelling,
firing and clearing the table leave no timer that was not there before, and clearing leaves none.
-/

namespace TickHost.Timers

variable {α : Type}

/-- Every timer of the second table was in the first one already. -/
def NoneNew (before after : Timers α) : Prop :=
  ∀ id, after.contains id = true → before.contains id = true

theorem NoneNew.refl (t : Timers α) : t.NoneNew t :=
  fun _ h => h

theorem NoneNew.trans {t u v : Timers α} (h : t.NoneNew u) (h' : u.NoneNew v) : t.NoneNew v :=
  fun id hid => h id (h' id hid)

/-- No handle reaches a timer. -/
def Cleared (t : Timers α) : Prop :=
  ∀ id, t.contains id = false

theorem Cleared.of_noneNew {t u : Timers α} (h : t.Cleared) (hnew : t.NoneNew u) : u.Cleared := by
  intro id
  cases hid : u.contains id with
  | false => rfl
  | true => exact absurd (hnew id hid) (by simp [h id])

/-- A handle that is live after a slot was given up is that of another slot. -/
theorem contains_release {t : Timers α} {index : Nat} {id : TimerId}
    (h : (t.release index).contains id = true) :
    t.contains id = true ∧ ((t.slots[index]?).bind TimerSlot.timer ≠ none → id.slot ≠ index) := by
  unfold release at h
  split at h
  · rename_i generation timer hslot
    by_cases hindex : id.slot = index
    · have hlt : index < t.slots.length := (List.getElem?_eq_some_iff.mp hslot).1
      simp only [contains, find?, hindex, List.getElem?_set_self hlt] at h
      split at h <;> simp at h
    · rw [contains, find?, List.getElem?_set_ne (Ne.symm hindex)] at h
      exact ⟨h, fun _ => hindex⟩
  · rename_i hfree
    refine ⟨h, fun htaken => ?_⟩
    cases hslot : t.slots[index]? with
    | none => simp [hslot] at htaken
    | some slot =>
        obtain ⟨generation, _ | timer⟩ := slot
        · simp [hslot] at htaken
        · exact absurd hslot (hfree generation timer)

theorem release_noneNew (t : Timers α) (index : Nat) : t.NoneNew (t.release index) :=
  fun _ h => (contains_release h).1

theorem cancel_noneNew (t : Timers α) (id : TimerId) : t.NoneNew (t.cancel id).2 := by
  unfold cancel
  split
  · exact release_noneNew t id.slot
  · exact .refl t

theorem fire_noneNew (t : Timers α) (id : TimerId) (now : Nat) : t.NoneNew (t.fire id now).2 := by
  unfold fire
  split
  · exact .refl t
  · rename_i timer hfound
    split
    · exact release_noneNew t id.slot
    · intro other hother
      have hlive : t.contains id = true := by simp [contains, hfound]
      by_cases hslot : other.slot = id.slot
      · have hgeneration : id.generation = other.generation := by
          simp only [contains, find?, hslot] at hother
          split at hother
          · rename_i slot hget
            split at hother
            · rename_i heq
              simp only [List.getElem?_set] at hget
              split at hget
              · split at hget
                · cases hget
                  exact heq
                · cases hget
              · rename_i hne
                exact absurd trivial hne
            · simp at hother
          · simp at hother
        have hsame : other = id := by
          cases other
          cases id
          simp_all
        rwa [hsame]
      · rw [contains, find?] at hother
        simp only [List.getElem?_set_ne (Ne.symm hslot)] at hother
        exact hother

theorem foldl_release_noneNew (indices : List Nat) (t : Timers α) :
    t.NoneNew (indices.foldl release t) := by
  induction indices generalizing t with
  | nil => exact .refl t
  | cons index rest ih => exact (release_noneNew t index).trans (ih (t.release index))

/-- Slots that were given up stay empty while others are given up. -/
theorem contains_foldl_release (indices : List Nat) (t : Timers α) (id : TimerId)
    (h : (indices.foldl release t).contains id = true) : id.slot ∉ indices := by
  induction indices generalizing t with
  | nil => exact List.not_mem_nil
  | cons index rest ih =>
      have hrest := ih (t.release index) h
      have hafter := foldl_release_noneNew rest (t.release index) id h
      have hbefore := contains_release hafter
      have hslot : id.slot ≠ index := by
        intro heq
        refine hbefore.2 ?_ heq
        have hlive := hbefore.1
        simp only [contains, find?, heq] at hlive
        split at hlive
        · rename_i slot hget
          split at hlive
          · simp only [hget, Option.bind_some]
            exact fun hnone => by simp [hnone] at hlive
          · simp at hlive
        · simp at hlive
      simp [hslot, hrest]

theorem cancelAll_noneNew (t : Timers α) : t.NoneNew t.cancelAll.2 :=
  foldl_release_noneNew _ t

/-- Clearing a table leaves no timer. -/
theorem cancelAll_cleared (t : Timers α) : t.cancelAll.2.Cleared := by
  intro id
  cases h : t.cancelAll.2.contains id with
  | false => rfl
  | true =>
      have hslot : id.slot ∉ List.range t.slots.length := contains_foldl_release _ t id h
      have hlive := cancelAll_noneNew t id h
      have hnone : t.slots[id.slot]? = none := by
        simpa [List.getElem?_eq_none_iff] using hslot
      simp [contains, find?, hnone] at hlive

end TickHost.Timers
