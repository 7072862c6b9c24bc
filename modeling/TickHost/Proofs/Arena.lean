import TickHost.Proofs.Timers

/-!
The arena behind a table of timers. Three parts of it have to agree: the list of free slots, the
slots themselves and the number of active timers (`Tidy`). The generation of a slot counts how
often the slot was given up (`History.generation`), so as long as no slot was given up so often
that the count wraps around, a handle whose timer is gone never reaches a timer again
(`History.gone`), however its slot is reused.
-/

namespace TickHost.Timers

variable {α : Type}

/-- The timer in a slot. -/
def timer? (t : Timers α) (slot : Nat) : Option (Timer α) :=
  (t.slots[slot]?).bind TimerSlot.timer

/-- The generation of a slot, zero for a slot that was never used. -/
def generation (t : Timers α) (slot : Nat) : UInt32 :=
  ((t.slots[slot]?).map TimerSlot.generation).getD 0

theorem find?_eq (t : Timers α) (id : TimerId) :
    t.find? id = if t.generation id.slot = id.generation then t.timer? id.slot else none := by
  cases hslot : t.slots[id.slot]? with
  | none => simp [find?, generation, timer?, hslot]
  | some slot => simp [find?, generation, timer?, hslot]

theorem eq_of_slot {a b : TimerId} (hslot : a.slot = b.slot)
    (hgeneration : a.generation = b.generation) : a = b := by
  cases a
  cases b
  simp_all

theorem contains_iff {t : Timers α} {id : TimerId} :
    t.contains id = true ↔ ∃ timer, t.find? id = some timer := by
  simp [contains, Option.isSome_iff_exists]

theorem contains_eq_false {t : Timers α} {id : TimerId} :
    t.contains id = false ↔ t.find? id = none := by
  simp [contains]

/-- A live handle names a slot with a timer, and its generation. -/
theorem of_contains {t : Timers α} {id : TimerId} (h : t.contains id = true) :
    t.generation id.slot = id.generation ∧ (t.timer? id.slot).isSome = true := by
  rw [contains, find?_eq] at h
  split at h
  · rename_i hgeneration
    exact ⟨hgeneration, h⟩
  · simp at h

theorem timer?_eq_none_of_le {t : Timers α} {slot : Nat} (h : t.slots.length ≤ slot) :
    t.timer? slot = none := by
  simp [timer?, List.getElem?_eq_none h]

theorem lt_of_timer? {t : Timers α} {slot : Nat} {timer : Timer α}
    (h : t.timer? slot = some timer) : slot < t.slots.length := by
  apply Nat.lt_of_not_le
  intro hle
  simp [timer?_eq_none_of_le hle] at h

/-! ### A slot that is overwritten -/

section Overwriting

variable (slots : List (TimerSlot α)) (free : List Nat) (active : Nat) (entry : TimerSlot α)

theorem timer?_set {slot : Nat} (h : slot < slots.length) (other : Nat) :
    timer? ⟨slots.set slot entry, free, active⟩ other =
      if other = slot then entry.timer else (slots[other]?).bind TimerSlot.timer := by
  by_cases heq : other = slot
  · simp [timer?, heq, List.getElem?_set_self h]
  · simp [timer?, heq, List.getElem?_set_ne (Ne.symm heq)]

theorem generation_set {slot : Nat} (h : slot < slots.length) (other : Nat) :
    generation ⟨slots.set slot entry, free, active⟩ other =
      if other = slot then entry.generation
      else ((slots[other]?).map TimerSlot.generation).getD 0 := by
  by_cases heq : other = slot
  · simp [generation, heq, List.getElem?_set_self h]
  · simp [generation, heq, List.getElem?_set_ne (Ne.symm heq)]

end Overwriting

/-! ### Giving up slots -/

/-- A slot is given up by overwriting it, or there was nothing in it. -/
theorem release_cases (t : Timers α) (slot : Nat) :
    (∃ timer, t.slots[slot]? = some ⟨t.generation slot, some timer⟩ ∧
      t.release slot =
        ⟨t.slots.set slot ⟨t.generation slot + 1, none⟩, slot :: t.free, t.active - 1⟩) ∨
    (t.timer? slot = none ∧ t.release slot = t) := by
  cases hslot : t.slots[slot]? with
  | none =>
      right
      exact ⟨by simp [timer?, hslot], by simp [release, hslot]⟩
  | some entry =>
      obtain ⟨generation, _ | timer⟩ := entry
      · right
        exact ⟨by simp [timer?, hslot], by simp [release, hslot]⟩
      · left
        exact ⟨timer, by simp [Timers.generation, hslot], by
          simp [release, Timers.generation, hslot]⟩

theorem timer?_release (t : Timers α) (slot other : Nat) :
    (t.release slot).timer? other = if other = slot then none else t.timer? other := by
  rcases release_cases t slot with ⟨timer, hslot, hrelease⟩ | ⟨hnone, hrelease⟩
  · rw [hrelease, timer?_set _ _ _ _ (List.getElem?_eq_some_iff.mp hslot).1]
    rfl
  · rw [hrelease]
    by_cases heq : other = slot
    · simp [heq, hnone]
    · simp [heq]

theorem generation_release (t : Timers α) (slot other : Nat) :
    (t.release slot).generation other =
      t.generation other + if other = slot ∧ (t.timer? slot).isSome then 1 else 0 := by
  rcases release_cases t slot with ⟨timer, hslot, hrelease⟩ | ⟨hnone, hrelease⟩
  · have htimer : t.timer? slot = some timer := by simp [timer?, hslot]
    rw [hrelease, generation_set _ _ _ _ (List.getElem?_eq_some_iff.mp hslot).1]
    by_cases heq : other = slot
    · simp [heq, htimer]
    · simp [heq, generation]
  · simp [hrelease, hnone]

theorem timer?_foldl_release (slots : List Nat) (t : Timers α) (other : Nat) :
    (slots.foldl release t).timer? other = if other ∈ slots then none else t.timer? other := by
  induction slots generalizing t with
  | nil => simp
  | cons slot rest ih =>
      rw [List.foldl_cons, ih, timer?_release]
      by_cases hrest : other ∈ rest
      · simp [hrest]
      · by_cases heq : other = slot
        · simp [heq]
        · simp [hrest, heq]

theorem generation_foldl_release (slots : List Nat) (t : Timers α) (other : Nat) :
    (slots.foldl release t).generation other =
      t.generation other + if other ∈ slots ∧ (t.timer? other).isSome then 1 else 0 := by
  induction slots generalizing t with
  | nil => simp
  | cons slot rest ih =>
      rw [List.foldl_cons, ih, timer?_release, generation_release]
      by_cases heq : other = slot
      · simp [heq]
      · simp [heq]

theorem timer?_cancelAll (t : Timers α) (slot : Nat) : t.cancelAll.2.timer? slot = none := by
  rw [cancelAll, timer?_foldl_release]
  split
  · rfl
  · rename_i hmem
    apply timer?_eq_none_of_le
    simpa using hmem

theorem generation_cancelAll (t : Timers α) (slot : Nat) :
    t.cancelAll.2.generation slot =
      t.generation slot + if (t.timer? slot).isSome then 1 else 0 := by
  rw [cancelAll, generation_foldl_release]
  cases htimer : t.timer? slot with
  | none => simp
  | some timer => simp [lt_of_timer? htimer]

/-! ### The table in order -/

/-- The parts of a table agree: the free list names the empty slots, each once, and the count is
the number of slots with a timer. -/
structure Tidy (t : Timers α) : Prop where
  nodup : t.free.Nodup
  free : ∀ slot, slot ∈ t.free ↔ slot < t.slots.length ∧ t.timer? slot = none
  active : t.active = t.slots.countP fun slot => slot.timer.isSome

theorem empty_tidy : (empty : Timers α).Tidy where
  nodup := List.nodup_nil
  free := by simp [empty]
  active := rfl

/-- How the count changes when a slot is overwritten. -/
theorem countP_taken_set {slots : List (TimerSlot α)} {slot : Nat} {old : TimerSlot α}
    (hslot : slots[slot]? = some old) (new : TimerSlot α) :
    ((slots.set slot new).countP fun entry => entry.timer.isSome) =
      (slots.countP fun entry => entry.timer.isSome) - (if old.timer.isSome then 1 else 0) +
        if new.timer.isSome then 1 else 0 := by
  obtain ⟨hlt, hget⟩ := List.getElem?_eq_some_iff.mp hslot
  rw [List.countP_set hlt, hget]

theorem Tidy.release {t : Timers α} (ht : t.Tidy) (slot : Nat) : (t.release slot).Tidy := by
  rcases release_cases t slot with ⟨timer, hslot, hrelease⟩ | ⟨-, hrelease⟩
  · have htimer : t.timer? slot = some timer := by simp [timer?, hslot]
    have hlt := lt_of_timer? htimer
    constructor
    · rw [hrelease]
      refine List.nodup_cons.mpr ⟨?_, ht.nodup⟩
      intro hmem
      simp [((ht.free slot).mp hmem).2] at htimer
    · intro other
      rw [timer?_release, hrelease]
      by_cases heq : other = slot
      · simp [heq, hlt]
      · simp [heq, ht.free other]
    · rw [hrelease]
      simp only [countP_taken_set hslot, ht.active, Option.isSome_some, Option.isSome_none, if_true]
      simp
  · rw [hrelease]
    exact ht

theorem Tidy.foldl_release {t : Timers α} (ht : t.Tidy) (slots : List Nat) :
    (slots.foldl Timers.release t).Tidy := by
  induction slots generalizing t with
  | nil => exact ht
  | cons slot rest ih => exact ih (ht.release slot)

theorem Tidy.cancelAll {t : Timers α} (ht : t.Tidy) : t.cancelAll.2.Tidy :=
  ht.foldl_release _

theorem Tidy.cancel {t : Timers α} (ht : t.Tidy) (id : TimerId) : (t.cancel id).2.Tidy := by
  unfold Timers.cancel
  split
  · exact ht.release id.slot
  · exact ht

/-- A table where no handle is live counts no timer. -/
theorem Tidy.active_of_cleared {t : Timers α} (ht : t.Tidy) (h : t.Cleared) : t.active = 0 := by
  rw [ht.active, List.countP_eq_zero]
  intro entry hentry htaken
  obtain ⟨slot, hslot⟩ := List.mem_iff_getElem?.mp hentry
  have hdead := h ⟨slot, entry.generation⟩
  simp only [contains, find?, hslot, if_true] at hdead
  simp [hdead] at htaken

/-! ### Starting a timer -/

section Starting

variable (t : Timers α) (callback : α) (interval : Nat) (once : Bool) (now : Nat)

/-- A timer starts in a slot that is empty, under the generation the slot has. -/
theorem schedule_cases (ht : t.Tidy) :
    (∃ free, t.free = (t.schedule callback interval once now).1.slot :: free ∧
      (t.schedule callback interval once now).1.slot < t.slots.length ∧
      (t.schedule callback interval once now).2 =
        ⟨t.slots.set (t.schedule callback interval once now).1.slot
            ⟨t.generation (t.schedule callback interval once now).1.slot,
              some ⟨callback, interval, once, now + interval⟩⟩, free, t.active + 1⟩) ∨
    (t.free = [] ∧ (t.schedule callback interval once now).1.slot = t.slots.length ∧
      (t.schedule callback interval once now).2 =
        ⟨t.slots ++ [⟨0, some ⟨callback, interval, once, now + interval⟩⟩], [], t.active + 1⟩) := by
  cases hfree : t.free with
  | nil =>
      right
      simp [schedule, hfree]
  | cons slot free =>
      left
      have hmem : slot ∈ t.free := by simp [hfree]
      refine ⟨free, by simp [schedule, hfree], ?_, by simp [schedule, hfree, generation]⟩
      simpa [schedule, hfree] using ((ht.free slot).mp hmem).1

theorem schedule_generation :
    (t.schedule callback interval once now).1.generation =
      t.generation (t.schedule callback interval once now).1.slot := by
  unfold schedule
  split
  · rfl
  · simp [generation]

/-- There was no timer in the slot. -/
theorem timer?_schedule_slot (ht : t.Tidy) :
    t.timer? (t.schedule callback interval once now).1.slot = none := by
  rcases schedule_cases t callback interval once now ht with ⟨free, hfree, -, -⟩ | ⟨-, hslot, -⟩
  · refine ((ht.free _).mp ?_).2
    rw [hfree]
    exact List.mem_cons_self
  · rw [hslot]
    exact timer?_eq_none_of_le (Nat.le_refl _)

theorem timer?_schedule (ht : t.Tidy) (slot : Nat) :
    (t.schedule callback interval once now).2.timer? slot =
      if slot = (t.schedule callback interval once now).1.slot
      then some ⟨callback, interval, once, now + interval⟩ else t.timer? slot := by
  rcases schedule_cases t callback interval once now ht with ⟨free, -, hlt, htable⟩ |
    ⟨-, hslot, htable⟩
  · rw [htable, timer?_set _ _ _ _ hlt]
    rfl
  · rw [htable, hslot]
    simp only [timer?, List.getElem?_append, List.getElem?_singleton]
    by_cases hlt : slot < t.slots.length
    · simp [hlt, Nat.ne_of_lt hlt]
    · by_cases heq : slot = t.slots.length
      · simp [heq]
      · have hsub : slot - t.slots.length ≠ 0 := by omega
        simp [hlt, heq, hsub]

theorem generation_schedule (ht : t.Tidy) (slot : Nat) :
    (t.schedule callback interval once now).2.generation slot = t.generation slot := by
  rcases schedule_cases t callback interval once now ht with ⟨free, -, hlt, htable⟩ |
    ⟨-, hslot, htable⟩
  · rw [htable, generation_set _ _ _ _ hlt]
    split
    · rename_i heq
      rw [heq]
    · rfl
  · rw [htable]
    simp only [generation, List.getElem?_append, List.getElem?_singleton]
    by_cases hlt : slot < t.slots.length
    · simp [hlt]
    · by_cases heq : slot = t.slots.length
      · simp [heq]
      · have hsub : slot - t.slots.length ≠ 0 := by omega
        simp [hlt, hsub]

/-- The new handle reaches the new timer, and every other handle what it reached before. -/
theorem find?_schedule (ht : t.Tidy) (id : TimerId) :
    (t.schedule callback interval once now).2.find? id =
      if id = (t.schedule callback interval once now).1
      then some ⟨callback, interval, once, now + interval⟩ else t.find? id := by
  have hgeneration := schedule_generation t callback interval once now
  rw [find?_eq, find?_eq, timer?_schedule t callback interval once now ht,
    generation_schedule t callback interval once now ht]
  by_cases heq : id = (t.schedule callback interval once now).1
  · simp [heq, hgeneration]
  · by_cases hslot : id.slot = (t.schedule callback interval once now).1.slot
    · have hother : t.generation (t.schedule callback interval once now).1.slot ≠
          id.generation := by
        intro hsame
        exact heq (eq_of_slot hslot (by rw [hgeneration, hsame]))
      simp [heq, hslot, hother]
    · simp [heq, hslot]

/-- The new handle was not live before. -/
theorem find?_schedule_handle (ht : t.Tidy) :
    t.find? (t.schedule callback interval once now).1 = none := by
  rw [find?_eq, timer?_schedule_slot t callback interval once now ht]
  simp

/-- Every handle that was live stays so. -/
theorem contains_schedule (ht : t.Tidy) {id : TimerId} (hlive : t.contains id = true) :
    (t.schedule callback interval once now).2.contains id = true := by
  rw [contains, find?_schedule t callback interval once now ht]
  split
  · rfl
  · exact hlive

theorem Tidy.schedule (ht : t.Tidy) : (t.schedule callback interval once now).2.Tidy := by
  have hvacant := timer?_schedule_slot t callback interval once now ht
  have htimer := timer?_schedule t callback interval once now ht
  rcases schedule_cases t callback interval once now ht with ⟨free, hfree, hlt, htable⟩ |
    ⟨hfree, hslot, htable⟩
  · have hnodup := ht.nodup
    rw [hfree] at hnodup
    obtain ⟨hnotin, hnodup⟩ := List.nodup_cons.mp hnodup
    constructor
    · rw [htable]
      exact hnodup
    · intro slot
      rw [htimer, htable]
      have hbefore := ht.free slot
      rw [hfree] at hbefore
      by_cases heq : slot = (t.schedule callback interval once now).1.slot
      · simp only [heq, if_true]
        simp [hnotin]
      · simpa [heq] using hbefore
    · rw [htable]
      have hentry := List.getElem?_eq_getElem hlt
      have hempty : (t.slots[(t.schedule callback interval once now).1.slot]).timer = none := by
        simpa [timer?, hentry] using hvacant
      simp only [countP_taken_set hentry, hempty, ht.active]
      simp
  · constructor
    · rw [htable]
      exact List.nodup_nil
    · intro slot
      rw [htimer, htable, hslot]
      have hbefore := ht.free slot
      rw [hfree] at hbefore
      by_cases heq : slot = t.slots.length
      · simp [heq]
      · have hiff : slot < t.slots.length + 1 ↔ slot < t.slots.length := by omega
        simpa [heq, hiff] using hbefore
    · rw [htable]
      simp [List.countP_append, ht.active]

end Starting

/-! ### Stopping and firing -/

theorem find?_release (t : Timers α) (slot : Nat) (id : TimerId) :
    (t.release slot).find? id = if id.slot = slot then none else t.find? id := by
  rw [find?_eq, timer?_release, generation_release]
  by_cases heq : id.slot = slot
  · simp [heq]
  · simp [heq, find?_eq]

/-- Giving up the slot of a live handle takes this one timer away. -/
theorem find?_release_of_contains {t : Timers α} {id : TimerId} (h : t.contains id = true)
    (other : TimerId) :
    (t.release id.slot).find? other = if other = id then none else t.find? other := by
  rw [find?_release]
  by_cases heq : other = id
  · simp [heq]
  · by_cases hslot : other.slot = id.slot
    · have hgeneration : t.generation id.slot ≠ other.generation := by
        intro hsame
        exact heq (eq_of_slot hslot (by rw [← hsame, (of_contains h).1]))
      simp [heq, find?_eq, hslot, hgeneration]
    · simp [heq, hslot]

/-- Cancelling takes away the timer of the handle, if there is one, and no other. -/
theorem find?_cancel (t : Timers α) (id other : TimerId) :
    (t.cancel id).2.find? other = if other = id then none else t.find? other := by
  unfold cancel
  cases h : t.contains id with
  | true => simpa using find?_release_of_contains h other
  | false =>
      by_cases heq : other = id
      · simp [heq, contains_eq_false.mp h]
      · simp [heq]

theorem cancel_flag (t : Timers α) (id : TimerId) : (t.cancel id).1 = t.contains id := by
  unfold cancel
  split
  · rename_i h
    exact h.symm
  · rename_i h
    simpa using h

theorem find?_cancelAll (t : Timers α) (id : TimerId) : t.cancelAll.2.find? id = none := by
  simp [find?_eq, timer?_cancelAll]

/-- Firing a handle that is not live answers nothing and changes nothing. -/
theorem fire_stale {t : Timers α} {id : TimerId} (h : t.contains id = false) (now : Nat) :
    t.fire id now = (none, t) := by
  simp [fire, contains_eq_false.mp h]

theorem fire_once {t : Timers α} {id : TimerId} {timer : Timer α}
    (h : t.find? id = some timer) (honce : timer.once = true) (now : Nat) :
    t.fire id now = (some timer.callback, t.release id.slot) := by
  simp [fire, h, honce]

/-- The table after a timer that repeats was fired. -/
def rearmed (t : Timers α) (id : TimerId) (timer : Timer α) (now : Nat) : Timers α :=
  { t with
    slots := t.slots.set id.slot
      ⟨id.generation, some { timer with deadline := now + timer.interval }⟩ }

theorem fire_again {t : Timers α} {id : TimerId} {timer : Timer α}
    (h : t.find? id = some timer) (hagain : timer.once = false) (now : Nat) :
    t.fire id now = (some timer.callback, t.rearmed id timer now) := by
  simp [fire, h, hagain, rearmed]

section Rearming

variable {t : Timers α} {id : TimerId} {timer : Timer α}

theorem of_find? (h : t.find? id = some timer) :
    t.slots[id.slot]? = some ⟨id.generation, some timer⟩ ∧
      t.generation id.slot = id.generation ∧ t.timer? id.slot = some timer := by
  rw [find?_eq] at h
  split at h
  · rename_i hgeneration
    refine ⟨?_, hgeneration, h⟩
    simp only [timer?, generation] at h hgeneration
    cases hslot : t.slots[id.slot]? with
    | none => simp [hslot] at h
    | some entry =>
        cases entry
        simp_all
  · simp at h

theorem timer?_rearmed (h : t.find? id = some timer) (now slot : Nat) :
    (t.rearmed id timer now).timer? slot =
      if slot = id.slot then some { timer with deadline := now + timer.interval }
      else t.timer? slot := by
  rw [rearmed, timer?_set _ _ _ _ (lt_of_timer? (of_find? h).2.2)]
  rfl

theorem generation_rearmed (h : t.find? id = some timer) (now slot : Nat) :
    (t.rearmed id timer now).generation slot = t.generation slot := by
  rw [rearmed, generation_set _ _ _ _ (lt_of_timer? (of_find? h).2.2)]
  by_cases heq : slot = id.slot
  · simp [heq, (of_find? h).2.1]
  · simp [heq, generation]

/-- A timer that repeats keeps its handle; nothing about the other timers changes. -/
theorem find?_rearmed (h : t.find? id = some timer) (now : Nat) (other : TimerId) :
    (t.rearmed id timer now).find? other =
      if other = id then some { timer with deadline := now + timer.interval }
      else t.find? other := by
  rw [find?_eq, timer?_rearmed h, generation_rearmed h, find?_eq]
  have hgeneration := (of_find? h).2.1
  by_cases heq : other = id
  · simp [heq, hgeneration]
  · by_cases hslot : other.slot = id.slot
    · have hother : id.generation ≠ other.generation := by
        intro hsame
        exact heq (eq_of_slot hslot hsame.symm)
      simp [heq, hslot, hgeneration, hother]
    · simp [heq, hslot]

theorem Tidy.rearmed (ht : t.Tidy) (h : t.find? id = some timer) (now : Nat) :
    (t.rearmed id timer now).Tidy := by
  have hslot := (of_find? h).1
  constructor
  · exact ht.nodup
  · intro slot
    rw [timer?_rearmed h]
    have hbefore := ht.free slot
    by_cases heq : slot = id.slot
    · simpa [Timers.rearmed, heq, (of_find? h).2.2] using hbefore
    · simpa [Timers.rearmed, heq] using hbefore
  · simp only [Timers.rearmed, countP_taken_set hslot, ht.active]
    have hpos : 0 < t.slots.countP fun entry => entry.timer.isSome :=
      List.countP_pos_iff.mpr ⟨_, List.mem_of_getElem? hslot, rfl⟩
    simp only [Option.isSome_some, if_true]
    omega

end Rearming

/-! ### Listing timers -/

theorem mem_live {t : Timers α} {id : TimerId} {timer : Timer α} :
    (id, timer) ∈ t.live ↔ t.find? id = some timer := by
  constructor
  · intro hmem
    obtain ⟨⟨slot, index⟩, hslot, hsome⟩ := List.mem_filterMap.mp hmem
    rw [List.mem_zipIdx_iff_getElem?] at hslot
    obtain ⟨timer', htimer, heq⟩ := Option.map_eq_some_iff.mp hsome
    cases heq
    simpa [find?, hslot] using htimer
  · intro hfound
    refine List.mem_filterMap.mpr ⟨(⟨id.generation, some timer⟩, id.slot), ?_, rfl⟩
    exact List.mem_zipIdx_iff_getElem?.mpr (of_find? hfound).1

/-- The live timers are listed by slot. -/
theorem live_pairwise (t : Timers α) : t.live.Pairwise fun a b => a.1.slot < b.1.slot := by
  have hindices : t.slots.zipIdx.Pairwise fun a b => a.2 < b.2 := by
    apply List.pairwise_map.mp
    rw [List.zipIdx_map_snd]
    exact List.pairwise_lt_range' 1
  apply hindices.filterMap
  intro a b hab x hx y hy
  obtain ⟨_, -, rfl⟩ := Option.map_eq_some_iff.mp hx
  obtain ⟨_, -, rfl⟩ := Option.map_eq_some_iff.mp hy
  exact hab

theorem live_nodup (t : Timers α) : (t.live.map Prod.fst).Nodup := by
  rw [List.nodup_iff_pairwise_ne, List.pairwise_map]
  apply t.live_pairwise.imp
  intro a b hlt heq
  rw [heq] at hlt
  exact Nat.lt_irrefl _ hlt

theorem live_length (t : Timers α) :
    t.live.length = t.slots.countP fun slot => slot.timer.isSome := by
  have hslots := List.countP_map (p := fun slot : TimerSlot α => slot.timer.isSome)
    (f := Prod.fst) (l := t.slots.zipIdx)
  rw [List.zipIdx_map_fst] at hslots
  rw [live, List.length_filterMap_eq_countP, hslots]
  apply List.countP_congr
  intro entry _
  simp

/-- The timers whose deadline has come, by slot. -/
def ready (t : Timers α) (now : Nat) : List (TimerId × Timer α) :=
  t.live.filter fun (_, timer) => timer.deadline ≤ now

/-- The same timers, earliest first. -/
def queue (t : Timers α) (now : Nat) : List (TimerId × Timer α) :=
  (t.ready now).mergeSort fun a b => a.2.deadline ≤ b.2.deadline

theorem due_eq (t : Timers α) (now : Nat) : t.due now = (t.queue now).map Prod.fst := rfl

theorem mem_queue {t : Timers α} {now : Nat} {id : TimerId} {timer : Timer α} :
    (id, timer) ∈ t.queue now ↔ t.find? id = some timer ∧ timer.deadline ≤ now := by
  rw [queue, (List.mergeSort_perm _ _).mem_iff, ready, List.mem_filter, mem_live]
  simp

theorem mem_due {t : Timers α} {now : Nat} {id : TimerId} :
    id ∈ t.due now ↔ ∃ timer, t.find? id = some timer ∧ timer.deadline ≤ now := by
  rw [due_eq, List.mem_map]
  constructor
  · rintro ⟨⟨other, timer⟩, hmem, rfl⟩
    exact ⟨timer, mem_queue.mp hmem⟩
  · rintro ⟨timer, htimer⟩
    exact ⟨(id, timer), mem_queue.mpr htimer, rfl⟩

theorem due_nodup (t : Timers α) (now : Nat) : (t.due now).Nodup := by
  have hready : ((t.ready now).map Prod.fst).Nodup :=
    t.live_nodup.sublist (List.filter_sublist.map Prod.fst)
  exact ((List.mergeSort_perm _ _).map Prod.fst).nodup_iff.mpr hready

/-- The earlier deadline comes first, and among equal ones the smaller slot. -/
def Precedes (a b : TimerId × Timer α) : Prop :=
  a.2.deadline < b.2.deadline ∨ a.2.deadline = b.2.deadline ∧ a.1.slot < b.1.slot

/-- The timers with one deadline stand in the queue by slot, as in the table. -/
theorem queue_filter (t : Timers α) (now deadline : Nat) :
    ((t.queue now).filter fun entry => entry.2.deadline = deadline) =
      (t.ready now).filter fun entry => entry.2.deadline = deadline := by
  have hsorted : ((t.ready now).filter fun entry => entry.2.deadline = deadline).Pairwise
      fun a b => decide (a.2.deadline ≤ b.2.deadline) = true := by
    apply List.pairwise_of_forall_mem_list
    intro a ha b hb
    have hda := (List.mem_filter.mp ha).2
    have hdb := (List.mem_filter.mp hb).2
    simp only [decide_eq_true_eq] at hda hdb ⊢
    omega
  have hsub : ((t.ready now).filter fun entry => entry.2.deadline = deadline).Sublist
      (t.queue now) := by
    apply List.sublist_mergeSort ?_ ?_ hsorted List.filter_sublist
    · intro a b c hab hbc
      simp only [decide_eq_true_eq] at hab hbc ⊢
      omega
    · intro a b
      simp only [Bool.or_eq_true, decide_eq_true_eq]
      omega
  have hfilter := hsub.filter fun entry => decide (entry.2.deadline = deadline)
  rw [List.filter_filter] at hfilter
  simp only [Bool.and_self] at hfilter
  apply (hfilter.eq_of_length _).symm
  exact ((List.mergeSort_perm _ _).filter _).length_eq.symm

theorem queue_pairwise (t : Timers α) (now : Nat) : (t.queue now).Pairwise Precedes := by
  have hsorted : (t.queue now).Pairwise fun a b => decide (a.2.deadline ≤ b.2.deadline) = true := by
    apply List.pairwise_mergeSort
    · intro a b c hab hbc
      simp only [decide_eq_true_eq] at hab hbc ⊢
      omega
    · intro a b
      simp only [Bool.or_eq_true, decide_eq_true_eq]
      omega
  rw [List.pairwise_iff_forall_sublist] at hsorted ⊢
  intro a b hsub
  have hle : a.2.deadline ≤ b.2.deadline := of_decide_eq_true (hsorted hsub)
  rcases Nat.lt_or_eq_of_le hle with hlt | heq
  · exact .inl hlt
  · right
    refine ⟨heq, ?_⟩
    have hfilter := hsub.filter fun entry => decide (entry.2.deadline = b.2.deadline)
    rw [queue_filter] at hfilter
    simp only [List.filter_cons, heq, decide_true, if_true, List.filter_nil] at hfilter
    have hready : (t.ready now).Pairwise fun a b => a.1.slot < b.1.slot :=
      t.live_pairwise.sublist List.filter_sublist
    exact List.pairwise_iff_forall_sublist.mp (hready.sublist List.filter_sublist) hfilter

end TickHost.Timers
