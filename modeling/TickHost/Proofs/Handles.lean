import TickHost.Proofs.Arena

/-!
Tables of timers through their whole history: everything that can be asked of a table, and what
handles are good for in a table that served any number of such requests.
-/

namespace TickHost.Timers

variable {α : Type}

/-- What a table can be asked. -/
inductive Request (α : Type) where
  | schedule (callback : α) (interval : Nat) (once : Bool) (now : Nat)
  | cancel (id : TimerId)
  | cancelAll
  | contains (id : TimerId)
  | due (now : Nat)
  | fire (id : TimerId) (now : Nat)
  | active

/-- What it answers. -/
inductive Reply (α : Type) where
  | handle (id : TimerId)
  | flag (live : Bool)
  | count (timers : Nat)
  | handles (ids : List TimerId)
  | callback (callback : Option α)
deriving DecidableEq

/-- Answer one request. -/
def serve (t : Timers α) : Request α → Reply α × Timers α
  | .schedule callback interval once now =>
      let (id, t) := t.schedule callback interval once now
      (.handle id, t)
  | .cancel id =>
      let (live, t) := t.cancel id
      (.flag live, t)
  | .cancelAll =>
      let (timers, t) := t.cancelAll
      (.count timers, t)
  | .contains id => (.flag (t.contains id), t)
  | .due now => (.handles (t.due now), t)
  | .fire id now =>
      let (callback, t) := t.fire id now
      (.callback callback, t)
  | .active => (.count t.active, t)

/-- A slot lost its timer on the way from one table to the other. -/
def frees (t u : Timers α) (slot : Nat) : Bool :=
  (t.timer? slot).isSome && (u.timer? slot).isNone

theorem frees_self (t : Timers α) (slot : Nat) : t.frees t slot = false := by
  cases h : t.timer? slot with
  | none => simp [frees, h]
  | some timer => simp [frees, h]

theorem frees_release (t : Timers α) (slot other : Nat) :
    t.frees (t.release slot) other = decide (other = slot ∧ (t.timer? slot).isSome) := by
  by_cases heq : other = slot
  · simp [frees, timer?_release, heq]
  · simp [frees, timer?_release, heq]

/-- The generation of a slot grows by one when the slot loses its timer, and only then. -/
def Counts (t u : Timers α) : Prop :=
  ∀ slot, u.generation slot = t.generation slot + if t.frees u slot then 1 else 0

theorem Counts.refl (t : Timers α) : t.Counts t := by
  intro slot
  simp [frees_self]

theorem release_counts (t : Timers α) (slot : Nat) : t.Counts (t.release slot) := by
  intro other
  rw [generation_release, frees_release]
  simp

theorem schedule_counts {t : Timers α} (ht : t.Tidy) (callback : α) (interval : Nat) (once : Bool)
    (now : Nat) : t.Counts (t.schedule callback interval once now).2 := by
  intro slot
  have hfrees : t.frees (t.schedule callback interval once now).2 slot = false := by
    rw [frees, timer?_schedule t callback interval once now ht]
    split
    · simp
    · exact frees_self t slot
  rw [generation_schedule t callback interval once now ht, hfrees]
  simp

theorem cancelAll_counts (t : Timers α) : t.Counts t.cancelAll.2 := by
  intro slot
  rw [generation_cancelAll, frees, timer?_cancelAll]
  simp

theorem rearmed_counts {t : Timers α} {id : TimerId} {timer : Timer α}
    (h : t.find? id = some timer) (now : Nat) : t.Counts (t.rearmed id timer now) := by
  intro slot
  have hfrees : t.frees (t.rearmed id timer now) slot = false := by
    rw [frees, timer?_rearmed h]
    split
    · simp
    · exact frees_self t slot
  rw [generation_rearmed h, hfrees]
  simp

/-- What firing does to a table: nothing, or it gives the slot up, or it arms the timer again. -/
theorem fire_cases (t : Timers α) (id : TimerId) (now : Nat) :
    (t.find? id = none ∧ t.fire id now = (none, t)) ∨
    (∃ timer, t.find? id = some timer ∧ timer.once = true ∧
      t.fire id now = (some timer.callback, t.release id.slot)) ∨
    (∃ timer, t.find? id = some timer ∧ timer.once = false ∧
      t.fire id now = (some timer.callback, t.rearmed id timer now)) := by
  cases h : t.find? id with
  | none => exact .inl ⟨rfl, fire_stale (contains_eq_false.mpr h) now⟩
  | some timer =>
      right
      cases honce : timer.once with
      | true => exact .inl ⟨timer, rfl, honce, fire_once h honce now⟩
      | false => exact .inr ⟨timer, rfl, honce, fire_again h honce now⟩

theorem fire_counts (t : Timers α) (id : TimerId) (now : Nat) : t.Counts (t.fire id now).2 := by
  rcases fire_cases t id now with ⟨-, hfire⟩ | ⟨timer, -, -, hfire⟩ | ⟨timer, hfound, -, hfire⟩
  · rw [hfire]
    exact .refl t
  · rw [hfire]
    exact release_counts t id.slot
  · rw [hfire]
    exact rearmed_counts hfound now

theorem Tidy.fire {t : Timers α} (ht : t.Tidy) (id : TimerId) (now : Nat) :
    (t.fire id now).2.Tidy := by
  rcases fire_cases t id now with ⟨-, hfire⟩ | ⟨timer, -, -, hfire⟩ | ⟨timer, hfound, -, hfire⟩
  · rw [hfire]
    exact ht
  · rw [hfire]
    exact ht.release id.slot
  · rw [hfire]
    exact ht.rearmed hfound now

theorem Tidy.serve {t : Timers α} (ht : t.Tidy) (request : Request α) :
    (t.serve request).2.Tidy := by
  cases request with
  | schedule callback interval once now => exact ht.schedule t callback interval once now
  | cancel id => exact ht.cancel id
  | cancelAll => exact ht.cancelAll
  | contains id => exact ht
  | due now => exact ht
  | fire id now => exact ht.fire id now
  | active => exact ht

theorem serve_counts {t : Timers α} (ht : t.Tidy) (request : Request α) :
    t.Counts (t.serve request).2 := by
  cases request with
  | schedule callback interval once now => exact schedule_counts ht callback interval once now
  | cancel id =>
      simp only [serve, cancel]
      split
      · exact release_counts t id.slot
      · exact .refl t
  | cancelAll => exact cancelAll_counts t
  | contains id => exact .refl t
  | due now => exact .refl t
  | fire id now => exact fire_counts t id now
  | active => exact .refl t

/-! ### Histories -/

/-- The states of a table that starts empty and serves at most one request from each moment to
the next. -/
structure History (τ : Nat → Timers α) : Prop where
  starts : τ 0 = .empty
  next : ∀ n, τ (n + 1) = τ n ∨ ∃ request, τ (n + 1) = ((τ n).serve request).2

/-- How often a slot was given up before a moment. -/
def releases (τ : Nat → Timers α) (slot n : Nat) : Nat :=
  (List.range n).countP fun k => (τ k).frees (τ (k + 1)) slot

theorem releases_succ (τ : Nat → Timers α) (slot n : Nat) :
    releases τ slot (n + 1) =
      releases τ slot n + if (τ n).frees (τ (n + 1)) slot then 1 else 0 := by
  simp [releases, List.range_succ, List.countP_append, List.countP_singleton]

theorem releases_le (τ : Nat → Timers α) (slot n : Nat) : releases τ slot n ≤ n := by
  have h := List.countP_le_length (p := fun k => (τ k).frees (τ (k + 1)) slot) (l := List.range n)
  simpa [releases] using h

theorem releases_mono (τ : Nat → Timers α) (slot : Nat) {n m : Nat} (h : n ≤ m) :
    releases τ slot n ≤ releases τ slot m := by
  induction h with
  | refl => exact Nat.le_refl _
  | step _ ih =>
      rw [releases_succ]
      omega

/-- A slot that was not given up keeps its timer. -/
theorem taken_later (τ : Nat → Timers α) (slot : Nat) {n m : Nat} (h : n ≤ m)
    (hsame : releases τ slot m = releases τ slot n) (htaken : ((τ n).timer? slot).isSome = true) :
    ((τ m).timer? slot).isSome = true := by
  induction h with
  | refl => exact htaken
  | @step m hnm ih =>
      have hmono := releases_mono τ slot hnm
      rw [releases_succ] at hsame
      cases hfrees : (τ m).frees (τ (m + 1)) slot with
      | true =>
          rw [hfrees, if_pos rfl] at hsame
          omega
      | false =>
          have hbefore : ((τ m).timer? slot).isSome = true := by
            apply ih
            rw [hfrees] at hsame
            simpa using hsame
          simpa [frees, hbefore] using hfrees

namespace History

variable {τ : Nat → Timers α}

theorem tidy (h : History τ) (n : Nat) : (τ n).Tidy := by
  induction n with
  | zero =>
      rw [h.starts]
      exact empty_tidy
  | succ n ih =>
      rcases h.next n with hsame | ⟨request, hserved⟩
      · rw [hsame]
        exact ih
      · rw [hserved]
        exact ih.serve request

theorem counts (h : History τ) (n : Nat) : (τ n).Counts (τ (n + 1)) := by
  rcases h.next n with hsame | ⟨request, hserved⟩
  · rw [hsame]
    exact .refl _
  · rw [hserved]
    exact serve_counts (h.tidy n) request

/-- A generation says how often its slot was given up. -/
theorem generation (h : History τ) (slot n : Nat) :
    (τ n).generation slot = UInt32.ofNat (releases τ slot n) := by
  induction n with
  | zero => simp [h.starts, releases, Timers.generation, empty]
  | succ n ih =>
      rw [h.counts n slot, ih, releases_succ, UInt32.ofNat_add]
      split <;> rfl

theorem releases_of_contains (h : History τ) {id : TimerId} {n : Nat}
    (hlive : (τ n).contains id = true) : UInt32.ofNat (releases τ id.slot n) = id.generation := by
  rw [← h.generation]
  exact (of_contains hlive).1

/-- Once a handle has lost its timer it does not reach one again, unless its slot was given up so
often since it was live that the generations came round. -/
theorem gone_since (h : History τ) {id : TimerId} {first lost later : Nat}
    (hlive : (τ first).contains id = true) (hfl : first ≤ lost)
    (hlost : (τ lost).contains id = false) (hll : lost ≤ later)
    (hbound : releases τ id.slot later < releases τ id.slot first + UInt32.size) :
    (τ later).contains id = false := by
  cases hagain : (τ later).contains id with
  | false => rfl
  | true =>
      exfalso
      have hmono := releases_mono τ id.slot hfl
      have hmono' := releases_mono τ id.slot hll
      have hsame : releases τ id.slot later = releases τ id.slot first := by
        have hgenerations :=
          (h.releases_of_contains hagain).trans (h.releases_of_contains hlive).symm
        have hnats := congrArg UInt32.toNat hgenerations
        rw [UInt32.toNat_ofNat', UInt32.toNat_ofNat'] at hnats
        simp only [UInt32.size] at hbound
        omega
      have htaken := taken_later τ id.slot hfl (by omega) (of_contains hlive).2
      have hgeneration : (τ lost).generation id.slot = id.generation := by
        rw [h.generation, ← h.releases_of_contains hlive]
        congr 1
        omega
      rw [contains, find?_eq, if_pos hgeneration] at hlost
      simp [htaken] at hlost

/-- The same, counted from the beginning. -/
theorem gone (h : History τ) {id : TimerId} {first lost later : Nat}
    (hlive : (τ first).contains id = true) (hfl : first ≤ lost)
    (hlost : (τ lost).contains id = false) (hll : lost ≤ later)
    (hbound : releases τ id.slot later < UInt32.size) : (τ later).contains id = false :=
  h.gone_since hlive hfl hlost hll (Nat.lt_add_left _ hbound)

/-- A handle that is live at two moments was live all the time between them. -/
theorem live_since (h : History τ) {id : TimerId} {first later n : Nat}
    (hlive : (τ first).contains id = true) (hfn : first ≤ n) (hnl : n ≤ later)
    (hlater : (τ later).contains id = true)
    (hbound : releases τ id.slot later < releases τ id.slot first + UInt32.size) :
    (τ n).contains id = true := by
  cases hn : (τ n).contains id with
  | true => rfl
  | false =>
      have hgone := h.gone_since hlive hfn hn hnl hbound
      simp [hlater] at hgone

/-- The same, counted from the beginning. -/
theorem live_between (h : History τ) {id : TimerId} {first later n : Nat}
    (hlive : (τ first).contains id = true) (hfn : first ≤ n) (hnl : n ≤ later)
    (hlater : (τ later).contains id = true) (hbound : releases τ id.slot later < UInt32.size) :
    (τ n).contains id = true :=
  h.live_since hlive hfn hnl hlater (Nat.lt_add_left _ hbound)

end History

end TickHost.Timers
