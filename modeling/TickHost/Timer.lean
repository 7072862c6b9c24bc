/-!
The timers of one host. A timer sits in a slot; a handle names the slot together with the slot's
generation, which grows each time the slot is given up, so that a handle kept too long never
reaches a later timer in the same slot. Free slots are reused last freed first.

The table calls nothing. Its owner asks which timers are due and fires them one at a time, and
whatever a callback does to the table in between is seen by the next `fire`. Times are in
microseconds.
-/

namespace TickHost

structure TimerId where
  slot : Nat
  generation : UInt32
deriving DecidableEq, Repr, Inhabited

structure Timer (α : Type) where
  callback : α
  interval : Nat
  once : Bool
  deadline : Nat
deriving Repr

structure TimerSlot (α : Type) where
  generation : UInt32
  timer : Option (Timer α)
deriving Repr

structure Timers (α : Type) where
  slots : List (TimerSlot α)
  free : List Nat
  active : Nat
deriving Repr

namespace Timers

variable {α : Type}

def empty : Timers α := ⟨[], [], 0⟩

instance : Inhabited (Timers α) := ⟨empty⟩

/-- The live timer that a handle refers to. -/
def find? (t : Timers α) (id : TimerId) : Option (Timer α) :=
  match t.slots[id.slot]? with
  | some slot => if slot.generation = id.generation then slot.timer else none
  | none => none

def contains (t : Timers α) (id : TimerId) : Bool :=
  (t.find? id).isSome

/-- Start a timer whose first deadline is one interval from now. -/
def schedule (t : Timers α) (callback : α) (interval : Nat) (once : Bool) (now : Nat) :
    TimerId × Timers α :=
  let timer : Timer α := ⟨callback, interval, once, now + interval⟩
  match t.free with
  | index :: free =>
      let generation := ((t.slots[index]?).map TimerSlot.generation).getD 0
      (⟨index, generation⟩,
        ⟨t.slots.set index ⟨generation, some timer⟩, free, t.active + 1⟩)
  | [] => (⟨t.slots.length, 0⟩, ⟨t.slots ++ [⟨0, some timer⟩], [], t.active + 1⟩)

/-- Give up a slot: its generation moves on and it becomes the next one to be reused. -/
def release (t : Timers α) (index : Nat) : Timers α :=
  match t.slots[index]? with
  | some ⟨generation, some _⟩ =>
      ⟨t.slots.set index ⟨generation + 1, none⟩, index :: t.free, t.active - 1⟩
  | _ => t

/-- Stop a timer; the answer is whether the handle was live. -/
def cancel (t : Timers α) (id : TimerId) : Bool × Timers α :=
  if t.contains id then (true, t.release id.slot) else (false, t)

/-- Stop every timer, slot by slot. -/
def cancelAll (t : Timers α) : Nat × Timers α :=
  (t.active, (List.range t.slots.length).foldl release t)

/-- The live timers with their deadlines, in the order of their slots. -/
def live (t : Timers α) : List (TimerId × Timer α) :=
  t.slots.zipIdx.filterMap fun (slot, index) =>
    slot.timer.map fun timer => (⟨index, slot.generation⟩, timer)

/-- The timers whose deadline has come, earliest first and by slot among equals. -/
def due (t : Timers α) (now : Nat) : List TimerId :=
  let ready := t.live.filter fun (_, timer) => timer.deadline ≤ now
  (ready.mergeSort fun a b => a.2.deadline ≤ b.2.deadline).map Prod.fst

/-- Fire a timer and hand out its callback. A timer for one shot is gone before its callback
runs; any other is armed again from now. -/
def fire (t : Timers α) (id : TimerId) (now : Nat) : Option α × Timers α :=
  match t.find? id with
  | none => (none, t)
  | some timer =>
      if timer.once then (some timer.callback, t.release id.slot)
      else
        let armed : Timer α := { timer with deadline := now + timer.interval }
        (some timer.callback,
          { t with slots := t.slots.set id.slot ⟨id.generation, some armed⟩ })

end Timers

end TickHost
