/-!
Stores: values under numbers that are given out one after the other and never taken back. Reading
under a number that was not given out yet finds the default value.
-/

namespace TickHost

abbrev Store (α : Type) := List (Nat × α)

namespace Store

variable {α : Type}

def get [Inhabited α] (s : Store α) (key : Nat) : α :=
  match s with
  | [] => default
  | (k, value) :: rest => if k = key then value else get rest key

def put (s : Store α) (key : Nat) (value : α) : Store α :=
  match s with
  | [] => [(key, value)]
  | (k, old) :: rest => if k = key then (k, value) :: rest else (k, old) :: put rest key value

/-- The number of the next value. -/
def fresh (s : Store α) : Nat :=
  s.length

def keys (s : Store α) : List Nat :=
  s.map Prod.fst

@[simp]
theorem get_put [Inhabited α] (s : Store α) (key other : Nat) (value : α) :
    get (put s key value) other = if key = other then value else get s other := by
  induction s with
  | nil => simp [put, get]
  | cons entry rest ih =>
      obtain ⟨k, old⟩ := entry
      grind [put, get]

end Store

end TickHost
