/-!
Small tables: values under names, in the order in which the names were first used. Putting a value
under a name that is taken replaces the old value in its place.
-/

namespace TickHost

abbrev Table (α : Type) := List (String × α)

namespace Table

variable {α : Type}

def get? (t : Table α) (name : String) : Option α :=
  match t with
  | [] => none
  | (key, value) :: rest => if key = name then some value else get? rest name

def has (t : Table α) (name : String) : Bool :=
  (t.get? name).isSome

def put (t : Table α) (name : String) (value : α) : Table α :=
  match t with
  | [] => [(name, value)]
  | (key, old) :: rest =>
      if key = name then (key, value) :: rest else (key, old) :: put rest name value

def erase (t : Table α) (name : String) : Table α :=
  t.filter fun (key, _) => key ≠ name

theorem get?_put (t : Table α) (name key : String) (value : α) :
    (t.put name value).get? key = if name = key then some value else t.get? key := by
  induction t with
  | nil => simp [put, get?]
  | cons entry rest ih =>
      obtain ⟨first, old⟩ := entry
      grind [put, get?]

theorem get?_erase (t : Table α) (name key : String) :
    (t.erase name).get? key = if name = key then none else t.get? key := by
  induction t with
  | nil => simp [erase, get?]
  | cons entry rest ih =>
      obtain ⟨first, old⟩ := entry
      unfold erase at ih ⊢
      grind [get?]

end Table

end TickHost
