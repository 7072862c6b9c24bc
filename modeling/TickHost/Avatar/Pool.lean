import TickHost.Avatar.Streamer

/-!
The avatars that exist, each under a key that is never given out again. Streamers keep a key and
ask here whether its avatar still exists. Making an avatar under a name that is taken ends the old
one.
-/

namespace TickHost

structure AvatarPool where
  next : Nat
  living : List (Nat × Avatar)
deriving Inhabited

namespace AvatarPool

def empty : AvatarPool := ⟨0, []⟩

/-- The avatar of a key, while it lives. -/
def find? (p : AvatarPool) (key : Nat) : Option Avatar :=
  p.living.lookup key

/-- The key of the living avatar of a name. -/
def named? (p : AvatarPool) (name : String) : Option Nat :=
  (p.living.find? fun (_, a) => a.name = name).map Prod.fst

def drop (p : AvatarPool) (name : String) : Bool × AvatarPool :=
  ((p.named? name).isSome, { p with living := p.living.filter fun (_, a) => a.name ≠ name })

def make (p : AvatarPool) (a : Avatar) : Nat × AvatarPool :=
  (p.next, ⟨p.next + 1, (p.drop a.name).2.living ++ [(p.next, a)]⟩)

/-- The avatar that a streamer was given, while it lives. -/
def attached? (p : AvatarPool) (s : Streamer) : Option Avatar :=
  s.avatar.bind p.find?

end AvatarPool

end TickHost
