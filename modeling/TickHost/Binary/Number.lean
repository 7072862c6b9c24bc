import TickHost.Binary.Format

/-!
Single and double precision numbers as their bit patterns. Equality of the structures is equality
of the bits; `Double.sameValue` is the numeric comparison, under which the two zeros agree and a
not-a-number differs from everything.
-/

namespace TickHost.Binary

structure Single where
  bits : UInt32
deriving DecidableEq, Repr, Inhabited

structure Double where
  bits : UInt64
deriving DecidableEq, Repr, Inhabited

namespace Single

def format : Format := Format.single

def ofPattern (negative : Bool) (pattern : Nat) : Single :=
  ⟨UInt32.ofNat (pattern + if negative then format.signWeight else 0)⟩

def pattern (x : Single) : Nat :=
  x.bits.toNat % format.signWeight

def isNegative (x : Single) : Bool :=
  format.signWeight ≤ x.bits.toNat

def isNaN (x : Single) : Bool :=
  format.infinity < x.pattern

def zero : Single := ⟨0⟩

def one : Single := ⟨0x3f800000⟩

/-- The four bytes of the pattern, least significant first. -/
def toBytes (x : Single) : List UInt8 :=
  ([0, 8, 16, 24] : List UInt32).map fun place => (x.bits >>> place).toUInt8

end Single

namespace Double

def format : Format := Format.double

def ofPattern (negative : Bool) (pattern : Nat) : Double :=
  ⟨UInt64.ofNat (pattern + if negative then format.signWeight else 0)⟩

def pattern (x : Double) : Nat :=
  x.bits.toNat % format.signWeight

def isNegative (x : Double) : Bool :=
  format.signWeight ≤ x.bits.toNat

def isNaN (x : Double) : Bool :=
  format.infinity < x.pattern

def isInfinite (x : Double) : Bool :=
  x.pattern = format.infinity

def nan : Double := ofPattern false (format.infinity + Nat.pow 2 (format.fraction - 1))

def infinity (negative : Bool) : Double := ofPattern negative format.infinity

/-- The double nearest to a ratio of whole numbers. -/
def ofRatio (negative : Bool) (num den : Nat) : Double :=
  ofPattern negative (format.nearest num den)

def sameValue (x y : Double) : Bool :=
  !x.isNaN && !y.isNaN && (x.bits == y.bits || (x.pattern == 0 && y.pattern == 0))

/-- Every single is a double. -/
def ofSingle (x : Single) : Double :=
  if x.isNaN then nan
  else ofPattern x.isNegative (Single.format.convert format x.pattern)

end Double

/-- The single nearest to a double, infinity where it is too large. -/
def Single.ofDouble (x : Double) : Single :=
  if x.isNaN then ⟨0x7fc00000⟩
  else ofPattern x.isNegative (Double.format.convert format x.pattern)

/-- A span of time in seconds: whole seconds and the rest are rounded on their own, and so is
their sum. -/
def Single.ofSeconds (microseconds : Nat) : Single :=
  let seconds := format.ofNat (microseconds / 1000000)
  let nanoseconds := format.ofNat (microseconds % 1000000 * 1000)
  ofPattern false (format.add seconds (format.div nanoseconds (format.ofNat 1000000000)))

end TickHost.Binary
