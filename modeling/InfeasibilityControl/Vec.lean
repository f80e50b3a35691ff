import InfeasibilityControl.Fault
import InfeasibilityControl.Scalar

set_option autoImplicit false
set_option relaxedAutoImplicit false

/-!
Vectors as lists of their coordinates.

Sums run from the first coordinate to the last, starting at zero. `plus` and `minus` are for vectors
of one length; `add` and `subtract` check the lengths, and a vector of length one stretches to the
length of the other.
-/

namespace InfeasibilityControl

/-- A vector, given by its coordinates. -/
abbrev Vec (K : Type) := List K

namespace Vec

variable {K : Type} [Scalar K]

/-- The zero vector. -/
def zeros (n : Nat) : Vec K := List.replicate n 0

/-- The opposite vector. -/
def negate (v : Vec K) : Vec K := v.map fun a => -a

/-- A multiple of a vector. -/
def scale (factor : K) (v : Vec K) : Vec K := v.map fun a => factor * a

/-- The coordinatewise sum. -/
def plus (u v : Vec K) : Vec K := List.zipWith (fun a b => a + b) u v

/-- The coordinatewise difference. -/
def minus (u v : Vec K) : Vec K := List.zipWith (fun a b => a - b) u v

/-- The inner product. -/
def dot (u v : Vec K) : K := (List.zipWith (fun a b => a * b) u v).foldl (fun s t => s + t) 0

/-- The Euclidean norm. -/
def norm (v : Vec K) : K := Scalar.sqrt (dot v v)

/-- Some coordinate differs from zero. -/
def isNonzero (v : Vec K) : Bool := v.any fun a => !(a == 0)

/-- The vectors have one length and compare equal coordinate by coordinate. -/
def coincides (u v : Vec K) : Bool :=
  u.length == v.length && (List.zipWith (fun a b => a == b) u v).all id

/-- A coordinatewise operation on vectors of one length, or with one of them stretched. -/
def combine (f : K → K → K) : Vec K → Vec K → Except Fault (Vec K)
  | [a], v => .ok (v.map fun b => f a b)
  | u, [b] => .ok (u.map fun a => f a b)
  | u, v => if u.length = v.length then .ok (List.zipWith f u v) else .error .shapeMismatch

/-- The sum, where the lengths allow it. -/
def add (u v : Vec K) : Except Fault (Vec K) := combine (fun a b => a + b) u v

/-- The difference, where the lengths allow it. -/
def subtract (u v : Vec K) : Except Fault (Vec K) := combine (fun a b => a - b) u v

/-- The inner product of vectors of one length. -/
def inner (u v : Vec K) : Except Fault K :=
  if u.length = v.length then .ok (dot u v) else .error .shapeMismatch

end Vec

end InfeasibilityControl
