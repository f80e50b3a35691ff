import InfeasibilityControl.Vec

set_option autoImplicit false
set_option relaxedAutoImplicit false

/-!
Steps inside a trust region for the Gauss–Newton model `½ ‖c + J d‖²`.

The dogleg path runs from zero to the Cauchy step, the minimizer along steepest descent, and from
there to the Gauss–Newton step. The step taken is where the path leaves the region, or its end.
-/

namespace InfeasibilityControl

variable {K : Type} [Scalar K]

/-- The minimizer of the model along its negative gradient `-g`, if the model is curved there. -/
def cauchyStep (g Jg : Vec K) : Option (Vec K) :=
  let curvature := Vec.dot Jg Jg
  if curvature ≤ 0 then none
  else some (Vec.scale (-(Vec.dot g g / curvature)) g)

/-- The steepest descent step of the given length, or zero where there is no descent. -/
def boundaryStep (g : Vec K) (radius : K) : Vec K :=
  let gNorm := Vec.norm g
  if gNorm == 0 then Vec.zeros g.length else Vec.scale (-(radius / gNorm)) g

/-- The point on the segment from the Cauchy step to the Gauss–Newton step whose norm is the
radius: the larger root of a quadratic equation, kept between zero and one. -/
def secondLeg (gaussNewton cauchy : Vec K) (radius : K) : Except Fault (Vec K) := do
  let leg ← Vec.subtract gaussNewton cauchy
  let a := Vec.dot leg leg
  let b := 2.0 * (← Vec.inner cauchy leg)
  match Scalar.square? radius with
  | none => throw .squareTooLarge
  | some radiusSquare =>
      let c := Vec.dot cauchy cauchy - radiusSquare
      let root := (-b + Scalar.sqrt (b * b - 4.0 * a * c)) / (2.0 * a)
      Vec.add cauchy (Vec.scale (Scalar.min (Scalar.max root 0) 1) leg)

/-- The Cauchy step is inside the region. -/
def cauchyInside (cauchy : Option (Vec K)) (radius : K) : Option (Vec K) :=
  cauchy.filter fun step => !decide (radius ≤ Vec.norm step)

/-- The end of the dogleg path inside the trust region. -/
def dogleg (gaussNewton : Vec K) (cauchy : Option (Vec K)) (g : Vec K) (radius : K) :
    Except Fault (Vec K) :=
  if radius ≤ 0 then .error .trustRadiusNotPositive
  else if Vec.norm gaussNewton ≤ radius then .ok gaussNewton
  else
    match cauchyInside cauchy radius with
    | none => .ok (boundaryStep g radius)
    | some inside => secondLeg gaussNewton inside radius

end InfeasibilityControl
