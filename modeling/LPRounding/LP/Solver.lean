import LPRounding.LP.Guess
import LPRounding.LP.Simplex

/-!
The solver of floating point systems. Numbers beyond a certain size are infinite, and coefficients
below another are zero. A floating point run proposes an answer; where that does not pass its check
against the exact system, the exact method decides.
-/

namespace LPRounding.Solver

def infinity : Float := 1e20

def isInfinite (x : Float) : Bool := infinity ≤ Float.abs x

def largestCoef : Float := 1e15

def smallestCoef : Float := 1e-9

def unreadable (s : System Float) : Option SystemPart :=
  let coefs (cs : List (Constraint Float)) := cs.all fun c => c.coefs.all fun (_, a) => a.isFinite
  let sides (cs : List (Constraint Float)) := cs.all fun c => c.side.isFinite
  if !s.cost.all Float.isFinite then some .cost
  else if !coefs s.atMost then some .atMostCoefs
  else if !sides s.atMost then some .atMostSides
  else if !coefs s.equal then some .equalCoefs
  else if !sides s.equal then some .equalSides
  else none

/-- Whether a bound or side can only be met at infinity, or a coefficient is infinite: such a
system has no point. -/
def isOutOfReach (s : System Float) : Bool :=
  let wild (c : Constraint Float) := c.coefs.any fun (_, a) => largestCoef ≤ Float.abs a
  s.bounds.any (fun (l, u) => l.any (infinity ≤ ·) || u.any (· ≤ -infinity)) ||
    s.atMost.any (fun c => c.side ≤ -infinity || wild c) ||
    s.equal.any (fun c => isInfinite c.side || wild c)

/-- A bound that is infinite or no number at all is no bound. -/
def finiteBound (x : Float) : Option Float := if Float.abs x < infinity then some x else none

/-- The cost of a column and its bounds. An infinite cost counts as zero and holds the column at
its cheaper end, which it must have. -/
def tamedColumn (c : Float) (l u : Option Float) : Option (Float × Option Float × Option Float) :=
  if c ≤ -infinity then u.map fun v => (0, some v, some v)
  else if infinity ≤ c then l.map fun v => (0, some v, some v)
  else some (c, l, u)

def withoutSmallCoefs (c : Constraint Float) : Constraint Float :=
  { c with coefs := c.coefs.filter fun (_, a) => smallestCoef < Float.abs a }

def tame (s : System Float) : Option (System Float) :=
  let bounds := s.bounds.map fun (l, u) => (l.bind finiteBound, u.bind finiteBound)
  match (s.cost.zip bounds).mapM fun (c, l, u) => tamedColumn c l u with
  | none => none
  | some columns => some
    { cost := columns.map Prod.fst
      bounds := columns.map Prod.snd
      atMost := (s.atMost.filter fun c => c.side < infinity).map withoutSmallCoefs
      equal := s.equal.map withoutSmallCoefs }

def exactConstraint (c : Constraint Float) : Constraint Rat :=
  { coefs := c.coefs.map fun (j, a) => (j, exact a), side := exact c.side }

def exactSystem (s : System Float) : System Rat :=
  { cost := s.cost.map exact
    bounds := s.bounds.map fun (l, u) => (l.map exact, u.map exact)
    atMost := s.atMost.map exactConstraint
    equal := s.equal.map exactConstraint }

/-- The objective with the terms of infinite costs last. -/
def objective (costs values : List Float) : Float :=
  let (wild, plain) := (costs.zip values).partition fun (c, x) => isInfinite c && x != 0
  Scalar.sum ((plain.map fun (c, x) => c * x) ++ wild.map fun (c, x) => c * x)

def smallestCost : Float := 1e-7

def isSmallCost (c : Rat) : Bool := c < exact smallestCost && -exact smallestCost < c

/-- Without its smallest costs a program may have an optimum that it has not with them. They also
do not count where there are no lines. -/
def withoutSmallCosts (p : Program) : Program :=
  { p with columns :=
      p.columns.map fun c => if isSmallCost c.cost then { c with cost := 0 } else c }

def solveExact (p : Program) : Verdict Rat :=
  if p.lines.all fun c => c.coefs.isEmpty then Simplex.solve (withoutSmallCosts p)
  else
    match Simplex.solve p with
    | .unbounded => Simplex.solve (withoutSmallCosts p)
    | verdict => verdict

def isNear (ends : Array (Option Float × Option Float)) (c : Constraint Float) : Bool :=
  let (most, size) := c.coefs.foldl
    (fun (t, size) (j, a) =>
      let e := ends.getD j (none, none)
      let y := (if 0 < a then e.2 else e.1).elim (1 / 0) (a * ·)
      (t + y, size + Float.abs y)) (0, Float.abs c.side)
  Float.abs (most - c.side) < 1e-6 * (1 + size)

def isIdle (s : System Float) : Bool :=
  let ends := s.bounds.toArray
  let ranges := ends.map fun (l, u) => (l.map exact, u.map exact)
  let test (isEquation : Bool) (c : Constraint Float) : Bool :=
    isNear ends c &&
      let c := exactConstraint c
      Program.isNegligible ranges { coefs := c.coefs, side := c.side, isEquation, unit := 1 }
  s.atMost.any (test false) || s.equal.any (test true)

/-- The checked guess, unless a row hardly matters or a cost may not count. -/
def guess (s : System Float) (scaling : Scaling) : Option (Verdict Rat) :=
  let isEmpty (b : Option Float × Option Float) : Bool :=
    match b with
    | (some l, some u) => u < l
    | _ => false
  if isIdle s || s.bounds.any isEmpty || (s.atMost.isEmpty && s.equal.isEmpty) ||
      s.cost.any fun c => c != 0 && Float.abs c < smallestCost then none
  else
    let d := Dictionary.ofSystem s scaling
    let costs := Dictionary.scaledCosts s scaling d.height
    Guess.verdict? s scaling (d.run costs d.patience)

/-- Solves and rounds the values to the nearest floating point numbers, of which the objective is
the sum. Of a system with infinite costs it says nothing but an optimum. -/
def simplex : Solver Float := fun s =>
  match unreadable s with
  | some part => .refused part
  | none =>
    if isOutOfReach s then .infeasible else
    match tame s with
    | none => .undecided
    | some tamed =>
      let scaling := Scaling.ofSystem tamed
      let verdict := match guess tamed scaling with
        | some verdict => verdict
        | none => solveExact (Program.ofSystem (exactSystem tamed) scaling)
      match verdict with
      | .optimal values _ =>
        let values := values.map Decimal.nearest
        .optimal values (objective s.cost values)
      | .infeasible => if s.cost.any isInfinite then .undecided else .infeasible
      | .unbounded => .unbounded
      | .refused part => .refused part
      | .undecided => .undecided

end LPRounding.Solver
