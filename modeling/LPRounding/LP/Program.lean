import LPRounding.LP.Scaling
import LPRounding.Decimal.Binary

/-!
Systems with what is known of how closely they must be met: up to the tolerance, in the units of the
system and, where that is possible, in those of its scaling. Before a system is solved, rows of a
single open column narrow the range of that column, and rows that no point within the ranges comes
close to show that there is no point. Rows that every point within the bounds nearly meets are
spare.
-/

namespace LPRounding

def exact (x : Float) : Rat :=
  if Float.abs x < 1e9 && Float.floor x == x then (x.toInt64.toInt : Rat)
  else (Decimal.Binary.ofFloat x).toRat?.getD 0

structure Line where
  coefs : List (Nat × Rat)
  side : Rat
  isEquation : Bool
  /-- What counts as one in scaled units. -/
  unit : Rat
  /-- Whether the bounds of the columns keep to the line but for less than the tolerance. -/
  isSpare : Bool := false

structure ProgramColumn where
  cost : Rat
  bounds : Option Rat × Option Rat
  unit : Rat

structure Program where
  columns : List ProgramColumn
  lines : List Line

abbrev Range := Option Rat × Option Rat

namespace Range

def isEmpty (r : Range) : Bool :=
  match r with
  | (some l, some u) => u < l
  | _ => false

def only? (r : Range) : Option Rat :=
  match r with
  | (some l, some u) => if l == u then some l else none
  | _ => none

def scale (a : Rat) (r : Range) : Range :=
  if 0 < a then (r.1.map (a * ·), r.2.map (a * ·)) else (r.2.map (a * ·), r.1.map (a * ·))

def add (r s : Range) : Range :=
  (r.1.bind fun x => s.1.map (x + ·), r.2.bind fun x => s.2.map (x + ·))

end Range

def ProgramColumn.isEmpty (c : ProgramColumn) : Bool := Range.isEmpty c.bounds

namespace Program

def tolerance : Rat := mkRat 1 10000000

def hair : Rat := mkRat 1 1000000000

abbrev Ranges := Array Range

def rangeOf (rs : Ranges) (j : Nat) : Range := rs.getD j (none, none)

def span (rs : Ranges) (coefs : List (Nat × Rat)) : Range :=
  coefs.foldl (fun r (j, a) => r.add ((rangeOf rs j).scale a)) (some 0, some 0)

/-- Whether no value of a range comes close to a line. -/
def isMissed (c : Line) (r : Range) : Bool :=
  (r.1.any fun x => c.side + tolerance < x) ||
    (c.isEquation && r.2.any fun x => x < c.side - tolerance)

def isKept (c : Line) (r : Range) : Bool :=
  (r.2.any fun x => x ≤ c.side + tolerance) &&
    (!c.isEquation || r.1.any fun x => c.side - tolerance ≤ x)

/-- Takes over an end that narrows the range by more than the tolerance. -/
def narrowAbove (q : Rat) (r : Range) : Range :=
  if r.2.all fun u => q < u - tolerance then (r.1, some q) else r

def narrowBelow (q : Rat) (r : Range) : Range :=
  if r.1.all fun l => l + tolerance < q then (some q, r.2) else r

def close (largest : Rat) (r : Range) : Range :=
  match r with
  | (some l, some u) =>
    if u - l ≤ hair || (u - l ≤ tolerance && largest * (u - l) ≤ tolerance) then (some l, some l)
    else r
  | _ => r

/-- The range of the single open column of a line, as the line narrows it; none if the ends then
pass each other. -/
def narrow (largest : Rat) (c : Line) (a rest : Rat) (r : Range) : Option Range :=
  let q := (c.side - rest) / a
  let r := if 0 < a || c.isEquation then narrowAbove q r else r
  let r := if a < 0 || c.isEquation then narrowBelow q r else r
  match r with
  | (some l, some u) => if u - l < -tolerance then none else some (close largest r)
  | _ => some r

/-- What a line says about the ranges; none if it cannot be met. -/
def visit (largest : Array Rat) (rs : Ranges) (c : Line) : Option Ranges :=
  let all := span rs c.coefs
  if isMissed c all then none
  else if isKept c all then some rs
  else
    match c.coefs.filter fun (j, _) => (rangeOf rs j).only?.isNone with
    | [(j, a)] =>
      let rest := c.coefs.foldl
        (fun t (k, b) => if k = j then t else t + b * ((rangeOf rs k).only?.getD 0)) 0
      (narrow (largest.getD j 0) c a rest (rangeOf rs j)).map (rs.setIfInBounds j ·)
    | _ => some rs

def visitAll (largest : Array Rat) : List Line → Ranges → Option Ranges
  | [], rs => some rs
  | c :: rest, rs => (visit largest rs c).bind (visitAll largest rest)

def isBlocked (largest : Array Rat) (lines : List Line) : Nat → Ranges → Bool
  | 0, _ => false
  | passes + 1, rs =>
    match visitAll largest lines rs with
    | none => true
    | some next => next != rs && isBlocked largest lines passes next

def largestCoefs (p : Program) : Array Rat :=
  p.lines.foldl
    (fun sizes c => c.coefs.foldl
      (fun sizes (j, a) =>
        let a := if a < 0 then -a else a
        sizes.modify j fun b => if b < a then a else b) sizes)
    (Array.replicate p.columns.length 0)

def ranges (p : Program) : Ranges := (p.columns.map ProgramColumn.bounds).toArray

def isHopeless (p : Program) : Bool :=
  isBlocked p.largestCoefs p.lines (p.columns.length + 1) p.ranges

/-- Whether the ranges keep to the line but for less than the tolerance. -/
def isNegligible (rs : Ranges) (c : Line) : Bool :=
  let r := span rs c.coefs
  isKept c r && ((r.2.any (c.side < ·)) || (c.isEquation && r.1.any (· < c.side)))

def ofSystem (s : System Rat) (scaling : Scaling) : Program :=
  let ranges := s.bounds.toArray
  let line (isEquation : Bool) (i : Nat) (c : Constraint Rat) : Line :=
    let unit := 1 / exact (scaling.rows.getD i 1)
    let line : Line := { coefs := c.coefs, side := c.side, isEquation, unit }
    { line with isSpare := isNegligible ranges line }
  { columns := (s.cost.zip s.bounds).zipIdx.map fun ((cost, bounds), j) =>
      { cost, bounds, unit := exact (scaling.columns.getD j 1) }
    lines := (s.atMost.zipIdx.map fun (c, i) => line false i c) ++
      s.equal.zipIdx.map fun (c, i) => line true (s.atMost.length + i) c }

end Program

end LPRounding
