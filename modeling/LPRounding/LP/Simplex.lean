import LPRounding.LP.Program
import LPRounding.LP.Repair

/-!
An exact solver: the simplex method over rational numbers, with spans of the variables kept apart
from the rows. The answer is a basic solution that keeps to the tolerance.
-/

namespace LPRounding.Simplex

/-- How a column is written with variables that start at zero. -/
inductive Place where
  | constant (value : Rat)
  | above (lo : Rat) (index : Nat)
  | below (hi : Rat) (index : Nat)
  | difference (plus minus : Nat)

structure Layout where
  places : Array Place := #[]
  spans : Array (Option Rat) := #[]

def Layout.add (l : Layout) (bounds : Option Rat × Option Rat) : Layout :=
  let n := l.spans.size
  match bounds with
  | (some lo, some hi) =>
    if lo == hi then { l with places := l.places.push (.constant lo) }
    else { places := l.places.push (.above lo n), spans := l.spans.push (some (hi - lo)) }
  | (some lo, none) => { places := l.places.push (.above lo n), spans := l.spans.push none }
  | (none, some hi) => { places := l.places.push (.below hi n), spans := l.spans.push none }
  | (none, none) =>
    { places := l.places.push (.difference n (n + 1)), spans := (l.spans.push none).push none }

def Place.addTo (c : Rat) (row : Array Rat) (total : Rat) : Place → Array Rat × Rat
  | .constant v => (row, total + c * v)
  | .above lo x => (row.modify x (· + c), total + c * lo)
  | .below hi x => (row.modify x (· - c), total + c * hi)
  | .difference p q => ((row.modify p (· + c)).modify q (· - c), total)

def Place.value (xs : Array Rat) : Place → Rat
  | .constant v => v
  | .above lo x => lo + xs.getD x 0
  | .below hi x => hi - xs.getD x 0
  | .difference p q => xs.getD p 0 - xs.getD q 0

def Layout.combine (l : Layout) (width : Nat) (coefs : List (Nat × Rat)) : Array Rat × Rat :=
  coefs.foldl
    (fun (row, total) (j, c) => match l.places[j]? with
      | some place => place.addTo c row total
      | none => (row, total))
    (Array.replicate width 0, 0)

def allowance : Nat := 1000000000

/-- One slack variable for each line, without room where the line is an equation, and the shift.
Limits start with their slack as the basic variable where its value is not negative; the other
lines are turned to a positive side and start without one. Spare lines start idle. -/
def start (l : Layout) (lines : List Line) : Tableau :=
  let n := l.spans.size
  let width := n + lines.length + 1
  let rows := lines.toArray.mapIdx fun i c =>
    let (row, total) := l.combine width c.coefs
    let row := row.setIfInBounds (n + i) 1
    let side := c.side - total
    if c.isSpare then (row, side, some (n + i))
    else if side < 0 then (row.map (- ·), -side, none)
    else (row, side, if c.isEquation then none else some (n + i))
  { rows := rows.map (·.1)
    sides := rows.map (·.2.1)
    basis := rows.map (·.2.2)
    spans :=
      (l.spans ++ lines.toArray.map fun (c : Line) => if c.isEquation then some 0 else none).push
        (some 0)
    turned := Array.replicate width false
    idle := lines.toArray.map Line.isSpare }

/-- Units of the variables of a tableau; a column that is split in two may have any value. -/
def units (l : Layout) (p : Program) : Array (Option Rat) :=
  let columns := (l.places.toList.zip p.columns).foldl
    (fun units (place, c) => match place with
      | .above _ x | .below _ x => units.setIfInBounds x (some c.unit)
      | .constant _ | .difference .. => units)
    (Array.replicate l.spans.size none)
  columns ++ p.lines.toArray.map fun c => some c.unit

/-- The missing sides are driven to zero, lines that miss the rest by no more than the tolerance are
moved, and the cost is lowered. Back in their places, and with the spare lines, the lines are then
met as closely as the tolerance asks: in scaled units as far as possible, and in those of the system
in any case. -/
def solve (p : Program) : Verdict Rat :=
  if p.isHopeless || p.columns.any ProgramColumn.isEmpty then .infeasible else
  let l := (p.columns.map ProgramColumn.bounds).foldl Layout.add {}
  let t := start l p.lines
  match t.optimize allowance t.missingCosts false with
  | none => .infeasible
  | some t =>
    if t.misses.any (Program.tolerance < ·) then .infeasible else
    let t := t.join.complete
    let costs := (l.combine t.spans.size (p.columns.zipIdx.map fun (c, j) => (j, c.cost))).1
    match t.optimize allowance (t.priced costs) false with
    | none => .unbounded
    | some t =>
      let scaled := units l p
      let plain := scaled.map (·.map fun _ => 1)
      let t := t.settled
      let near := t.repair scaled t.patience (t.priced costs)
      let met := near.tableau.repair plain t.patience near.costs
      if met.isDone then
        let xs := met.tableau.values
        .optimal (l.places.toList.map (Place.value xs)) 0
      else .infeasible

end LPRounding.Simplex
