import LPRounding.LP.System

/-!
Equilibration: powers of two by which the rows and columns of a system are multiplied so that the
sizes of their coefficients come close to one. Solutions are judged in the scaled system, where one
tolerance fits all rows and columns.
-/

namespace LPRounding

/-- A scaled row is `rows[i]` times the row; a scaled column counts `columns[j]` of the column. -/
structure Scaling where
  rows : Array Float
  columns : Array Float

structure Entry where
  row : Nat
  column : Nat
  coef : Float

namespace Scaling

/-- Coefficients in this range are left alone when all of them are in it. -/
def evenLow : Float := 0.2

def evenHigh : Float := 5

/-- Costs count as a row of their own when one of them is smaller than this. -/
def lowCost : Float := 0.1

def largestFactor : Float := 1048576

def rounds : Nat := 6

def unit (height width : Nat) : Scaling :=
  { rows := Array.replicate height 1, columns := Array.replicate width 1 }

abbrev Extremes := Float × Float

def note (x : Float) (e : Extremes) : Extremes :=
  (if x < e.1 then x else e.1, if e.2 < x then x else e.2)

def blank : Extremes := (1e200, 1e-200)

/-- The factor that puts the geometric middle of the extremes at one, as far as factors go. -/
def balance (e : Extremes) : Float :=
  let f := 1 / Float.sqrt (e.1 * e.2)
  let f := if f < 1 / largestFactor then 1 / largestFactor else f
  if largestFactor < f then largestFactor else f

/-- Balances the columns for the factors of the rows, then the rows for those of the columns. -/
def turn (entries : List Entry) (costs : List Float) (s : Scaling) : Scaling :=
  let seen := (costs.map fun c => if c == 0 then blank else note (Float.abs c) blank).toArray
  let seen := entries.foldl
    (fun seen e => seen.modify e.column
      (note (Float.abs e.coef * s.rows.getD e.row 1))) seen
  let columns := seen.map balance
  let seen := entries.foldl
    (fun seen e => seen.modify e.row
      (note (Float.abs e.coef * columns.getD e.column 1)))
    (Array.replicate s.rows.size blank)
  { rows := seen.map balance, columns }

def toPower (f : Float) : Float :=
  Float.pow 2 (Float.floor (Float.log f / Float.log 2 + 0.5))

def entries (s : System Float) : List Entry :=
  (s.atMost ++ s.equal).zipIdx.flatMap fun (c, i) => c.coefs.map fun (j, a) => ⟨i, j, a⟩

def ofSystem (s : System Float) : Scaling :=
  let es := entries s
  let start := unit (s.atMost.length + s.equal.length) s.cost.length
  if es.all fun e => evenLow ≤ Float.abs e.coef && Float.abs e.coef ≤ evenHigh then start
  else
    let costs :=
      if s.cost.any fun c => c != 0 && Float.abs c < lowCost then s.cost
      else s.cost.map fun _ => 0
    let s := rounds.fold (fun _ _ => turn es costs) start
    { rows := s.rows.map toPower, columns := s.columns.map toPower }

end Scaling

end LPRounding
