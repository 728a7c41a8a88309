import LPRounding.LP.Dictionary
import LPRounding.LP.Program

/-!
Checking what the floating point method ended with. A basis gives a point and prices of the rows,
which are brought close to their exact values and then held against the system: a point within all
bounds, with prices of the right signs, is optimal. A conflict must show that some combination of
the rows cannot hold, and a ray that the cost falls for ever. What does not pass is no answer.
Whatever is far from a bound in floating point is not checked again.
-/

namespace LPRounding.Guess

structure Frame where
  rows : Array (List (Nat × Float))
  columns : Array (List (Nat × Float))
  sides : Array Float
  /-- How many of the rows are limits; the others are equations. -/
  limits : Nat
  costs : Array Float
  bounds : Array (Option Rat × Option Rat)
  rowUnits : Array Rat
  columnUnits : Array Rat

def Frame.ofSystem (s : System Float) (scaling : Scaling) : Frame :=
  let constraints := s.atMost ++ s.equal
  { rows := (constraints.map Constraint.coefs).toArray
    columns := constraints.zipIdx.foldl
      (fun cols (c, i) => c.coefs.foldl (fun cols (j, a) => cols.modify j ((i, a) :: ·)) cols)
      (Array.replicate s.cost.length [])
    sides := (constraints.map Constraint.side).toArray
    limits := s.atMost.length
    costs := s.cost.toArray
    bounds := s.bounds.toArray.map fun (l, u) => (l.map exact, u.map exact)
    rowUnits := scaling.rows.map exact
    columnUnits := scaling.columns.map exact }

def dot (coefs : List (Nat × Float)) (xs : Array Rat) : Rat :=
  coefs.foldl
    (fun t (j, a) =>
      let x := xs.getD j 0
      if x == 0 then t else t + exact a * x) 0

def roughDot (coefs : List (Nat × Float)) (xs : FloatArray) : Float × Float :=
  coefs.foldl
    (fun (t, size) (j, a) =>
      let y := a * xs.get! j
      (t + y, size + Float.abs y)) (0, 0)

/-- Differences this small, compared to what they come from, are not told from rounding errors. -/
def blur : Float := 1e-7

def isClear (x size : Float) : Bool := blur * (1 + size) < x

def round (xs : Array Rat) : FloatArray :=
  xs.foldl (fun ys x => ys.push (Decimal.nearest x)) (FloatArray.emptyWithCapacity xs.size)

def magnitude (x : Rat) : Rat := if x < 0 then -x else x

def tiny (n : Nat) : Rat := mkRat 1 (1 <<< n)

/-- Rows and columns of a dictionary that a basis is made of: the lines of the basic columns of the
system, and the columns whose variables are rows of the system. -/
structure Basis where
  lines : List (Nat × Nat)
  tight : List (Nat × Nat)

def Basis.ofDictionary (d : Dictionary) : Basis :=
  { lines := d.basics.toList.zipIdx.filterMap fun (v, i) =>
      if v < d.width then some (i, v) else none
    tight := d.others.toList.zipIdx.filterMap fun (v, c) =>
      if v < d.width then none else some (c, v - d.width) }

def rounds : Nat := 6

def polish (misses : Array Rat → List (Nat × Rat))
    (improve : List (Nat × Rat) → Array Rat → Array Rat) : Nat → Array Rat → Array Rat
  | 0, xs => xs
  | n + 1, xs =>
    match misses xs with
    | [] => xs
    | ms => polish misses improve n (improve ms xs)

namespace Frame

def rowUnit (f : Frame) (i : Nat) : Rat := f.rowUnits.getD i 1

def columnUnit (f : Frame) (j : Nat) : Rat := f.columnUnits.getD j 1

def bound (f : Frame) (j : Nat) : Option Rat × Option Rat := f.bounds.getD j (none, none)

def side (f : Frame) (i : Nat) : Rat := exact (f.sides.getD i 0)

def cost (f : Frame) (j : Nat) : Rat := exact (f.costs.getD j 0)

def row (f : Frame) (i : Nat) : List (Nat × Float) := f.rows.getD i []

def column (f : Frame) (j : Nat) : List (Nat × Float) := f.columns.getD j []

/-- The point of a basis: the other columns are at their bounds, and the tight rows are met. -/
def point (f : Frame) (d : Dictionary) (b : Basis) : Array Rat :=
  let start := (Array.range d.width).map fun j => exact (d.value j) * f.columnUnit j
  let start := d.others.foldl
    (fun xs v =>
      if v < d.width then
        let x := match f.bound v with
          | (l, some u) => if d.value v == d.high v then u else l.getD 0
          | (l, none) => l.getD 0
        xs.setIfInBounds v x
      else xs) start
  let misses (xs : Array Rat) := b.tight.filterMap fun (c, i) =>
    let m := f.side i - dot (f.row i) xs
    if m == 0 then none else some (c, m * f.rowUnit i)
  let improve (ms : List (Nat × Rat)) (xs : Array Rat) :=
    let ms := ms.map fun (c, m) => (c, Decimal.nearest m)
    b.lines.foldl
      (fun xs (line, j) =>
        let step := ms.foldl
          (fun t (c, m) =>
            let a := d.entry line c
            if a == 0 then t else t + a * m) (0 : Float)
        if step == 0 then xs else xs.modify j (· + exact step * f.columnUnit j)) xs
  polish misses improve rounds start

/-- Prices of the tight rows, for which the basic columns cost nothing more. -/
def prices (f : Frame) (d : Dictionary) (b : Basis) : Array Rat :=
  let start := b.tight.foldl
    (fun ys (c, i) => ys.setIfInBounds i (exact (d.rate c) * f.rowUnit i))
    (Array.replicate f.rows.size (0 : Rat))
  let misses (ys : Array Rat) := b.lines.filterMap fun (line, j) =>
    let m := f.cost j - dot (f.column j) ys
    if m == 0 then none else some (line, m * f.columnUnit j)
  let improve (ms : List (Nat × Rat)) (ys : Array Rat) :=
    let ms := ms.map fun (line, m) => (line, Decimal.nearest m)
    b.tight.foldl
      (fun ys (c, i) =>
        let step := ms.foldl
          (fun t (line, m) =>
            let a := d.entry line c
            if a == 0 then t else t + a * m) (0 : Float)
        if step == 0 then ys else ys.modify i (· + exact step * f.rowUnit i)) ys
  polish misses improve rounds start

/-- The value itself, or the bound it differs from by a rounding error; none beyond the bounds. -/
def fit (b : Option Rat × Option Rat) (x : Rat) : Option Rat :=
  let margin (y : Rat) := tiny 80 * (1 + magnitude y)
  match b.1.filter fun l => x < l + margin l, b.2.filter fun u => u - margin u < x with
  | some l, _ => if l - margin l < x then some l else none
  | none, some u => if x < u + margin u then some u else none
  | none, none => some x

def feasible? (f : Frame) (d : Dictionary) (b : Basis) : Option (List Rat) :=
  let xs := f.point d b
  let rough := round xs
  let meets (i : Nat) : Bool :=
    let side := f.sides.getD i 0
    let (t, size) := roughDot (f.row i) rough
    if i < f.limits && isClear (side - t) (Float.abs side + size) then true else
    let excess := dot (f.row i) xs - f.side i
    let margin := tiny 80 * (1 + magnitude (f.side i))
    excess < margin && (i < f.limits || -margin < excess)
  if (List.range f.rows.size).all meets then
    (xs.toList.zip f.bounds.toList).mapM fun (x, b) => fit b x
  else none

def isPriced (f : Frame) (d : Dictionary) (b : Basis) : Bool :=
  let rough := b.tight.foldl
    (fun ys (c, i) => ys.set! i (d.rate c * Decimal.nearest (f.rowUnit i)))
    (Dictionary.zeros f.rows.size)
  let clear (v : Nat) : Bool :=
    let (q, size) :=
      if v < d.width then
        let (t, size) := roughDot (f.column v) rough
        let c := f.costs.getD v 0
        (c - t, Float.abs c + size)
      else (rough.get! (v - d.width), 0)
    (!d.mayRise v || isClear q size) && (!d.mayFall v || isClear (-q) size)
  match d.others.filter fun v => !clear v with
  | #[] => true
  | doubtful =>
    let ys := f.prices d b
    let largest := f.costs.foldl (fun m c => if m < Float.abs c then Float.abs c else m) 1
    let margin := tiny 60 * exact largest
    let suits (v : Nat) (q : Rat) : Bool :=
      (!d.mayRise v || -margin < q) && (!d.mayFall v || q < margin)
    doubtful.all fun v =>
      if v < d.width then suits v (f.cost v - dot (f.column v) ys)
      else suits v (ys.getD (v - d.width) 0)

def noise : Rat := mkRat 1 1000000000

def gap : Rat := mkRat 1 1000000

def least (k unit : Rat) (b : Option Rat × Option Rat) : Option Rat :=
  match if 0 < k then b.1 else b.2 with
  | some x => some (k * x)
  | none => if magnitude k * unit < noise then some 0 else none

def rowBound (f : Frame) (i : Nat) : Option Rat × Option Rat :=
  (if i < f.limits then none else some (f.side i), some (f.side i))

/-- Whether the rows, weighted like this, less the columns that they are made of, are always above
zero, where they should be zero. -/
def exceeds (f : Frame) (ys : List (Nat × Rat)) : Bool :=
  let weights := ys.foldl
    (fun ws (i, y) => (f.row i).foldl (fun ws (j, a) => ws.modify j (· - y * exact a)) ws)
    (Array.replicate f.bounds.size (0 : Rat))
  let terms :=
    (ys.map fun (i, y) => least y (1 / f.rowUnit i) (f.rowBound i)) ++
      weights.toList.zipIdx.map fun (w, j) =>
        if w == 0 then some 0 else least w (f.columnUnit j) (f.bound j)
  match terms.mapM id with
  | some ts => gap < ts.foldl (· + ·) 0
  | none => false

/-- A line of a dictionary whose basic variable cannot come into its bounds. -/
def isConflict (f : Frame) (d : Dictionary) (b : Basis) (line : Nat) : Bool :=
  let own := if d.basic line < d.width then [] else
    [(d.basic line - d.width, f.rowUnit (d.basic line - d.width))]
  let ys := own ++ b.tight.filterMap fun (c, i) =>
    let a := d.entry line c
    if a == 0 then none else some (i, -exact a * f.rowUnit i)
  f.exceeds ys || f.exceeds (ys.map fun (i, y) => (i, -y))

def isRay (f : Frame) (d : Dictionary) (b : Basis) (c : Nat) (up : Bool) : Bool :=
  let signed (x : Rat) := if up then x else -x
  let start := Array.replicate d.width (0 : Rat)
  let start := if d.other c < d.width then start.setIfInBounds (d.other c) (signed 1) else start
  let steps := b.lines.foldl
    (fun zs (line, j) => zs.setIfInBounds j (signed (exact (d.entry line c)))) start
  let zs := steps.mapIdx fun j z => z * f.columnUnit j
  let isOpen (j : Nat) (z : Rat) : Bool :=
    (z < noise || (f.bound j).2.isNone) && (-noise < z || (f.bound j).1.isNone)
  let passes (i : Nat) : Bool :=
    let z := dot (f.row i) zs * f.rowUnit i
    z < noise && (i < f.limits || -noise < z)
  let fall := (f.costs.zip zs).foldl (fun t (c, z) => t + exact c * z) 0
  fall < -gap && (List.range d.width).all (fun j => isOpen j (steps.getD j 0)) &&
    (List.range f.rows.size).all passes

end Frame

/-- What the ending of a run says about a system, if that can be checked. -/
def verdict? (s : System Float) (scaling : Scaling) : Dictionary.Ending → Option (Verdict Rat)
  | .best d =>
    let f := Frame.ofSystem s scaling
    let b := Basis.ofDictionary d
    match f.feasible? d b with
    | some xs => if f.isPriced d b then some (.optimal xs 0) else none
    | none => none
  | .conflict d line =>
    if (Frame.ofSystem s scaling).isConflict d (.ofDictionary d) line then some .infeasible
    else none
  | .ray d c up =>
    let f := Frame.ofSystem s scaling
    let b := Basis.ofDictionary d
    if (f.feasible? d b).isSome && f.isRay d b c up then some .unbounded else none
  | .tired => none

end LPRounding.Guess
