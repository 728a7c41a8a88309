import LPRounding.LP.Scaling

/-!
The simplex method on dictionaries, in floating point. A dictionary writes some of its variables,
the basic ones, as combinations of the others; those rest at their bounds. The variables are the
columns of a system, numbered first, and the activities of its rows. What the method ends with is
a guess that `LP.Guess` checks against the system.
-/

namespace LPRounding

structure Dictionary where
  height : Nat
  width : Nat
  /-- One line for each basic variable, and one with the cost rates of the others. -/
  table : FloatArray
  basics : Array Nat
  others : Array Nat
  floors : FloatArray
  ceilings : FloatArray
  values : FloatArray

namespace Dictionary

def endless : Float := 1 / 0

def entry (d : Dictionary) (i c : Nat) : Float := d.table.get! (i * d.width + c)

def rate (d : Dictionary) (c : Nat) : Float := d.entry d.height c

def basic (d : Dictionary) (i : Nat) : Nat := d.basics.getD i 0

def other (d : Dictionary) (c : Nat) : Nat := d.others.getD c 0

def low (d : Dictionary) (v : Nat) : Float := d.floors.get! v

def high (d : Dictionary) (v : Nat) : Float := d.ceilings.get! v

def value (d : Dictionary) (v : Nat) : Float := d.values.get! v

def mayRise (d : Dictionary) (v : Nat) : Bool := d.value v < d.high v

def mayFall (d : Dictionary) (v : Nat) : Bool := d.low v < d.value v

def noise : Float := 1e-12

def slack : Float := 1e-9

def smallestPivot : Float := 1e-8

def settle (x : Float) : Float := if Float.abs x < noise then 0 else x

def move (d : Dictionary) (c : Nat) (step : Float) : Dictionary :=
  let values := d.height.fold
    (fun i _ xs =>
      let a := d.entry i c
      if a == 0 then xs
      else
        let v := d.basic i
        xs.set! v (xs.get! v + a * step)) d.values
  let v := d.other c
  { d with values := values.set! v (values.get! v + step) }

def place (d : Dictionary) (v : Nat) (x : Float) : Dictionary :=
  { d with values := d.values.set! v x }

def refresh (d : Dictionary) : Dictionary :=
  let values := d.height.fold
    (fun i _ xs =>
      let total := d.width.fold
        (fun c _ t =>
          let a := d.entry i c
          if a == 0 then t else t + a * d.value (d.other c)) (0 : Float)
      xs.set! (d.basic i) total) d.values
  { d with values }

def solvedLine (d : Dictionary) (r c : Nat) : FloatArray :=
  let p := d.entry r c
  d.width.fold
    (fun j _ line => line.push (if j == c then 1 / p else settle (-(d.entry r j / p))))
    (FloatArray.emptyWithCapacity d.width)

def exchange (d : Dictionary) (r c : Nat) : Dictionary :=
  let line := d.solvedLine r c
  let busy := d.width.fold
    (fun j _ js => if j != c && line.get! j != 0 then js.push j else js) #[]
  let width := d.width
  let inverse := line.get! c
  let table := (d.height + 1).fold
    (fun i _ t =>
      if i == r then t else
      let start := i * width
      let f := t.get! (start + c)
      if f == 0 then t
      else
        let t := busy.foldl
          (fun t j => t.set! (start + j) (settle (t.get! (start + j) + f * line.get! j))) t
        t.set! (start + c) (f * inverse)) d.table
  let table := width.fold (fun j _ t => t.set! (r * width + j) (line.get! j)) table
  { d with
    table
    basics := d.basics.setIfInBounds r (d.other c)
    others := d.others.setIfInBounds c (d.basic r) }

inductive Step where
  | done
  | moved (d : Dictionary)
  /-- No move brings the basic variable of a line into its bounds. -/
  | conflict (line : Nat)
  /-- A variable can improve the cost without end. -/
  | ray (column : Nat) (up : Bool)

def worst (d : Dictionary) : Option (Nat × Bool) :=
  let (i, most, up) := d.height.fold
    (fun i _ (best : Nat × Float × Bool) =>
      let v := d.basic i
      let x := d.value v
      let missing := d.low v - x
      let excess := x - d.high v
      if best.2.1 < missing then (i, missing, true)
      else if best.2.1 < excess then (i, excess, false)
      else best) (0, slack, false)
  if slack < most then some (i, up) else none

def yields (d : Dictionary) (r : Nat) (up : Bool) (c : Nat) : Bool :=
  let a := d.entry r c
  let v := d.other c
  smallestPivot < Float.abs a && (if (0 < a) == up then d.mayRise v else d.mayFall v)

/-- The column whose rate is the first to vanish, up to the tolerance; of several the one with the
largest entry. -/
def yielding (d : Dictionary) (r : Nat) (up : Bool) : Option Nat :=
  let least := d.width.fold
    (fun c _ least =>
      if d.yields r up c then
        let q := (Float.abs (d.rate c) + slack) / Float.abs (d.entry r c)
        if q < least then q else least
      else least) endless
  let (c, size) := d.width.fold
    (fun c _ (best : Nat × Float) =>
      let a := Float.abs (d.entry r c)
      if best.2 < a && d.yields r up c && Float.abs (d.rate c) / a ≤ least then (c, a) else best)
    (0, (0 : Float))
  if 0 < size then some c else none

def repair (d : Dictionary) : Step :=
  match d.worst with
  | none => .done
  | some (r, up) =>
    match d.yielding r up with
    | none => .conflict r
    | some c =>
      let v := d.basic r
      let goal := if up then d.low v else d.high v
      let step := (goal - d.value v) / d.entry r c
      .moved (((d.move c step).place v goal).exchange r c)

def improves (d : Dictionary) (c : Nat) : Option Bool :=
  let q := d.rate c
  let v := d.other c
  if q < -slack && d.mayRise v then some true
  else if slack < q && d.mayFall v then some false
  else none

/-- A column that improves the cost: the steepest one, or the one with the first variable. -/
def promising (d : Dictionary) (first : Bool) : Option (Nat × Bool) :=
  d.width.fold
    (fun c _ best =>
      match d.improves c, best with
      | none, _ => best
      | some up, none => some (c, up)
      | some up, some (b, _) =>
        let ahead :=
          if first then decide (d.other c < d.other b)
          else decide (Float.abs (d.rate b) < Float.abs (d.rate c))
        if ahead then some (c, up) else best) none

def room (d : Dictionary) (i c : Nat) (up : Bool) : Float :=
  let a := if up then d.entry i c else -d.entry i c
  let v := d.basic i
  if smallestPivot < a then (d.high v - d.value v) / a
  else if a < -smallestPivot then (d.low v - d.value v) / a
  else endless

/-- The line that stops a variable first, up to the tolerance; of several the one with the largest
entry. -/
def stopping (d : Dictionary) (c : Nat) (up : Bool) : Option Nat :=
  let least := d.height.fold
    (fun i _ least =>
      let far := d.room i c up + slack / Float.abs (d.entry i c)
      if far < least then far else least) endless
  let (i, size) := d.height.fold
    (fun i _ (best : Nat × Float) =>
      let a := Float.abs (d.entry i c)
      if best.2 < a && d.room i c up ≤ least then (i, a) else best) (0, (0 : Float))
  if least < endless && 0 < size then some i else none

def improve (d : Dictionary) (first : Bool) : Step :=
  match d.promising first with
  | none => .done
  | some (c, up) =>
    let v := d.other c
    let own := if up then d.high v - d.value v else d.value v - d.low v
    let signed (x : Float) := if up then x else -x
    let flip := (d.move c (signed own)).place v (if up then d.high v else d.low v)
    match d.stopping c up with
    | none => if own < endless then .moved flip else .ray c up
    | some r =>
      let far := d.room r c up
      if own ≤ far then .moved flip
      else
        let far := if far < 0 then 0 else far
        let b := d.basic r
        let goal := if (0 < d.entry r c) == up then d.high b else d.low b
        .moved (((d.move c (signed far)).place b goal).exchange r c)

inductive Ending where
  | best (d : Dictionary)
  | conflict (d : Dictionary) (line : Nat)
  | ray (d : Dictionary) (column : Nat) (up : Bool)
  | tired

def runSteps (step : Nat → Dictionary → Step) : Nat → Dictionary → Ending
  | 0, _ => .tired
  | steps + 1, d =>
    match step steps d with
    | .done => .best d
    | .moved d => runSteps step steps d
    | .conflict line => .conflict d line
    | .ray column up => .ray d column up

/-- A different small number for each variable, so that no two rates vanish together. -/
def disturbance (v : Nat) (q : Float) : Float :=
  let x := (Float.ofNat v + 1) * 0.6180339887498949
  (1 + Float.abs q) * 1e-6 * (0.5 + (x - Float.floor x))

/-- Makes every rate fit the bound that its variable rests at, by moving the variable to its other
bound where there is one, or else by changing the rate. All rates are disturbed a little. -/
def restrain (d : Dictionary) : Dictionary :=
  d.width.fold
    (fun c _ d =>
      let v := d.other c
      let q := d.rate c
      let d := if q < 0 && d.mayRise v && d.high v < endless then d.place v (d.high v) else d
      let shift := disturbance v q
      let q :=
        if d.mayRise v && d.mayFall v then 0
        else if d.mayRise v then (if q < 0 then 0 else q) + shift
        else if d.mayFall v then (if 0 < q then 0 else q) - shift
        else q
      { d with table := d.table.set! (d.height * d.width + c) q }) d

def reprice (costs : FloatArray) (d : Dictionary) : Dictionary :=
  let base := d.height * d.width
  let table := d.width.fold (fun c _ t => t.set! (base + c) (costs.get! (d.other c))) d.table
  let width := d.width
  let table := d.height.fold
    (fun i _ t =>
      let q := costs.get! (d.basic i)
      if q == 0 then t
      else width.fold
        (fun c _ t => t.set! (base + c) (t.get! (base + c) + q * t.get! (i * width + c))) t) table
  { d with table }

/-- First all variables are brought into their bounds, under rates that fit; then the cost is
lowered. When half of the steps are used up, the improving variable is the first one. -/
def run (costs : FloatArray) (steps : Nat) (d : Dictionary) : Ending :=
  match runSteps (fun _ => repair) steps d.restrain.refresh with
  | .best d => runSteps (fun left d => d.improve (left < steps / 2)) steps (d.reprice costs).refresh
  | ending => ending

def zeros (n : Nat) : FloatArray :=
  n.fold (fun _ _ xs => xs.push 0) (FloatArray.emptyWithCapacity n)

def scaledCosts (s : System Float) (scaling : Scaling) (height : Nat) : FloatArray :=
  height.fold (fun _ _ costs => costs.push 0)
    (s.cost.zipIdx.foldl (fun costs (c, j) => costs.push (c * scaling.columns.getD j 1)) .empty)

/-- The activities of the rows are basic at first. -/
def ofSystem (s : System Float) (scaling : Scaling) : Dictionary :=
  let width := s.cost.length
  let limits := s.atMost.length
  let height := limits + s.equal.length
  let table := (Scaling.entries s).foldl
    (fun t e =>
      t.set! (e.row * width + e.column)
        (e.coef * scaling.rows.getD e.row 1 * scaling.columns.getD e.column 1))
    (zeros ((height + 1) * width))
  let costs := scaledCosts s scaling height
  let table := width.fold (fun c _ t => t.set! (height * width + c) (costs.get! c)) table
  let ends := s.bounds.zipIdx.map fun ((l, u), j) =>
    let unit := scaling.columns.getD j 1
    (l.elim (-endless) (· / unit), u.elim endless (· / unit))
  let sides := (s.atMost ++ s.equal).zipIdx.map fun (c, i) => c.side * scaling.rows.getD i 1
  let floors := (sides.zipIdx.map fun (x, i) => if i < limits then -endless else x).foldl
    FloatArray.push (ends.foldl (fun xs e => xs.push e.1) .empty)
  let ceilings := sides.foldl FloatArray.push (ends.foldl (fun xs e => xs.push e.2) .empty)
  let values := height.fold (fun _ _ xs => xs.push 0)
    (ends.foldl
      (fun xs e => xs.push (if -endless < e.1 then e.1 else if e.2 < endless then e.2 else 0))
      .empty)
  { height, width, table, floors, ceilings, values
    basics := (Array.range height).map (· + width)
    others := Array.range width }

def patience (d : Dictionary) : Nat := 20 * (d.height + d.width) + 100

end Dictionary

end LPRounding
