import LPRounding.Scalar

/-!
Tableaus of the simplex method over rational numbers. Every variable runs from zero to its span; a
variable that rests at its upper end is replaced by its complement, so that all variables outside
the basis are zero.

Rows that miss each other by little are moved together. The last variable of a tableau stands for
that: it is one while they are moved and zero when they are back in place. An idle row is left out
of account until the others have been solved.
-/

namespace LPRounding.Simplex

/-- One equation `basic + Σ entries * variable = side` for each basic variable. -/
structure Tableau where
  rows : Array (Array Rat)
  sides : Array Rat
  /-- The basic variable of each row; none while the row still misses its side. -/
  basis : Array (Option Nat)
  /-- Largest value of each variable, if it has one. -/
  spans : Array (Option Rat)
  /-- Variables that stand for their distance from the upper end. -/
  turned : Array Bool
  /-- Rows that stop no variable. -/
  idle : Array Bool

namespace Tableau

def entry (t : Tableau) (i j : Nat) : Rat := (t.rows.getD i #[]).getD j 0

def side (t : Tableau) (i : Nat) : Rat := t.sides.getD i 0

def span (t : Tableau) (j : Nat) : Option Rat := t.spans.getD j none

def turn (t : Tableau) (j : Nat) : Tableau :=
  { t with turned := t.turned.modify j not }

def reduce (target source : Array Rat) (factor : Rat) : Array Rat :=
  if factor == 0 then target
  else target.zipWith (fun a b => if b == 0 then a else a - factor * b) source

def pivot (t : Tableau) (costs : Array Rat) (i j : Nat) : Tableau × Array Rat :=
  let p := t.entry i j
  let source := (t.rows.getD i #[]).map (· / p)
  let value := t.side i / p
  let rows := t.rows.mapIdx fun k row => if k == i then source else reduce row source (row.getD j 0)
  let sides := t.sides.mapIdx fun k s => if k == i then value else s - t.entry k j * value
  ({ t with rows, sides, basis := t.basis.setIfInBounds i (some j) },
    reduce costs source (costs.getD j 0))

def flip (t : Tableau) (costs : Array Rat) (j : Nat) (u : Rat) : Tableau × Array Rat :=
  let sides := t.sides.mapIdx fun k s => s - t.entry k j * u
  let rows := t.rows.map fun row => row.modify j (- ·)
  ({ t with rows, sides }.turn j, costs.modify j (- ·))

def complement (t : Tableau) (i b : Nat) (u : Rat) : Tableau :=
  let rows := t.rows.modify i fun row => row.mapIdx fun k a => if k == b then a else -a
  { t with rows, sides := t.sides.modify i (u - ·) }.turn b

/-- A variable whose growth lowers the cost: the first one, or the steepest. -/
def entering (t : Tableau) (costs : Array Rat) (first : Bool) : Option Nat :=
  let good := (List.range costs.size).filter fun j => costs.getD j 0 < 0 && t.span j != some 0
  if first then good.head?
  else good.foldl
    (fun best j => match best with
      | none => some j
      | some b => if costs.getD j 0 < costs.getD b 0 then some j else best) none

def room (t : Tableau) (i j : Nat) : Option (Rat × Bool) :=
  let a := t.entry i j
  if t.idle.getD i false then none
  else if 0 < a then some (t.side i / a, false)
  else if a < 0 then
    match (t.basis.getD i none).bind t.span with
    | some u => some ((u - t.side i) / -a, true)
    | none => none
  else none

/-- The row with the least room; of several one that misses its side, or else the one whose basic
variable comes first. -/
def leaving (t : Tableau) (j : Nat) : Option (Nat × Rat × Bool) :=
  let index (i : Nat) : Nat := (t.basis.getD i none).elim 0 (· + 1)
  (List.range t.rows.size).foldl
    (fun best i => match t.room i j, best with
      | none, _ => best
      | some (r, up), none => some (i, r, up)
      | some (r, up), some (k, s, _) =>
        if r < s || (r == s && index i < index k) then some (i, r, up) else best) none

inductive Progress where
  | done
  | unbounded
  | moved (t : Tableau) (costs : Array Rat) (gained : Bool)

def step (t : Tableau) (costs : Array Rat) (first : Bool) : Progress :=
  match t.entering costs first with
  | none => .done
  | some j =>
    match t.leaving j, t.span j with
    | none, none => .unbounded
    | none, some u =>
      let (t, costs) := t.flip costs j u
      .moved t costs true
    | some (i, r, up), own =>
      match own.filter (· ≤ r) with
      | some u =>
        let (t, costs) := t.flip costs j u
        .moved t costs true
      | none =>
        let t := match up, t.basis.getD i none with
          | true, some b =>
            match t.span b with
            | some u => t.complement i b u
            | none => t
          | _, _ => t
        let (t, costs) := t.pivot costs i j
        .moved t costs (r != 0)

/-- Steps until no variable improves. After a step without gain the first improving variable is
taken until one gains, so that no basis returns. -/
def optimize : Nat → Tableau → Array Rat → Bool → Option Tableau
  | 0, t, _, _ => some t
  | steps + 1, t, costs, first =>
    match t.step costs first with
    | .done => some t
    | .unbounded => none
    | .moved t costs gained => optimize steps t costs (!gained)

/-- Cost of the missing sides: each entry of a row without a basic variable counts against it. -/
def missingCosts (t : Tableau) : Array Rat :=
  (List.range t.rows.size).foldl
    (fun costs i => if (t.basis.getD i none).isNone then reduce costs (t.rows.getD i #[]) 1
      else costs)
    (Array.replicate t.spans.size 0)

def misses (t : Tableau) : Array Rat :=
  (Array.range t.rows.size).map fun i => if (t.basis.getD i none).isSome then 0 else t.side i

def shift (t : Tableau) : Nat := t.spans.size - 1

def join (t : Tableau) : Tableau :=
  let rows := t.rows.mapIdx fun i row =>
    if (t.basis.getD i none).isSome then row else row.setIfInBounds t.shift (t.side i)
  let sides := t.sides.mapIdx fun i x => if (t.basis.getD i none).isSome then x else 0
  { t with rows, sides }

def slack (t : Tableau) (i : Nat) : Nat := t.spans.size - 1 - t.rows.size + i

/-- Gives each row that still has none a basic variable at value zero; where a row repeats other
rows that is its slack. -/
def complete (t : Tableau) : Tableau :=
  (List.range t.rows.size).foldl
    (fun t i =>
      if (t.basis.getD i none).isSome then t else
      let j := (List.range t.spans.size).find? fun j => t.entry i j != 0 && t.span j != some 0
      (t.pivot #[] i (j.getD (t.slack i))).1) t

def priced (t : Tableau) (costs : Array Rat) : Array Rat :=
  let turnedCosts := costs.mapIdx fun j c => if t.turned.getD j false then -c else c
  (List.range t.rows.size).foldl
    (fun row i => match t.basis.getD i none with
      | some b => reduce row (t.rows.getD i #[]) (row.getD b 0)
      | none => row) turnedCosts

/-- Puts all rows back in their places and takes the idle ones into account. -/
def settled (t : Tableau) : Tableau :=
  { t with
    rows := t.rows.map (·.setIfInBounds t.shift 0)
    sides := t.sides.mapIdx fun i x => x + t.entry i t.shift
    idle := t.idle.map fun _ => false }

def values (t : Tableau) : Array Rat :=
  let basics := (List.range t.rows.size).foldl
    (fun xs i => match t.basis.getD i none with
      | some b => xs.setIfInBounds b (t.side i)
      | none => xs) (Array.replicate t.spans.size (0 : Rat))
  basics.mapIdx fun j x =>
    if t.turned.getD j false then (t.span j).getD 0 - x else x

end Tableau

end LPRounding.Simplex
