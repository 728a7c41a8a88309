import LPRounding.Fault
import LPRounding.Random.Seed
import LPRounding.Random.Twister

/-!
Sources of random decisions. A run draws starting points, weighted picks and points of the unit
interval from a source that it carries along.
-/

namespace LPRounding

class Dice (σ : Type) (K : outParam Type) where
  /-- A number below a positive one. -/
  below : Nat → σ → Nat × σ
  /-- A number from zero up to, but not including, one. -/
  unit : σ → K × σ
  /-- An index, each with a probability in proportion to its weight. -/
  weighted : List K → σ → Except (Fault K) (Nat × σ)

namespace Random

/-- The number of partial sums not above the mark, found by halving `[lo, hi)`. -/
def rank (sums : Array Float) (mark : Float) (lo hi : Nat) : Nat :=
  if lo < hi then
    let middle := (lo + hi) / 2
    if mark < sums.getD middle 0 then rank sums mark lo middle else rank sums mark (middle + 1) hi
  else lo
  termination_by hi - lo

def partialSums (weights : List Float) : Array Float :=
  weights.foldl (fun sums w => sums.push ((sums.back?.elim w fun s => s + w))) #[]

/-- There must be a weight, and the total must be positive and finite; all this is looked at before
anything is drawn. -/
def Twister.weighted (weights : List Float) (t : Twister) :
    Except (Fault Float) (Nat × Twister) :=
  let sums := partialSums weights
  match sums.back? with
  | none => .error .noEntry
  | some total =>
    if total ≤ 0 then .error .weightsNotPositive
    else if !total.isFinite then .error .weightsNotFinite
    else
      let (r, t) := t.unit
      .ok (rank sums (r * total) 0 (weights.length - 1), t)

instance : Dice Twister Float where
  below := Twister.below
  unit := Twister.unit
  weighted := Twister.weighted

def Twister.pick (n : Int) (t : Twister) : Except (Fault Float) (Nat × Twister) :=
  if n ≤ 0 then .error .emptyRange else .ok (t.below n.toNat)

/-- The source of a component. Without a master seed any source will do. -/
def source (master : Option Int) (labels : List Label) : Twister :=
  .ofSeed ((master.map fun m => deriveSeed m labels).getD 0)

structure Fixed where
  start : Int

instance : Dice Fixed Float where
  below n f := ((f.start % n).toNat, f)
  unit f := (0, f)
  weighted weights f := .ok ((f.start % weights.length).toNat, f)

end Random

end LPRounding
