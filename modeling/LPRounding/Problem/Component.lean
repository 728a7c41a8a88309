import LPRounding.Graph.Forest
import LPRounding.Graph.Metric
import LPRounding.Tolerance

/-!
Directed components: small trees over some of the current terminals, each pointed at one of them,
and what they cost in a metric.
-/

namespace LPRounding

/-- The sources are merged into the sink when the component is taken. -/
structure Component (K : Type) where
  sink : Node
  sources : List Node
  steiner : List Node
  cost : K

def choose {α : Type} : Nat → List α → List (List α)
  | 0, _ => [[]]
  | _ + 1, [] => []
  | n + 1, x :: xs => (choose n xs).map (x :: ·) ++ choose (n + 1) xs

namespace Component

variable {K : Type} [Scalar K]

def price (d : Distance K) : K := d.getD Scalar.top

def complete (m : Metric K) (places : List Nat) : List (Weighted Nat K) :=
  (choose 2 places.zipIdx).filterMap fun
    | [(a, i), (b, j)] => some { u := i, v := j, weight := price (m.dist a b) }
    | _ => none

/-- Cost of a minimum spanning tree of the given places. Only a single pair may be at a distance
that is no number. -/
def treeCost (m : Metric K) (places : List Nat) : Except (Fault K) K :=
  match complete m places with
  | [e] => .ok e.weight
  | es =>
    match Weighted.undefined? es with
    | some e => .error (.undefinedWeight (.number e.u) (.number e.v))
    | none =>
      .ok (Weighted.total (List.range places.length) (Weighted.minimumForest es))

/-- Cost of joining the given places to one more, if all of them lead there. The distances to the
only possible center are added in balanced order. -/
def starCost (m : Metric K) (places : List Nat) (alone : Bool) (center : Nat) : Distance K :=
  let ds := places.map fun i => m.dist i center
  if alone then Distance.balancedSum ds else Distance.sum ds

/-- Whether a cost goes before another: it is smaller, or the first that is no number. A missing
cost is more than any finite one. -/
def precedes : Distance K → Distance K → Bool
  | some a, some b => a < b || (Scalar.isUndefined a && !Scalar.isUndefined b)
  | some a, none => Scalar.isFinite a || a < Scalar.top || Scalar.isUndefined a
  | none, _ => false

def bestStar (m : Metric K) (places : List Nat) (centers : List (Node × Nat)) :
    Option (Node × Distance K) :=
  (centers.map fun (v, i) => (v, starCost m places (centers.length == 1) i)).foldl
    (fun best star => match best with
      | none => some star
      | some b => if precedes star.2 b.2 then some star else some b) none

/-- Cost and Steiner vertices of a set of terminals: a spanning tree, unless they are more than two
and a star is cheaper by more than the tolerance. -/
def priced (t : Tolerance K) (m : Metric K) (places : List Nat) (centers : List (Node × Nat)) :
    Except (Fault K) (K × List Node) := do
  let cost ← treeCost m places
  match if 2 < places.length then bestStar m places centers else none with
  | some (v, some star) => return if t.below star cost then (star, [v]) else (cost, [])
  | _ => return (cost, [])

/-- One component for every member of a set as its sink. -/
def ofSet (t : Tolerance K) (m : Metric K) (place : Node → Nat) (centers : List (Node × Nat))
    (set : List Node) : Except (Fault K) (List (Component K)) := do
  let (cost, steiner) ← priced t m (set.map place) centers
  return set.map fun sink => { sink, sources := set.filter (· ≠ sink), steiner, cost }

def free (terminals steiner : List Node) : List Node := steiner.filter fun v => v ∉ terminals

/-- All components of two to `limit` terminals, by size. Their stars are around free vertices. -/
def all (t : Tolerance K) (m : Metric K) (place : Node → Nat) (terminals steiner : List Node)
    (limit : Nat) : Except (Fault K) (List (Component K)) := do
  let centers := (free terminals steiner).map fun v => (v, place v)
  let top := min limit terminals.length
  let sets := (List.range' 2 (top - 1)).flatMap fun size => choose size terminals
  return (← sets.mapM (ofSet t m place centers)).flatten

end Component

end LPRounding
