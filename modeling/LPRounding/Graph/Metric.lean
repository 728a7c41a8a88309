import LPRounding.Graph.Basic
import LPRounding.Summation
import LPRounding.Fault

/-!
Distances between numbered vertices, and what contracting two of them does to all distances.
-/

namespace LPRounding

abbrev Distance (K : Type) := Option K

variable {K : Type} [Scalar K]

namespace Distance

/-- The sum of a missing path and a value. It is missing as well, unless the value is no finite
number and decides by itself. -/
def past (x : K) : Distance K := if Scalar.isFinite x then none else some (Scalar.top + x)

def add : Distance K → Distance K → Distance K
  | some a, some b => some (a + b)
  | some a, none => past a
  | none, some b => past b
  | none, none => none

/-- Keeps the first distance unless the second is strictly smaller, or no number at all. -/
def smaller : Distance K → Distance K → Distance K
  | some a, some b => some (if b < a || Scalar.isUndefined b then b else a)
  | none, b => b
  | a, none => a

def sum (ds : List (Distance K)) : Distance K := ds.foldl add (some 0)

def balancedSum (ds : List (Distance K)) : Distance K :=
  match ds.mapM id with
  | some xs => some (Scalar.balancedSum xs)
  | none => sum ds

end Distance

/-- Distances from each vertex, row by row. -/
structure Metric (K : Type) where
  rows : Array (Array (Distance K))

namespace Metric

def tabulate (n : Nat) (f : Nat → Nat → Distance K) : Metric K :=
  ⟨(Array.range n).map fun i => (Array.range n).map (f i)⟩

def dist (m : Metric K) (i j : Nat) : Distance K := (m.rows.getD i #[]).getD j none

def size (m : Metric K) : Nat := m.rows.size

def lists (m : Metric K) : List (List (Distance K)) := m.rows.toList.map Array.toList

def through (m : Metric K) (k : Nat) : Metric K :=
  tabulate m.size fun i j => Distance.smaller (m.dist i j) ((m.dist k j).add (m.dist i k))

def close (m : Metric K) : Metric K := (List.range m.size).foldl through m

def direct (g : Graph K) (field : String) (u v : Node) : Distance K :=
  match (g.between u v).map fun l => (l.attrs.value? field).getD 1 with
  | [] => none
  | c :: cs => some (cs.foldl Scalar.smaller c)

/-- Distances in a graph between all of its vertices, listed in the given order without repeats. -/
def ofGraph (g : Graph K) (field : String) (order : List Node) :
    Except (Fault K) (Metric K) :=
  if order.length = g.vertices.length ∧ order.Nodup ∧ ∀ v ∈ order, v ∈ g.vertices then
    let vs := order.toArray
    .ok (close (tabulate order.length fun i j =>
      if i = j then some 0 else
      match vs[i]?, vs[j]? with
      | some u, some v => direct g field u v
      | _, _ => none))
  else .error .verticesNotCovered

def restrict (m : Metric K) (n : Nat) : Metric K := tabulate n m.dist

/-- Contracts two vertices: every distance may now run through the pair, either way. -/
def contract (m : Metric K) (s e : Nat) : Metric K :=
  tabulate m.size fun i j =>
    Distance.smaller (m.dist i j)
      (Distance.smaller ((m.dist i s).add (m.dist e j)) ((m.dist i e).add (m.dist s j)))

end Metric

end LPRounding
