import LPRounding.Run.Engine
import LPRounding.Run.Sink
import LPRounding.Separation.Oracle

/-!
Spanning trees with degree bounds: a cheapest tree that exceeds no bound by more than one. There is
one column for each edge; the rows are the number of edges, the degree bounds, and the vertex sets
that hold too many edges for a tree, found when they are violated.
-/

namespace LPRounding

/-- A point, ready for cuts: an auxiliary network in which a cheap cut is a set of vertices with
too much inside. -/
structure TreePoint (K : Type) where
  values : List K
  network : Network Site K

structure BoundedTree (K S : Type) where
  tolerance : Tolerance K
  graph : Graph K
  /-- Edges of the graph, in the order of their columns. -/
  edges : List (Edge K)
  bounds : List (Node × Int)
  costName : String
  sink : Sink
  /-- Ends of the edges taken so far. -/
  committed : List (Node × Node) := []
  oracle : Oracle K S Node (TreePoint K)

namespace BoundedTree

variable {K S : Type} [Scalar K]

def make (epsilon : K) (graph : Graph K) (bounds : List (Node × Int))
    (costName : String) (entries : List Choice) (strategy : Strategy) (dice : S) :
    Except (Fault K) (BoundedTree K S) := do
  if graph.kind ≠ .simple then throw (.unsuitedGraph .boundedDegreeTree)
  let tolerance ← Tolerance.ofEpsilon epsilon
  return { tolerance, graph, edges := graph.edges, bounds, costName, sink := .ofList entries
           oracle := { strategy, dice } }

def checkerName : String := "BoundedDegreeMSTViolationChecker"

/-- The bound of a vertex; of several the last one. -/
def bound? (p : BoundedTree K S) (v : Node) : Option Int :=
  (p.bounds.reverse.find? fun (u, _) => u = v).map Prod.snd

def boundedVertices (p : BoundedTree K S) : List Node :=
  p.graph.vertices.filter fun v => (p.bound? v).isSome

def issue (p : BoundedTree K S) : Option (Issue K) :=
  if p.graph.vertices.isEmpty then some .emptyGraph
  else if !isConnected p.graph.vertices p.graph.pairs then some .apart
  else none

/-- Sum of the values at a vertex; a loop counts twice. -/
def load (entries : List (Edge K × K)) (v : Node) : K :=
  entries.foldl
    (fun total (e, x) =>
      let total := if e.name.u = v then total + x else total
      if e.name.v = v then total + x else total) 0

/-- Capacities `x` between vertices, the largest load from the source to every vertex, and from
every vertex to the sink that load and two more, less its own. -/
def auxiliary (p : BoundedTree K S) (entries : List (Edge K × K)) : Network Site K :=
  let vs := p.graph.vertices
  let largest := Scalar.largest 0 (vs.map (load entries))
  let inner := entries.foldl
    (fun n (e, x) => n.addEdge (.vertex e.name.u) (.vertex e.name.v) x)
    (.ofVertices (vs.map .vertex))
  vs.foldl
    (fun n v =>
      (n.setArc .source (.vertex v) (some largest)).setArc (.vertex v) .sink
        (some (largest + Scalar.ofInt 2 - load entries v)))
    inner

def prepare (p : BoundedTree K S) (m : Model K) :
    Except (Fault K) (TreePoint K × List Node) := do
  let values ← p.edges.zipIdx.mapM fun (_, j) => m.columnValue j
  let entries := (p.edges.zip values).filter fun (_, x) => p.tolerance.above x 0
  return ({ values, network := p.auxiliary entries }, p.graph.vertices)

def inside (p : BoundedTree K S) (values : List K) (set : List Node) : K :=
  Scalar.sum ((p.edges.zip values).filterMap fun (e, x) =>
    if e.name.u ∈ set ∧ e.name.v ∈ set then some x else none)

/-- The set with the largest excess among those that hold the vertex, whose arc from the source is
made unbounded. -/
def measure [Backend K] (p : BoundedTree K S) (t : TreePoint K) (v : Node) :
    Except (Fault K) (Violation K Node) := do
  let forced := t.network.release .source (.vertex v)
  let cut ← forced.siteCut Backend.flow p.tolerance.epsilon .source .sink
  let set := cut.nodes
  let side : K := Scalar.ofInt ((set.length : Int) - 1)
  return { magnitude := p.inside t.values set - side, candidate := v, witness := set, side }

def within (p : BoundedTree K S) (set : List Node) : List Nat :=
  Model.positions (fun e => e.name.u ∈ set && e.name.v ∈ set) p.edges

def subtourRow (p : BoundedTree K S) (v : Violation K Node) : Row K :=
  cover .upper 0 v.side (p.within v.witness)

def checker [Backend K] : Checker (BoundedTree K S) K Node (TreePoint K) where
  prepare := prepare
  check := measure
  row := subtourRow
  describe := .node

def home : Oracle.Home (BoundedTree K S) K S Node (TreePoint K) where
  get p := p.oracle
  set p oracle := { p with oracle }

def commit (column : Nat) : Action (BoundedTree K S) K Unit := do
  let p ← Action.problem
  match p.edges[column]? with
  | none => throw (.missingKey (.number column))
  | some e =>
    modify fun s => { s with problem := { p with
      sink := p.sink.push (.edge e.name)
      committed := p.committed ++ [(e.name.u, e.name.v)] } }

def committedDegree (p : BoundedTree K S) (v : Node) : Nat := degree p.committed v

instance [Backend K] [Dice S K] : Roundable (BoundedTree K S) K where
  tolerance p := p.tolerance
  check := return (← Action.problem).issue
  discard p := { p with sink := p.sink.withdraw, committed := [] }
  commit := commit
  feasible := Oracle.feasible home checker tolerance
  separate := Oracle.separate home checker

def column (p : BoundedTree K S) (e : Edge K) : Column K :=
  { cost := e.cost p.costName, bound := { kind := .double, lo := 0, hi := 1 } }

def sizeRow (p : BoundedTree K S) : Row K :=
  cover .fixed (Scalar.ofInt ((p.graph.vertices.length : Int) - 1)) 0
    (List.range p.edges.length)

def degreeRow (p : BoundedTree K S) (v : Node) : Row K :=
  cover .upper 0 (Scalar.ofInt ((p.bound? v).getD 0))
    (Model.positions (fun e => e.name.u = v || e.name.v = v) p.edges)

def model (p : BoundedTree K S) : Model K :=
  { name := "bounded degree minimum spanning tree", columns := p.edges.map p.column
    rows := p.sizeRow :: p.boundedVertices.map p.degreeRow, loaded := true }

def build : Action (BoundedTree K S) K Unit := do Action.setModel (← Action.problem).model

def rowVertex (p : BoundedTree K S) : Nat → Option Node
  | 0 => none
  | row + 1 => p.boundedVertices[row]?

/-- A degree row may go when all open edges of the row together exceed the bound by one at most. -/
def relaxable (row : Nat) : Action (BoundedTree K S) K Bool := do
  let p ← Action.problem
  match p.rowVertex row with
  | none => return false
  | some v =>
    let support := (← (← Action.model).rowDegree row) + p.committedDegree v
    return decide ((support : Int) ≤ (p.bound? v).getD 0 + 1)

def policies [Backend K] [Dice S K] : Policies (BoundedTree K S) K :=
  { init := build
    rounding := .perColumn RoundRule.commitOne.apply
    relax := relaxable
    solve := SolveRule.generating.apply
    resolve := SolveRule.generating.apply
    stop := StopRule.allFixed.apply }

end BoundedTree

end LPRounding
