import LPRounding.Run.Engine
import LPRounding.Run.Sink
import LPRounding.Separation.Oracle
import LPRounding.Graph.Forest

/-!
Steiner networks: cheapest edges that join each pair of vertices by as many edge-disjoint paths as
it requires. There is one column for each edge of the graph; the rows are cuts between required
pairs, found when they are violated.
-/

namespace LPRounding

structure SteinerNetwork (K S : Type) where
  tolerance : Tolerance K
  graph : Graph K
  /-- Edges of the graph, in the order of their columns. -/
  edges : List (Edge K)
  requirements : Requirements K
  costName : String
  sink : Sink
  /-- Pairs whose requirements imply all others. -/
  pairs : List (Node × Node)
  oracle : Oracle K S (Node × Node) (Network Site K)

namespace SteinerNetwork

variable {K S : Type} [Scalar K]

def make (epsilon : K) (graph : Graph K) (requirements : Requirements K)
    (costName : String) (entries : List Choice) (strategy : Strategy) (dice : S) :
    Except (Fault K) (SteinerNetwork K S) := do
  if graph.kind = .directed then throw (.unsuitedGraph .steinerNetwork)
  let pairs ← requirements.prune graph.vertices
  let tolerance ← Tolerance.ofEpsilon epsilon
  return { tolerance, graph, edges := graph.edges, requirements, costName, pairs
           sink := .ofList entries, oracle := { strategy, dice } }

def checkerName : String := "SteinerNetworkViolationChecker"

def emptyNetwork (p : SteinerNetwork K S) : Network Site K :=
  .ofVertices (p.graph.vertices.map .vertex)

def joined (n : Network Site K) (entries : List (Edge K × K)) : Network Site K :=
  entries.foldl (fun n (e, c) => n.addEdge (.vertex e.name.u) (.vertex e.name.v) c) n

def point (p : SteinerNetwork K S) (m : Model K) : Except (Fault K) (List (Edge K × K)) :=
  p.edges.zipIdx.mapM fun (e, j) => return (e, ← m.columnValue j)

def prepare (p : SteinerNetwork K S) (m : Model K) :
    Except (Fault K) (Network Site K × List (Node × Node)) := do
  let entries ← p.point m
  return (joined p.emptyNetwork (entries.filter fun (_, x) => p.tolerance.above x 0), p.pairs)

/-- How far the least cut between two vertices stays below what they require. -/
def measure [Backend K] (p : SteinerNetwork K S) (n : Network Site K) (pair : Node × Node) :
    Except (Fault K) (Violation K (Node × Node)) := do
  let need := p.requirements.need pair.1 pair.2
  let cut ← n.siteCut Backend.flow p.tolerance.epsilon (.vertex pair.1) (.vertex pair.2)
  return { magnitude := need - cut.value, candidate := pair, witness := cut.nodes, side := need }

def crossing (p : SteinerNetwork K S) (set : List Node) : List Nat :=
  Model.positions (fun e => (e.name.u ∈ set) != (e.name.v ∈ set)) p.edges

def cutRow (p : SteinerNetwork K S) (v : Violation K (Node × Node)) : Row K :=
  cover .lower v.side 0 (p.crossing v.witness)

def checker [Backend K] : Checker (SteinerNetwork K S) K (Node × Node) (Network Site K) where
  prepare := prepare
  check := measure
  row := cutRow
  describe pair := .pair pair.1 pair.2

def home : Oracle.Home (SteinerNetwork K S) K S (Node × Node) (Network Site K) where
  get p := p.oracle
  set p oracle := { p with oracle }

def fullNetwork (p : SteinerNetwork K S) : Network Site K :=
  joined p.emptyNetwork (p.edges.map fun e => (e, 1))

def firstUnmet [Backend K] (p : SteinerNetwork K S) (n : Network Site K) :
    List (Node × Node) → Except (Fault K) (Option (Violation K (Node × Node)))
  | [] => return none
  | pair :: rest => do
    let v ← p.measure n pair
    if Search.violated p.tolerance v then return some v else firstUnmet p n rest

/-- The requirements must be about vertices of the graph, and all of its edges together must meet
them. -/
def check [Backend K] : Action (SteinerNetwork K S) K (Option (Issue K)) := do
  let p ← Action.problem
  match p.pairs.find? fun (u, v) => u ∉ p.graph.vertices || v ∉ p.graph.vertices with
  | some (u, v) => return some (.strangePair u v)
  | none =>
    match ← (p.firstUnmet p.fullNetwork p.pairs : Except (Fault K) _) with
    | none => return none
    | some v =>
      Action.note (.requirementUnmet (.pair v.candidate.1 v.candidate.2) v.side
        (v.side - v.magnitude))
      return some .noNetwork

def exists? [Backend K] (p : SteinerNetwork K S) : Except (Fault K) Bool :=
  return (← p.firstUnmet p.fullNetwork p.pairs).isNone

def commit (column : Nat) : Action (SteinerNetwork K S) K Unit := do
  let p ← Action.problem
  match p.edges[column]? with
  | none => throw (.missingKey (.number column))
  | some e => modify fun s => { s with problem := { p with sink := p.sink.push (.edge e.name) } }

instance [Backend K] [Dice S K] : Roundable (SteinerNetwork K S) K where
  tolerance p := p.tolerance
  check := check
  discard p := { p with sink := p.sink.withdraw }
  commit := commit
  feasible := Oracle.feasible home checker tolerance
  separate := Oracle.separate home checker

def column (p : SteinerNetwork K S) (e : Edge K) : Column K :=
  { cost := e.cost p.costName, bound := { kind := .double, lo := 0, hi := 1 } }

def model (p : SteinerNetwork K S) : Model K :=
  { name := "steiner network", columns := p.edges.map p.column, loaded := true }

def build : Action (SteinerNetwork K S) K Unit := do Action.setModel (← Action.problem).model

/-- Edges at zero are dropped, edges at a half or more are taken. -/
def policies [Backend K] [Dice S K] : Policies (SteinerNetwork K S) K :=
  { init := build
    rounding := .perColumn RoundRule.commitHalf.apply
    solve := SolveRule.generating.apply
    resolve := SolveRule.generating.apply
    stop := StopRule.allFixed.apply }

end SteinerNetwork

end LPRounding
