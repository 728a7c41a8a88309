import LPRounding.Run.Engine
import LPRounding.Run.Sink

/-!
Tree augmentation: cheapest links that make a spanning tree 2-edge-connected. There is one column
for each link and one row for each tree edge, which some link must bypass.
-/

namespace LPRounding

/-- An edge that is not in the tree, with the tree path between its ends, if there is one. -/
structure TreeLink (K : Type) where
  name : EdgeName
  cost : K
  route : Option (List Node)

structure TreeAugmentation (K : Type) where
  tolerance : Tolerance K
  vertices : List Node
  /-- All edges of the graph. -/
  pairs : List (Node × Node)
  /-- Edges of the tree, in the order of its rows. -/
  tree : List (Node × Node)
  /-- The other edges, in the order of their columns. -/
  links : List (TreeLink K)
  sink : Sink
  chosen : List EdgeName := []
  solutionCost : K

namespace TreeAugmentation

variable {K : Type} [Scalar K]

def isMarked (mark : String) (e : Edge K) : Bool :=
  (e.attrs.value? mark).any fun x => !(x == 0)

/-- The tree path between two vertices, as the tree leads on from the places of its vertices. -/
def route (vertices : List Node) (nexts : Array (List Nat)) (u v : Node) : Option (List Node) :=
  (shortestPath (nexts.getD · []) vertices.length (vertices.idxOf u) (vertices.idxOf v)).map
    fun path => path.filterMap (vertices[·]?)

def make (epsilon : K) (graph : Graph K) (mark costName : String)
    (entries : List Choice) : Except (Fault K) (TreeAugmentation K) := do
  if graph.kind ≠ .simple then throw (.unsuitedGraph .treeAugmentation)
  let tolerance ← Tolerance.ofEpsilon epsilon
  let (marked, others) := graph.edges.partition (isMarked mark)
  let tree : Graph K := marked.foldl (fun t e => t.addLink e.name.u e.name.v [])
    (graph.vertices.foldl (fun t v => t.addVertex v) {})
  let vertices := graph.vertices
  let nexts := adjacency vertices.length (bothWays (places vertices tree.pairs))
  let link (e : Edge K) : TreeLink K :=
    { name := e.name, cost := e.cost costName, route := route vertices nexts e.name.u e.name.v }
  return { tolerance, vertices, pairs := graph.pairs, tree := tree.pairs, links := others.map link
           sink := .ofList entries, solutionCost := 0 }

/-- The tree must have one edge less than vertices and connect them, and the graph must be
2-edge-connected. -/
def issue (p : TreeAugmentation K) : Option (Issue K) :=
  if (p.tree.length : Int) ≠ p.vertices.length - 1 then
    some (.treeSize (p.vertices.length - 1) p.tree.length)
  else if !isConnected p.vertices p.tree then some .treeApart
  else if !isTwoEdgeConnected p.vertices p.pairs then some .bridged
  else none

def passes (f : Node × Node) : List Node → Bool
  | a :: b :: rest => (a, b) = f || (b, a) = f || passes f (b :: rest)
  | _ => false

def covers (f : Node × Node) (l : TreeLink K) : Bool := l.route.any (passes f)

def coveredBy (p : TreeAugmentation K) (f : Node × Node) : List Nat :=
  Model.positions (covers f) p.links

def column (l : TreeLink K) : Column K :=
  { cost := l.cost, bound := { kind := .lower, lo := 0, hi := 0 } }

def coverRow (p : TreeAugmentation K) (f : Node × Node) : Row K :=
  { bound := { kind := .lower, lo := 1, hi := 0 }
    coefs := (p.coveredBy f).map fun j => (j, 1) }

def model (p : TreeAugmentation K) : Model K :=
  { name := "tree augmentation", columns := p.links.map column
    rows := p.tree.map p.coverRow, loaded := true }

def build : Action (TreeAugmentation K) K Unit := do
  let p ← Action.problem
  match p.links.find? fun l => l.route.isNone with
  | some l => throw (.noPath l.name.u l.name.v)
  | none => Action.setModel p.model

def commit (column : Nat) : Action (TreeAugmentation K) K Unit := do
  let p ← Action.problem
  match p.links[column]? with
  | none => throw (.missingKey (.number column))
  | some l =>
    modify fun s => { s with problem := { p with
      sink := p.sink.push (.edge l.name)
      chosen := p.chosen ++ [l.name]
      solutionCost := p.solutionCost + l.cost } }

def isChosen (p : TreeAugmentation K) (l : EdgeName) : Bool := p.chosen.contains l

/-- The row of a tree edge may go once a chosen link covers the edge. -/
def isCovered (p : TreeAugmentation K) (row : Nat) : Bool :=
  p.tree[row]?.any fun f => p.links.any fun l => p.isChosen l.name && covers f l

instance : Roundable (TreeAugmentation K) K where
  tolerance p := p.tolerance
  check := return (← Action.problem).issue
  discard p := { p with sink := p.sink.withdraw, chosen := [], solutionCost := 0 }
  commit := commit

def policies [Backend K] : Policies (TreeAugmentation K) K :=
  { init := build
    rounding := .perColumn RoundRule.commitHalf.apply
    relax := fun row => return (← Action.problem).isCovered row
    solve := SolveRule.plain.apply
    resolve := SolveRule.plain.apply
    stop := StopRule.allFixed.apply }

end TreeAugmentation

end LPRounding
