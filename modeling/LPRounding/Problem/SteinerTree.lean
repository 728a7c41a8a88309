import LPRounding.Run.Engine
import LPRounding.Run.Sink
import LPRounding.Separation.Oracle
import LPRounding.Problem.Component

/-!
Steiner trees by picking components at random. Each round solves a model over the components of the
terminals that are left, picks one with a probability in proportion to its value, takes it into the
answer and merges its sources into its sink, until one terminal is left.
-/

namespace LPRounding

structure SteinerTree (K S : Type) where
  tolerance : Tolerance K
  graph : Graph K
  costName : String
  /-- Terminals that were not merged into another one. -/
  terminals : List Node
  steiner : List Node
  /-- Terminals at the start and Steiner vertices, in the order of the metric. -/
  vertices : List Node
  /-- Most terminals in one component. -/
  limit : Nat
  sink : Sink
  solutionCost : K
  metric : Option (Metric K) := none
  /-- Components of the current model, in the order of its columns. -/
  components : List (Component K) := []
  oracle : Oracle K S Node (Network Site K)
  /-- The source of the picks. -/
  dice : S

namespace SteinerTree

variable {K S : Type} [Scalar K]

/-- Repeated terminals count once, and a terminal is no Steiner vertex. Where no Steiner vertices
are named, all other vertices are. -/
def make (epsilon : K) (graph : Graph K) (terminals : List Node)
    (steiner : Option (List Node)) (costName : String) (limit : Int) (entries : List Choice)
    (strategy : Strategy) (searchDice pickDice : S) : Except (Fault K) (SteinerTree K S) := do
  if graph.kind = .directed then throw (.unsuitedGraph .steinerTree)
  let tolerance ← Tolerance.ofEpsilon epsilon
  let terminals := extend [] terminals
  let steiner := (extend [] (steiner.getD graph.vertices)).filter fun v => v ∉ terminals
  return { tolerance, graph, costName, terminals, steiner, vertices := terminals ++ steiner
           limit := limit.toNat, sink := .ofList entries, solutionCost := 0
           oracle := { strategy, dice := searchDice }, dice := pickDice }

def standardLimit : Int := 3

def checkLimit (limit : Int) : Except (Fault K) Unit :=
  if limit < 2 then .error (.smallComponents limit) else .ok ()

def checkerName : String := "SteinerTreeViolationChecker"

def issue (p : SteinerTree K S) : Option (Issue K) :=
  match p.terminals.find? fun v => v ∉ p.graph.vertices with
  | some v => some (.strangeTerminal v)
  | none =>
    match p.steiner.find? fun v => v ∉ p.graph.vertices with
    | some v => some (.strangeSteinerVertex v)
    | none =>
      match p.terminals with
      | [] => none
      | root :: rest =>
        let component := connectedTo p.graph.vertices p.graph.pairs root
        (rest.find? fun v => v ∉ component).map (.terminalsApart root)

def place (p : SteinerTree K S) (v : Node) : Nat := p.vertices.idxOf v

/-- Shortest paths may pass through vertices that are neither terminals nor Steiner vertices. -/
def distances (p : SteinerTree K S) : Except (Fault K) (Metric K) := do
  let others := p.graph.vertices.filter fun v => v ∉ p.vertices
  return (← Metric.ofGraph p.graph p.costName (p.vertices ++ others)).restrict p.vertices.length

/-- Every source leads to the place of its component without a bound, and that to the sink with
the value of the component. -/
def network (p : SteinerTree K S) (entries : List (Nat × Component K × K)) : Network Site K :=
  entries.foldl
    (fun n (j, c, x) =>
      (c.sources.foldl (fun n v => n.setArc (.vertex v) (.component j) none) n).setArc
        (.component j) (.vertex c.sink) (some x))
    (.ofVertices (p.terminals.map .vertex))

def prepare (p : SteinerTree K S) (m : Model K) :
    Except (Fault K) (Network Site K × List Node) := do
  let entries ← p.components.zipIdx.mapM fun (c, j) => return (j, c, ← m.columnValue j)
  return (p.network (entries.filter fun (_, _, x) => p.tolerance.above x 0), p.terminals.tail)

def measure [Backend K] (p : SteinerTree K S) (n : Network Site K) (v : Node) :
    Except (Fault K) (Violation K Node) := do
  let root := p.terminals.headD v
  let cut ← n.siteCut Backend.flow p.tolerance.epsilon (.vertex v) (.vertex root)
  return { magnitude := 1 - cut.value, candidate := v
           witness := cut.nodes.filter (· ∈ p.terminals), side := 1 }

/-- A component leaves a set when one of its sources is inside and its sink is not. -/
def leaves (c : Component K) (set : List Node) : Bool :=
  c.sink ∉ set && c.sources.any (· ∈ set)

def cutRow (p : SteinerTree K S) (v : Violation K Node) : Row K :=
  cover .lower v.side 0 (Model.positions (leaves · v.witness) p.components)

def checker [Backend K] : Checker (SteinerTree K S) K Node (Network Site K) where
  prepare := prepare
  check := measure
  row := cutRow
  describe := .node

def home : Oracle.Home (SteinerTree K S) K S Node (Network Site K) where
  get p := p.oracle
  set p oracle := { p with oracle }

instance [Backend K] [Dice S K] : Roundable (SteinerTree K S) K where
  tolerance p := p.tolerance
  check := return (← Action.problem).issue
  discard p := { p with sink := p.sink.withdraw, solutionCost := 0 }
  feasible := Oracle.feasible home checker tolerance
  separate := Oracle.separate home checker

def column (c : Component K) : Column K :=
  { cost := c.cost, bound := { kind := .double, lo := 0, hi := 1 } }

def model (components : List (Component K)) : Model K :=
  { name := "steiner tree", columns := components.map column, loaded := true }

/-- The distances are computed when they are first needed; a single terminal needs none. -/
def generate (p : SteinerTree K S) : Except (Fault K) (SteinerTree K S) :=
  if p.terminals.length < 2 then .ok { p with components := [] }
  else do
    let metric ← match p.metric with
      | some m => pure m
      | none => p.distances
    let components ←
      Component.all p.tolerance metric p.place p.terminals p.steiner p.limit
    return { p with metric := some metric, components }

def build : Action (SteinerTree K S) K Unit := do
  let p ← (← Action.problem).generate
  modify fun s => { s with problem := p, lp := model p.components }

def addVertex (s : Sink) (v : Node) : Sink :=
  if .vertex v ∈ s.added then s else s.push (.vertex v)

def take (c : Component K) (p : SteinerTree K S) : SteinerTree K S :=
  { p with sink := c.steiner.foldl addVertex p.sink, solutionCost := p.solutionCost + c.cost }

def merge (sink source : Node) : EStateM (Fault K) (SteinerTree K S) Unit := do
  let p ← get
  if sink ∉ p.vertices then throw (.missingKey (.node sink))
  if source ∉ p.vertices then throw (.missingKey (.node source))
  match p.metric with
  | none => throw .noDistances
  | some m => set { p with metric := some (m.contract (p.place sink) (p.place source)) }

/-- A source that was merged is no terminal any more; it must have been one. -/
def retire (source : Node) : EStateM (Fault K) (SteinerTree K S) Unit := do
  let p ← get
  if source ∉ p.terminals then throw .notListed
  set { p with terminals := p.terminals.erase source }

/-- Merges the sources one after the other; the components are then out of date. -/
def contract (sink : Node) (sources : List Node) : EStateM (Fault K) (SteinerTree K S) Unit := do
  sources.forM fun v => do
    merge sink v
    retire v
  modify fun p => { p with components := [] }

def accept (c : Component K) : Action (SteinerTree K S) K Unit := do
  modify fun s => { s with problem := take c s.problem }
  Action.onProblem (contract c.sink c.sources)

def select [Dice S K] (weights : List K) : EStateM (Fault K) (SteinerTree K S) Nat := do
  let p ← get
  let (i, dice) ← Dice.weighted weights p.dice
  set { p with dice }
  return i

/-- Picks a component by the values of the columns, where negative ones count as zero. -/
def pick [Dice S K] : Action (SteinerTree K S) K Unit := do
  let p ← Action.problem
  let m ← Action.model
  let values ← ((List.range p.components.length).mapM m.columnValue : Except (Fault K) (List K))
  let i ← Action.onProblem (select (values.map fun x => Scalar.larger x 0))
  match p.components[i]? with
  | none => throw (.missingKey (.number i))
  | some c =>
    Action.note (.picked c.sink c.sources c.steiner c.cost)
    accept c

def policies [Backend K] [Dice S K] : Policies (SteinerTree K S) K :=
  { init := build
    rounding := .wholePoint pick
    solve := SolveRule.generating.apply
    resolve := SolveRule.generating.apply
    stop := return decide ((← Action.problem).terminals.length < 2) }

def solve [Backend K] [Dice S K] (policies : Policies (SteinerTree K S) K) :
    Action (SteinerTree K S) K (Outcome K) := do
  let outcome ← Engine.solveDependentProblem policies
  match outcome.status with
  | .optimal => return { outcome with objective := some (← Action.problem).solutionCost }
  | _ => return outcome

end SteinerTree

end LPRounding
