import LPRounding.LP.Bound
import LPRounding.LP.Status
import LPRounding.Node
import LPRounding.Decimal.Shortest

/-!
Everything that can go wrong, by cause, and the wording of each cause.
-/

namespace LPRounding

inductive SystemPart where
  | cost
  | atMostCoefs
  | atMostSides
  | equalCoefs
  | equalSides
  deriving DecidableEq, Repr

inductive Key where
  | number (n : Int)
  | node (v : Node)
  | pair (a b : Int)
  | capacity
  deriving DecidableEq, Repr

inductive GraphUser where
  | steinerNetwork
  | treeAugmentation
  | boundedDegreeTree
  | steinerTree
  deriving DecidableEq, Repr

/-- Why an instance is refused before any model is built. -/
inductive Issue (K : Type) where
  | note (text : String)
  | strangePair (u v : Node)
  | noNetwork
  | treeSize (expected actual : Int)
  | treeApart
  | bridged
  | emptyGraph
  | apart
  | strangeTerminal (v : Node)
  | strangeSteinerVertex (v : Node)
  | terminalsApart (u v : Node)
  | directedCut
  | noRoundings (asked : Int)
  | negativeColor
  | negativeWeight (u v : Node) (weight : K)

inductive Fault (K : Type) where
  | negativeEpsilon (epsilon : K)
  | unknownName (subject text : String) (valid : List String)
  | noUpperBound (kind : BoundKind)
  | emptyColumnBound (lo hi : K)
  | emptyRowBound (lo hi : K)
  | unknownColumn (id : Int)
  | unknownRow (id : Int)
  | alreadyFixed (column : Nat) (value : K)
  | alreadyRelaxed (row : Nat)
  | notLoaded
  | notFinite (part : SystemPart)
  | noSolution (model : String)
  | undecided (model : String)
  | unsolvedCut (status : Status)
  | outOfRange (index : Int) (size : Nat)
  | unequalLengths (actual expected : Nat)
  | noCoordinates
  | noMachines
  | noEntry
  | noPlace
  | noConditions
  | limitNotPositive (limit : Int)
  | invalidInput (issue : Issue K)
  | stuck (iteration : Nat) (model : String) (columns rows : Nat)
  | unsuitedGraph (user : GraphUser)
  | smallComponents (limit : Int)
  | notPrepared
  | noViolation
  | sameEnds (s : Site)
  | strangeSite (s : Site)
  | unboundedFlow
  | missingKey (key : Key)
  | notListed
  | undefinedWeight (u v : Node)
  | verticesNotCovered
  | noPath (u v : Node)
  | emptyRange
  | weightsNotPositive
  | weightsNotFinite
  | unknownLevel (text : String)
  | noWholeColor (color : K)
  | noDistances
  | noCommitment
  | wrongRounding
  | unfinished

def SystemPart.symbol : SystemPart → String
  | .cost => "c"
  | .atMostCoefs => "A_ub"
  | .atMostSides => "b_ub"
  | .equalCoefs => "A_eq"
  | .equalSides => "b_eq"

def Key.text : Key → String
  | .number n => toString n
  | .node v => v.text
  | .pair a b => tupleText [toString a, toString b]
  | .capacity => "capacity"

def GraphUser.complaint : GraphUser → String
  | .steinerNetwork => "Steiner network requires an undirected graph."
  | .treeAugmentation => "Tree augmentation requires an undirected simple graph."
  | .boundedDegreeTree => "Bounded-degree MST requires an undirected simple graph."
  | .steinerTree => "Steiner tree requires an undirected graph."

def Issue.message : Issue Float → String
  | .note text => text
  | .strangePair u v =>
    "Restriction (" ++ u.text ++ ", " ++ v.text ++ ") refers to a vertex outside the graph."
  | .noNetwork => "A Steiner network satisfying the restrictions does not exist."
  | .treeSize expected actual =>
    "Incorrect number of edges in the spanning tree. Should be " ++ toString expected ++
      ", but it is " ++ toString actual ++ "."
  | .treeApart => "The spanning tree is not connected."
  | .bridged => "The graph is not 2-edge-connected."
  | .emptyGraph => "The graph is empty."
  | .apart => "The graph is not connected."
  | .strangeTerminal v => "Terminal " ++ v.text ++ " is not a vertex of the graph."
  | .strangeSteinerVertex v => "Steiner vertex " ++ v.text ++ " is not a vertex of the graph."
  | .terminalsApart u v => "Terminals " ++ u.text ++ " and " ++ v.text ++ " are not connected."
  | .directedCut => "Multiway cut requires an undirected graph."
  | .noRoundings asked => "iterations must be positive, got " ++ toString asked
  | .negativeColor => "Vertex colors must be non-negative."
  | .negativeWeight u v weight =>
    "Edge (" ++ u.text ++ ", " ++ v.text ++ ") has negative weight " ++
      Decimal.shortest weight ++ "."

def Fault.message : Fault Float → String
  | .negativeEpsilon epsilon => "epsilon must be non-negative, got " ++ Decimal.shortest epsilon
  | .unknownName subject text valid =>
    "Invalid " ++ subject ++ " '" ++ text ++ "'. Valid values are: " ++
      String.intercalate ", " valid
  | .noUpperBound kind => "Bound type " ++ Named.name kind ++ " requires an upper bound."
  | .emptyColumnBound lo hi =>
    "Invalid column bounds: lo=" ++ Decimal.shortest lo ++ " > hi=" ++ Decimal.shortest hi ++ "."
  | .emptyRowBound lo hi =>
    "Invalid row bounds: lo=" ++ Decimal.shortest lo ++ " > hi=" ++ Decimal.shortest hi ++ "."
  | .unknownColumn id => "Unknown column id " ++ toString id ++ "."
  | .unknownRow id => "Unknown row id " ++ toString id ++ "."
  | .alreadyFixed column value =>
    "Column " ++ toString column ++ " is already fixed to " ++ Decimal.shortest value ++ "."
  | .alreadyRelaxed row => "Row " ++ toString row ++ " is already relaxed."
  | .notLoaded => "load_matrix() must be called before solving the LP."
  | .notFinite part =>
    "Invalid input for linprog: " ++ part.symbol ++ " must not contain values inf, nan, or None"
  | .noSolution model => "LP '" ++ model ++ "' has no optimal solution."
  | .undecided model => "LP '" ++ model ++ "' failed with status 4: (HiGHS Status 15: Unknown)"
  | .unsolvedCut status => "Multiway cut relaxation is " ++ Named.name status ++ "."
  | .outOfRange index size =>
    "index " ++ toString index ++ " is out of bounds for axis 0 with size " ++ toString size
  | .unequalLengths actual expected =>
    "boolean index did not match indexed array along axis 0; size of axis is " ++
      toString actual ++ " but size of corresponding boolean axis is " ++ toString expected
  | .noCoordinates => "index -1 is out of bounds for axis 1 with size 0"
  | .noMachines => "integer division or modulo by zero"
  | .noEntry => "list index out of range"
  | .noPlace => "list assignment index out of range"
  | .noConditions => "At least one round condition is required."
  | .limitNotPositive limit => "limit must be positive, got " ++ toString limit
  | .invalidInput issue => issue.message
  | .stuck iteration model columns rows =>
    "Iteration " ++ toString iteration ++ " of '" ++ model ++
      "' neither rounded nor relaxed anything (" ++ toString columns ++ " active columns, " ++
      toString rows ++ " active rows)."
  | .unsuitedGraph user => user.complaint
  | .smallComponents limit => "max_terminals must be at least 2, got " ++ toString limit
  | .notPrepared => "prepare() must be called before check_violation()."
  | .noViolation => "No violated constraint recorded; call feasible() first."
  | .sameEnds s => "Source and sink must differ, got '" ++ s.text ++ "' twice."
  | .strangeSite s => "node " ++ s.text ++ " not in graph"
  | .unboundedFlow => "Infinite capacity path, flow unbounded above."
  | .missingKey key => key.text
  | .notListed => "list.remove(x): x not in list"
  | .undefinedWeight u v =>
    "NaN found as an edge weight. Edge " ++
      tupleText [u.quoted, v.quoted, "\x7b'weight': nan\x7d"]
  | .verticesNotCovered =>
    "nodelist must contain every node in G with no repeats. " ++
      "If you wanted a subgraph of G use G.subgraph(nodelist)"
  | .noPath u v => "No path between " ++ u.text ++ " and " ++ v.text ++ "."
  | .emptyRange => "empty range for randrange()"
  | .weightsNotPositive => "Total of weights must be greater than zero"
  | .weightsNotFinite => "Total of weights must be finite"
  | .unknownLevel text => "Unknown logging level name '" ++ text ++ "'"
  | .noWholeColor color =>
    "cannot convert float " ++ (if color.isNaN then "NaN" else "infinity") ++ " to integer"
  | .noDistances => "'NoneType' object is not subscriptable"
  | .noCommitment => "the problem has no elements to commit"
  | .wrongRounding => "the rounding rule does not fit this run"
  | .unfinished => "the allowance of passes is used up"

def Named.parse {K α : Type} [Named α] (text : String) : Except (Fault K) α :=
  match Named.ofName? (α := α) text with
  | some a => .ok a
  | none => .error (.unknownName (Named.subject α) text (Named.names α))

end LPRounding
