import LPRounding.Flow.Network
import LPRounding.Fault

/-!
Minimum cuts read off a maximum flow. The flow is found by a finder that is given from outside; the
source side of the cut is what its residual capacities still reach.
-/

namespace LPRounding

/-- A flow by the net amount it sends from one place to another. -/
structure Flow (K : Type) where
  value : K
  net : Nat → Nat → K

abbrev FlowFinder (V K : Type) := Network V K → Nat → Nat → Flow K

structure Cut (V K : Type) where
  value : K
  /-- The source side, in the order of the network. -/
  reachable : List V

inductive CutFault (V : Type) where
  | sameEnds (v : V)
  | strange (v : V)
  | unbounded
  deriving DecidableEq, Repr

variable {V K : Type} [DecidableEq V] [Scalar K]

/-- Where an arc leads on: forwards as far as it has room, and backwards as far as it carries more
than comes the other way by an arc of its own. -/
def Network.ways (n : Network V K) (f : Flow K) (tolerance : K) : List (Nat × Nat) :=
  let plenty := n.plenty
  let arcs := n.openArcs
  let heads := adjacency n.vertices.length (arcs.map fun a => (a.tail, a.head))
  arcs.flatMap fun a =>
    let forwards := tolerance < Network.amount plenty a - f.net a.tail a.head
    let backwards := a.tail ∉ heads.getD a.head [] && tolerance < 0 - f.net a.head a.tail
    (if forwards then [(a.tail, a.head)] else []) ++
      if backwards then [(a.head, a.tail)] else []

def Network.reachable (n : Network V K) (f : Flow K) (tolerance : K) (s : Nat) : List V :=
  let nexts := adjacency n.vertices.length (n.ways f tolerance)
  let seen := reach (nexts.getD · []) n.vertices.length s
  (n.vertices.zipIdx.filter fun (_, i) => i ∈ seen).map Prod.fst

/-- The ends must differ, then be vertices, the source first; then the cut must be bounded. -/
def Network.minCut (find : FlowFinder V K) (n : Network V K) (tolerance : K) (s t : V) :
    Except (CutFault V) (Cut V K) :=
  if s = t then .error (.sameEnds s)
  else if s ∉ n.vertices then .error (.strange s)
  else if t ∉ n.vertices then .error (.strange t)
  else
    let i := n.place s
    let j := n.place t
    if n.joinsUnbounded i j then .error .unbounded
    else
      let f := find n i j
      .ok { value := f.value, reachable := n.reachable f tolerance i }

def CutFault.toFault : CutFault Site → Fault K
  | .sameEnds s => .sameEnds s
  | .strange s => .strangeSite s
  | .unbounded => .unboundedFlow

def Network.siteCut (find : FlowFinder Site K) (n : Network Site K) (tolerance : K) (s t : Site) :
    Except (Fault K) (Cut Site K) :=
  (n.minCut find tolerance s t).mapError CutFault.toFault

def Cut.nodes (c : Cut Site K) : List Node :=
  c.reachable.filterMap fun
    | .vertex v => some v
    | _ => none

end LPRounding
