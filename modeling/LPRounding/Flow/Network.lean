import LPRounding.Scalar
import LPRounding.Graph.Reach

/-!
Directed networks with arc capacities. Arcs run between the places of the vertices in the list of
all vertices. There is at most one arc between two places in each direction; an arc without a
capacity is unbounded.
-/

namespace LPRounding

structure Arc (V K : Type) where
  tail : V
  head : V
  capacity : Option K

/-- Arcs are kept in the order in which they were first added. -/
structure Network (V K : Type) where
  vertices : List V := []
  arcs : List (Arc Nat K) := []

variable {V K : Type} [DecidableEq V] [Scalar K]

namespace Network

def addVertex (n : Network V K) (v : V) : Network V K :=
  if v ∈ n.vertices then n else { n with vertices := n.vertices ++ [v] }

def ofVertices (vs : List V) : Network V K := vs.foldl addVertex {}

def place (n : Network V K) (v : V) : Nat := n.vertices.idxOf v

def isArc (i j : Nat) (a : Arc Nat K) : Bool := a.tail = i && a.head = j

def arc? (n : Network V K) (u v : V) : Option (Arc Nat K) :=
  n.arcs.find? (isArc (n.place u) (n.place v))

/-- Changes the arc from `u` to `v`, or adds it with the capacity that stands for no arc yet. -/
def update (n : Network V K) (u v : V) (new : Option K) (change : Option K → Option K) :
    Network V K :=
  let n := (n.addVertex u).addVertex v
  let i := n.place u
  let j := n.place v
  match n.arcs.find? (isArc i j) with
  | none => { n with arcs := n.arcs ++ [{ tail := i, head := j, capacity := new }] }
  | some _ =>
    { n with arcs := n.arcs.map fun a =>
        if isArc i j a then { a with capacity := change a.capacity } else a }

/-- A capacity replaces the old one; no capacity leaves the old one in place. -/
def setArc (n : Network V K) (u v : V) (capacity : Option K) : Network V K :=
  n.update u v capacity fun old => capacity.orElse fun _ => old

def release (n : Network V K) (u v : V) : Network V K := n.update u v none fun _ => none

def addArc (n : Network V K) (u v : V) (c : K) : Network V K :=
  n.update u v (some c) fun old => old.map (· + c)

/-- One arc in each direction. -/
def addEdge (n : Network V K) (u v : V) (c : K) : Network V K := (n.addArc u v c).addArc v u c

/-- Adding an edge needs a capacity on the arcs that are already there. -/
def acceptsEdge (n : Network V K) (u v : V) : Bool :=
  (n.arc? u v).all (fun a => a.capacity.isSome) && (n.arc? v u).all (fun a => a.capacity.isSome)

end Network

def Arc.isOpen (a : Arc Nat K) : Bool := a.tail ≠ a.head && a.capacity.all fun c => 0 < c

def Arc.bound? (a : Arc Nat K) : Option K := a.capacity.filter fun c => !Scalar.isInfinite c

namespace Network

def openArcs (n : Network V K) : List (Arc Nat K) := n.arcs.filter Arc.isOpen

def leaving (n : Network V K) (v : V) : List (Arc V K) :=
  (n.arcs.filter fun a => a.tail = n.place v).filterMap fun a =>
    n.vertices[a.head]?.map fun head => { tail := v, head, capacity := a.capacity }

/-- What an unbounded arc is reckoned with: three times all finite capacity, or one. -/
def plenty (n : Network V K) : K :=
  let total := Scalar.sum (n.openArcs.filterMap Arc.bound?)
  if total == 0 then 1 else Scalar.ofInt 3 * total

def amount (plenty : K) (a : Arc Nat K) : K := a.bound?.getD plenty

def joinsUnbounded (n : Network V K) (i j : Nat) : Bool :=
  let wide := n.openArcs.filter fun a => a.bound?.isNone
  let nexts := adjacency n.vertices.length (wide.map fun a => (a.tail, a.head))
  j ∈ reach (nexts.getD · []) n.vertices.length i

end Network

end LPRounding
