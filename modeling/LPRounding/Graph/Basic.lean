import LPRounding.Scalar
import LPRounding.Node
import LPRounding.Graph.Reach

/-!
Graphs with attributes on vertices and edges. Vertices and edges keep the order in which they were
first added, and `Graph.edges` is the order in which every problem numbers them: vertex by vertex,
each with its neighbours in the order in which they were joined, each pair of vertices once.
-/

namespace LPRounding

abbrev Attributes (K : Type) := List (String × K)

def Attributes.value? {K : Type} (attrs : Attributes K) (name : String) : Option K :=
  (attrs.find? fun (n, _) => n == name).map Prod.snd

def Attributes.merge {K : Type} (old new : Attributes K) : Attributes K :=
  new.reverse ++ old

inductive GraphKind where
  | simple
  | multi
  | directed
  deriving DecidableEq, Repr

/-- An edge between its ends, as first added. Parallel edges differ by their keys. -/
structure Link (K : Type) where
  tail : Node
  head : Node
  key : Nat
  attrs : Attributes K

structure Graph (K : Type) where
  kind : GraphKind := .simple
  vertices : List Node := []
  labels : List (Node × Attributes K) := []
  links : List (Link K) := []

/-- How an edge is called: by its ends, and by its key where edges may be parallel. -/
structure EdgeName where
  u : Node
  v : Node
  key : Option Nat := none
  deriving DecidableEq, Repr

structure Edge (K : Type) where
  name : EdgeName
  attrs : Attributes K

inductive Choice where
  | vertex (v : Node)
  | edge (e : EdgeName)
  deriving DecidableEq, Repr

variable {K : Type}

def Link.joins (l : Link K) (u v : Node) : Bool :=
  (l.tail = u && l.head = v) || (l.tail = v && l.head = u)

def Link.touches (l : Link K) (u : Node) : Bool := l.tail = u || l.head = u

def Link.other (l : Link K) (u : Node) : Node := if l.tail = u then l.head else l.tail

namespace Graph

def addVertex (g : Graph K) (v : Node) (attrs : Attributes K := []) : Graph K :=
  let g := if attrs.isEmpty then g else { g with labels := g.labels ++ [(v, attrs)] }
  if v ∈ g.vertices then g else { g with vertices := g.vertices ++ [v] }

def label (g : Graph K) (v : Node) : Attributes K :=
  (g.labels.filter fun (u, _) => u = v).foldl (fun attrs (_, new) => attrs.merge new) []

def between (g : Graph K) (u v : Node) : List (Link K) := g.links.filter fun l => l.joins u v

/-- Adds missing ends, the tail first. Where edges cannot be parallel, a repeated edge keeps its
place and takes the new attributes. -/
def addLink (g : Graph K) (u v : Node) (attrs : Attributes K) : Graph K :=
  let g := (g.addVertex u).addVertex v
  let parallel := (g.between u v).length
  if g.kind = .multi ∨ parallel = 0 then
    { g with links := g.links ++ [{ tail := u, head := v, key := parallel, attrs }] }
  else
    { g with links := g.links.map fun l =>
        if l.joins u v then { l with attrs := l.attrs.merge attrs } else l }

/-- Vertices joined to `u`, in the order in which they were first joined. -/
def neighbours (g : Graph K) (u : Node) : List Node :=
  extend [] ((g.links.filter fun l => l.touches u).map fun l => l.other u)

def edgeName (g : Graph K) (u v : Node) (l : Link K) : EdgeName :=
  { u, v, key := if g.kind = .multi then some l.key else none }

/-- Edges from `u` to neighbours that were not listed before. -/
def edgesFrom (g : Graph K) (seen : List Node) (u : Node) : List (Edge K) :=
  ((g.neighbours u).filter fun v => v ∉ seen).flatMap fun v =>
    (g.between u v).map fun l => { name := g.edgeName u v l, attrs := l.attrs }

def edgesAfter (g : Graph K) : List Node → List Node → List (Edge K)
  | _, [] => []
  | seen, u :: rest => g.edgesFrom seen u ++ g.edgesAfter (u :: seen) rest

def edges (g : Graph K) : List (Edge K) := g.edgesAfter [] g.vertices

def pairs (g : Graph K) : List (Node × Node) := g.edges.map fun e => (e.name.u, e.name.v)

end Graph

def Edge.cost [Scalar K] (e : Edge K) (field : String) : K :=
  (e.attrs.value? field).getD 1

def places (vertices : List Node) (pairs : List (Node × Node)) : List (Nat × Nat) :=
  pairs.map fun (u, v) => (vertices.idxOf u, vertices.idxOf v)

def bothWays (pairs : List (Nat × Nat)) : List (Nat × Nat) :=
  pairs.flatMap fun (i, j) => if i = j then [(i, j)] else [(i, j), (j, i)]

def component (size : Nat) (pairs : List (Nat × Nat)) (i : Nat) : List Nat :=
  let nexts := adjacency size (bothWays pairs)
  reach (nexts.getD · []) size i

def connectedTo (vertices : List Node) (pairs : List (Node × Node)) (u : Node) : List Node :=
  (component vertices.length (places vertices pairs) (vertices.idxOf u)).filterMap (vertices[·]?)

def joinsAll (size : Nat) (pairs : List (Nat × Nat)) : Bool :=
  0 < size && (component size pairs 0).length = size

def isConnected (vertices : List Node) (pairs : List (Node × Node)) : Bool :=
  joinsAll vertices.length (places vertices pairs)

def degree (pairs : List (Node × Node)) (u : Node) : Nat :=
  (pairs.filter fun (a, _) => a = u).length + (pairs.filter fun (_, b) => b = u).length

/-- At least three vertices, each of degree two or more, that stay connected without any one of
the pairs. -/
def isTwoEdgeConnected (vertices : List Node) (pairs : List (Node × Node)) : Bool :=
  let size := vertices.length
  let ps := places vertices pairs
  3 ≤ size && vertices.all (fun v => 2 ≤ degree pairs v) && joinsAll size ps &&
    (List.range ps.length).all fun i => joinsAll size (ps.eraseIdx i)

end LPRounding
