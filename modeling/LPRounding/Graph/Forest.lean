import LPRounding.Graph.Basic
import LPRounding.Fault

/-!
Spanning forests by picking edges in order of weight, as long as they join two parts.
-/

namespace LPRounding

structure Weighted (V K : Type) where
  u : V
  v : V
  weight : K

variable {V K : Type} [DecidableEq V] [Scalar K]

namespace Weighted

/-- The part that holds a vertex; a vertex that no part holds is one by itself. -/
def partOf (parts : List (List V)) (x : V) : List V := (parts.find? (x ∈ ·)).getD [x]

def join (parts : List (List V)) (u v : V) : List (List V) :=
  (partOf parts u ++ partOf parts v) :: parts.filter fun p => u ∉ p && v ∉ p

def pick : List (List V) → List (Weighted V K) → List (Weighted V K)
  | _, [] => []
  | parts, e :: rest =>
    if e.v ∈ partOf parts e.u then pick parts rest
    else e :: pick (join parts e.u e.v) rest

/-- Heaviest first; edges of one weight stay in order. -/
def maximumForest (es : List (Weighted V K)) : List (Weighted V K) :=
  pick [] (es.mergeSort fun a b => !(a.weight < b.weight))

def minimumForest (es : List (Weighted V K)) : List (Weighted V K) :=
  pick [] (es.mergeSort fun a b => !(b.weight < a.weight))

def undefined? (es : List (Weighted V K)) : Option (Weighted V K) :=
  es.find? fun e => Scalar.isUndefined e.weight

def weightsAt (es : List (Weighted V K)) (v : V) : List K :=
  (es.filter fun e => e.u = v ∨ e.v = v).map Weighted.weight

/-- Total weight: half of the sum over all vertices, as every edge has two ends. -/
def total (vs : List V) (es : List (Weighted V K)) : K :=
  Scalar.sum (vs.map fun v => Scalar.sum (weightsAt es v)) * Scalar.half

end Weighted

/-- Required numbers for ordered pairs; a repeated pair keeps its place and its last number. -/
structure Requirements (K : Type) where
  entries : List ((Node × Node) × K)

namespace Requirements

def put (p : Node × Node) (r : K) : List ((Node × Node) × K) → List ((Node × Node) × K)
  | [] => [(p, r)]
  | (q, s) :: rest => if q = p then (q, r) :: rest else (q, s) :: put p r rest

def ofList (entries : List ((Node × Node) × K)) : Requirements K :=
  ⟨entries.foldl (fun es (p, r) => put p r es) []⟩

def value? (r : Requirements K) (u v : Node) : Option K :=
  (r.entries.find? fun (p, _) => p = (u, v)).map Prod.snd

/-- What a pair needs: the larger of its two numbers, which count as zero where missing. -/
def need (r : Requirements K) (u v : Node) : K :=
  Scalar.larger ((r.value? u v).getD 0) ((r.value? v u).getD 0)

def weightName : String := "weight"

def graph (r : Requirements K) (vertices : List Node) : Graph K :=
  r.entries.foldl
    (fun g ((u, v), w) =>
      if u = v ∨ w ≤ 0 then g else
      let w := match (g.between u v).head?.bind fun l => l.attrs.value? weightName with
        | some old => Scalar.larger old w
        | none => w
      g.addLink u v [(weightName, w)])
    (vertices.foldl (fun g v => g.addVertex v) {})

/-- The pairs of a maximum spanning forest of the requirements, in the edge order of that forest.
Meeting them meets all. -/
def prune (r : Requirements K) (vertices : List Node) : Except (Fault K) (List (Node × Node)) :=
  let g := r.graph vertices
  let es := g.edges.map fun e => { u := e.name.u, v := e.name.v, weight := e.cost weightName }
  match Weighted.undefined? es with
  | some e => .error (.undefinedWeight e.u e.v)
  | none =>
    let forest : Graph K := g.vertices.foldl (fun f v => f.addVertex v) {}
    .ok ((Weighted.maximumForest es).foldl
      (fun f e => f.addLink e.u e.v []) forest).pairs

end Requirements

end LPRounding
