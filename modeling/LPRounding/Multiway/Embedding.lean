import LPRounding.Graph.Basic
import LPRounding.LP.Model

/-!
Simplex embeddings: every vertex of a colored graph is put at a point with `dims` coordinates that
are not negative and sum to one, a vertex of color `c` at the corner of coordinate `c - 1`, so that
the edges, each weighted with the sum of its coordinate differences, are short. The model has a
column for each edge and coordinate, then one for each vertex and coordinate.
-/

namespace LPRounding

structure Span (K : Type) where
  u : Nat
  v : Nat
  weight : K

structure Embedding (K : Type) where
  vertices : List Node
  /-- Zero, or the number of the corner that the vertex must be at. -/
  colors : List Int
  spans : List (Span K)
  dims : Nat

namespace Embedding

variable {K : Type} [Scalar K]

def color (g : Graph K) (name : String) (v : Node) : Except (Fault K) Int :=
  match (g.label v).value? name with
  | none => .ok 0
  | some x =>
    match Scalar.whole x with
    | some n => .ok n
    | none => .error (.noWholeColor x)

def span (g : Graph K) (weightName : String) (e : Edge K) : Span K :=
  { u := g.vertices.idxOf e.name.u, v := g.vertices.idxOf e.name.v, weight := e.cost weightName }

def ofGraph (g : Graph K) (weightName colorName : String) (dims : Nat) :
    Except (Fault K) (Embedding K) := do
  let colors ← g.vertices.mapM (color g colorName)
  return { vertices := g.vertices, colors, spans := g.edges.map (span g weightName), dims }

variable (m : Embedding K)

def node (i : Nat) : Node := m.vertices.getD i default

def lengthColumn (e i : Nat) : Nat := e * m.dims + i

def pointColumn (v i : Nat) : Nat := (m.spans.length + v) * m.dims + i

def column (cost : K) : Column K := { cost, bound := { kind := .lower, lo := 0, hi := 0 } }

def columns : List (Column K) :=
  (m.spans.flatMap fun s => List.replicate m.dims (column s.weight)) ++
    List.replicate (m.vertices.length * m.dims) (column 0)

/-- The length is at least the signed difference of the ends; the two rows of an edge and a
coordinate make it at least the distance. -/
def lengthRow (e : Nat) (s : Span K) (i : Nat) (sign : K) : Row K :=
  ((({ bound := { kind := .lower, lo := 0, hi := 0 } : Row K }).addCoef (m.lengthColumn e i)
    1).addCoef (m.pointColumn s.u i) sign).addCoef (m.pointColumn s.v i) (-sign)

def lengthRows (e : Nat) (s : Span K) : List (Row K) :=
  (List.range m.dims).flatMap fun i => [m.lengthRow e s i (-1), m.lengthRow e s i 1]

def unitRow (columns : List Nat) : Row K :=
  { bound := { kind := .fixed, lo := 1, hi := 0 }, coefs := columns.map fun j => (j, 1) }

def simplexRow (v : Nat) : Row K := unitRow ((List.range m.dims).map (m.pointColumn v))

/-- A color must be the number of a coordinate. -/
def pointRows (v : Nat) (color : Int) : Except (Fault K) (List (Row K)) :=
  if color = 0 then .ok [m.simplexRow v]
  else if 1 ≤ color ∧ color ≤ m.dims then
    .ok [unitRow [m.pointColumn v (color - 1).toNat], m.simplexRow v]
  else .error (.missingKey (.pair v (color - 1)))

def model : Except (Fault K) (Model K) := do
  let points ← m.colors.zipIdx.mapM fun (c, v) => m.pointRows v c
  return {
    name := "multiway cut"
    columns := m.columns
    rows := (m.spans.zipIdx.flatMap fun (s, e) => m.lengthRows e s) ++ points.flatten
    loaded := true }

def points (lp : Model K) : Except (Fault K) (List (List K)) :=
  (List.range m.vertices.length).mapM fun v =>
    (List.range m.dims).mapM fun i => lp.columnValue (m.pointColumn v i)

end Embedding

end LPRounding
