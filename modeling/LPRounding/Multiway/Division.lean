import LPRounding.Multiway.Embedding
import LPRounding.Summation
import LPRounding.Random.Dice
import LPRounding.Run.State

/-!
Multiway cuts: the vertices are divided into as many parts as there are colors, each colored vertex
into the part of its color, so that little weight runs between parts. The division is the best of
several random ones, each read off the embedding with one radius for each coordinate.
-/

namespace LPRounding

/-- Parts are numbered from zero. -/
structure Division (K : Type) where
  weight : K
  parts : List Nat

/-- The vertices and their parts, which are numbered from one as the colors are. -/
structure Parting (K : Type) where
  weight : K
  parts : List (Node × Nat)

def Parting.part {K : Type} (p : Parting K) (v : Node) : Nat := (p.parts.lookup v).getD 0

namespace Division

variable {K : Type} [Scalar K]

/-- The first coordinate whose corner is nearer than its radius; the last one takes what is left. -/
def part (radii point : List K) : Nat :=
  min ((point.zip radii).findIdx fun (x, r) => 1 - x < r) (radii.length - 1)

def weightBetween (spans : List (Span K)) (parts : List Nat) : K :=
  Scalar.balancedSum ((spans.filter fun s => parts[s.u]? ≠ parts[s.v]?).map Span.weight)

def ofRadii (spans : List (Span K)) (points : List (List K)) (radii : List K) : Division K :=
  let parts := points.map (part radii)
  { weight := weightBetween spans parts, parts }

/-- A place among `size` entries; a negative number counts from the end. -/
def place (size : Nat) (i : Int) : Except (Fault K) Nat :=
  if -size ≤ i ∧ i < size then .ok (if i < 0 then i + size else i).toNat
  else .error (.outOfRange i size)

/-- Edges by the places of their ends. Without weights or ends there are none; otherwise all first
ends are looked up before the second ones, and there is a weight for each edge. -/
def placeSpans (size : Nat) (ends : List (Int × Int)) (weights : List K) :
    Except (Fault K) (List (Span K)) := do
  if weights.isEmpty || ends.isEmpty then return []
  let us ← ends.mapM fun (u, _) => place size u
  let vs ← ends.mapM fun (_, v) => place size v
  if weights.length ≠ ends.length then throw (.unequalLengths weights.length ends.length)
  return ((us.zip vs).zip weights).map fun ((u, v), weight) => { u, v, weight }

/-- Divides points read from outside, whose edges are given by places. What no coordinate before
the last one takes goes to the last one, so there must be one. -/
def ofEnds (points : List (List K)) (radii : List K) (ends : List (Int × Int))
    (weights : List K) : Except (Fault K) (Division K) := do
  if radii.isEmpty then throw .noCoordinates
  return ofRadii (← placeSpans points.length ends weights) points radii

/-- The earlier of two divisions unless the later one cuts less. -/
def better (best : Option (Division K)) (d : Division K) : Option (Division K) :=
  match best with
  | none => some d
  | some b => if d.weight < b.weight then some d else some b

def numbered (vertices : List Node) (d : Division K) : Parting K :=
  { weight := d.weight, parts := (vertices.zip d.parts).map fun (v, i) => (v, i + 1) }

def drawRadii {S : Type} [Dice S K] : Nat → S → List K × S
  | 0, dice => ([], dice)
  | n + 1, dice =>
    let (r, dice) := Dice.unit dice
    let (rest, dice) := drawRadii n dice
    (r :: rest, dice)

def best {S : Type} [Dice S K] (m : Embedding K) (points : List (List K)) :
    Nat → S → Option (Division K) → Option (Division K)
  | 0, _, found => found
  | n + 1, dice, found =>
    let (radii, dice) := drawRadii m.dims dice
    best m points n dice (better found (ofRadii m.spans points radii))

end Division

structure Multiway (K : Type) where
  embedding : Embedding K
  roundings : Nat

namespace Multiway

variable {K : Type} [Scalar K]

def standardRoundings (n : Nat) : Nat := n * n + 100

/-- Refuses directed graphs, less than one rounding, negative colors and negative weights, in this
order. There are as many parts as the largest color says. -/
def ofGraph (g : Graph K) (weightName colorName : String) (roundings : Option Int) :
    Except (Fault K) (Multiway K) := do
  if g.kind = .directed then throw (.invalidInput .directedCut)
  let roundings := roundings.getD (standardRoundings g.vertices.length)
  if roundings < 1 then throw (.invalidInput (.noRoundings roundings))
  let m ← Embedding.ofGraph g weightName colorName 0
  if m.colors.any (· < 0) then throw (.invalidInput .negativeColor)
  match m.spans.find? fun s => s.weight < 0 with
  | some s => throw (.invalidInput (.negativeWeight (m.node s.u) (m.node s.v) s.weight))
  | none =>
    return { embedding := { m with dims := (m.colors.foldl max 0).toNat }
             roundings := roundings.toNat }

/-- Embeds the vertices and divides them; there is no division of an embedding that is not optimal.
Where no vertex has a color there is one part. -/
def divide {S : Type} [Backend K] [Dice S K] (dice : S) :
    Action (Multiway K) K (Division K) := do
  let p ← Action.problem
  let m := p.embedding
  if m.dims = 0 then return { weight := 0, parts := m.vertices.map fun _ => 0 }
  Action.setModel (← m.model)
  let status ← Action.solveModel
  if status ≠ .optimal then throw (.unsolvedCut status)
  let lp ← Action.model
  Action.note (.embedded m.dims (← lp.objective))
  let points ← m.points lp
  match Division.best m points p.roundings dice none with
  | none => throw .unfinished
  | some d =>
    Action.note (.divided m.vertices.length m.dims d.weight p.roundings)
    return d

/-- Hands over the part of every vertex. -/
def solve {S : Type} [Backend K] [Dice S K] (dice : S) : Action (Multiway K) K (Parting K) := do
  let p ← Action.problem
  let d ← divide dice
  return d.numbered p.embedding.vertices

end Multiway

end LPRounding
