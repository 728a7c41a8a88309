/-!
Reachability along a step function, by growing a set of vertices layer by layer.
-/

namespace LPRounding

variable {V : Type} [DecidableEq V]

def extend (seen : List V) : List V → List V
  | [] => seen
  | v :: rest => extend (if v ∈ seen then seen else seen ++ [v]) rest

def unseen (seen : List V) : List V → List V → List V
  | fresh, [] => fresh
  | fresh, v :: rest =>
    unseen seen (if v ∈ seen || v ∈ fresh then fresh else v :: fresh) rest

/-- Grows a set by the neighbours of the vertices that came last, until there are no new ones, for
at most so many layers. -/
def spread (next : V → List V) : Nat → List V → List V → List V
  | 0, seen, _ => seen
  | layers + 1, seen, last =>
    match unseen seen [] (last.flatMap next) with
    | [] => seen
    | fresh => spread next layers (fresh ++ seen) fresh

def reach (next : V → List V) (size : Nat) (start : V) : List V := spread next size [start] [start]

def adjacency (size : Nat) (pairs : List (Nat × Nat)) : Array (List Nat) :=
  pairs.foldr (fun (i, j) nexts => nexts.modify i (j :: ·)) (Array.replicate size [])

/-- What a search has found from one end: for each vertex a path from it back to that end. -/
structure Trails (V : Type) where
  all : List (List V)
  /-- The paths of the last layer. -/
  fringe : List (List V)

namespace Trails

def start (v : V) : Trails V := { all := [[v]], fringe := [[v]] }

def steps (next : V → List V) (t : Trails V) : List (List V) :=
  t.fringe.flatMap fun p => (p.head?.elim [] next).map (· :: p)

/-- Adds the paths whose vertex is not found yet; the first of several is kept. -/
def fresh (found : List (List V)) : List (List V) → List (List V)
  | [] => []
  | p :: rest =>
    if found.any fun q => q.head? = p.head? then fresh found rest
    else p :: fresh (p :: found) rest

def grow (next : V → List V) (t : Trails V) : Trails V :=
  let layer := fresh t.all (t.steps next)
  { all := t.all ++ layer, fringe := layer }

def meet (next : V → List V) (t other : Trails V) : Option (List V × List V) :=
  (t.steps next).findSome? fun p =>
    (other.all.find? fun q => q.head? = p.head?).map fun q => (p, q)

end Trails

/-- Grows the side with the smaller fringe, layer by layer, until the sides meet. -/
def searchPath (next : V → List V) : Nat → Trails V → Trails V → Option (List V)
  | 0, _, _ => none
  | layers + 1, near, far =>
    if near.fringe.isEmpty || far.fringe.isEmpty then none
    else if near.fringe.length ≤ far.fringe.length then
      match near.meet next far with
      | some (p, q) => some (p.reverse ++ q.tail)
      | none => searchPath next layers (near.grow next) far
    else
      match far.meet next near with
      | some (p, q) => some (q.reverse ++ p.tail)
      | none => searchPath next layers near (far.grow next)

def shortestPath (next : V → List V) (size : Nat) (start goal : V) : Option (List V) :=
  if start = goal then some [start]
  else searchPath next (2 * size + 2) (.start start) (.start goal)

end LPRounding
