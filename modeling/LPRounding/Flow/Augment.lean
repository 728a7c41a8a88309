import LPRounding.Flow.Cut

/-!
A flow finder: shortest augmenting paths, found layer by layer, until none is left.
-/

namespace LPRounding.Augment

/-- A network by its places; capacities and flows are square tables. -/
structure Table (K : Type) where
  size : Nat
  capacities : Array K
  nexts : Array (List Nat)
  flows : Array K

variable {V K : Type} [Scalar K]

namespace Table

def residual (t : Table K) (u v : Nat) : K :=
  t.capacities.getD (u * t.size + v) 0 - t.flows.getD (u * t.size + v) 0

def ofNetwork (n : Network V K) : Table K :=
  let size := n.vertices.length
  let plenty := n.plenty
  let blank : Array K := Array.replicate (size * size) 0
  let arcs := n.openArcs.map fun a => (a.tail, a.head, Network.amount plenty a)
  { size
    capacities := arcs.foldl (fun cs (u, v, c) => cs.setIfInBounds (u * size + v) c) blank
    nexts := arcs.foldl
      (fun ns (u, v, _) => (ns.modify u (v :: ·)).modify v (u :: ·)) (Array.replicate size [])
    flows := blank }

def label (t : Table K) (layer : List Nat) (parents : Array (Option Nat)) :
    List Nat × Array (Option Nat) :=
  layer.foldl
    (fun (found, parents) u =>
      (t.nexts.getD u []).foldl
        (fun (found, parents) v =>
          if (parents.getD v none).isNone && 0 < t.residual u v then
            (v :: found, parents.setIfInBounds v (some u))
          else (found, parents))
        (found, parents))
    ([], parents)

def search (t : Table K) (goal : Nat) : Nat → List Nat → Array (Option Nat) → Array (Option Nat)
  | 0, _, parents => parents
  | layers + 1, layer, parents =>
    if layer.isEmpty || (parents.getD goal none).isSome then parents
    else
      let (layer, parents) := t.label layer parents
      search t goal layers layer parents

def trace (parents : Array (Option Nat)) (source : Nat) : Nat → Nat → List (Nat × Nat)
  | 0, _ => []
  | steps + 1, v =>
    if v = source then [] else
    match parents.getD v none with
    | some u => (u, v) :: trace parents source steps u
    | none => []

def push (t : Table K) (amount : K) (steps : List (Nat × Nat)) : Table K :=
  let flows := steps.foldl
    (fun fs (u, v) =>
      (fs.modify (u * t.size + v) (· + amount)).modify (v * t.size + u) (· - amount))
    t.flows
  { t with flows }

/-- Augments along shortest paths, for at most so many paths. -/
def augment (source goal : Nat) : Nat → Table K → K → Table K × K
  | 0, t, value => (t, value)
  | paths + 1, t, value =>
    let parents := t.search goal t.size [source]
      ((Array.replicate t.size none).setIfInBounds source (some source))
    match trace parents source t.size goal with
    | [] => (t, value)
    | (u, v) :: rest =>
      let amount := rest.foldl (fun least (a, b) => Scalar.smaller least (t.residual a b))
        (t.residual u v)
      augment source goal paths (t.push amount ((u, v) :: rest)) (value + amount)

end Table

/-- Every augmenting path uses up an arc, and no arc is used up more often than there are
vertices. -/
def finder : FlowFinder V K := fun n s t =>
  let table := Table.ofNetwork n
  let paths := 2 * n.vertices.length * (n.arcs.length + 1)
  let (table, value) := table.augment s t paths 0
  { value, net := fun u v => table.flows.getD (u * table.size + v) 0 }

end LPRounding.Augment
