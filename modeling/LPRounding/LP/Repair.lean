import LPRounding.LP.Program
import LPRounding.LP.Tableau

/-!
Bringing the basic variables of a tableau back into their spans while no cost improves. The variable
that is farthest out leaves the basis at the end it has passed. Of the others those that cost least
make up for it: they move to their other ends until one can do the rest, which becomes basic.
-/

namespace LPRounding.Simplex

structure Repaired where
  tableau : Tableau
  costs : Array Rat
  isDone : Bool

namespace Tableau

def excess (t : Tableau) (i : Nat) : Rat × Bool :=
  let x := t.side i
  if x < 0 then (-x, false)
  else
    match (t.basis.getD i none).bind t.span with
    | some u => (x - u, true)
    | none => (0, false)

/-- The row whose variable is farthest out, in its own unit, if that is past the tolerance. A
variable without a unit may have any value. -/
def worst (t : Tableau) (units : Array (Option Rat)) : Option (Nat × Bool) :=
  let (best, _) := (List.range t.rows.size).foldl
    (fun (best, size) i =>
      match (t.basis.getD i none).bind fun b => units.getD b none with
      | none => (best, size)
      | some unit =>
        let (x, above) := t.excess i
        if size < x / unit then (some (i, above), x / unit) else (best, size))
    ((none, Program.tolerance) : Option (Nat × Bool) × Rat)
  best

def raisers (t : Tableau) (costs : Array Rat) (i : Nat) : List Nat :=
  let price (j : Nat) : Rat := costs.getD j 0 / -t.entry i j
  ((List.range t.spans.size).filter fun j => t.entry i j < 0 && t.span j != some 0).mergeSort
    fun j k => price j ≤ price k

/-- Raises the basic variable of a row by what it needs; none if no variable does that. -/
def raise (t : Tableau) (costs : Array Rat) (i : Nat) (need : Rat) :
    List Nat → Option (Tableau × Array Rat)
  | [] => none
  | j :: rest =>
    let most := (t.span j).map (-t.entry i j * ·)
    match t.span j, most.any (· < need) && !rest.isEmpty with
    | some u, true =>
      let (t, costs) := t.flip costs j u
      raise t costs i (need - most.getD 0) rest
    | _, _ => some (t.pivot costs i j)

/-- The row for the complement of its basic variable, if that is to be lowered. -/
def facing (t : Tableau) (i : Nat) (above : Bool) : Tableau :=
  match t.basis.getD i none with
  | some b =>
    match t.span b with
    | some u => if above then t.complement i b u else t
    | none => t
  | none => t

def repair (t : Tableau) (units : Array (Option Rat)) : Nat → Array Rat → Repaired
  | 0, costs => ⟨t, costs, false⟩
  | steps + 1, costs =>
    match t.worst units with
    | none => ⟨t, costs, true⟩
    | some (i, above) =>
      let faced := t.facing i above
      match faced.raise costs i (-faced.side i) (faced.raisers costs i) with
      | none => ⟨t, costs, false⟩
      | some (t, costs) => t.repair units steps costs

def patience (t : Tableau) : Nat := 20 * (t.rows.size + t.spans.size) + 100

end Tableau

end LPRounding.Simplex
