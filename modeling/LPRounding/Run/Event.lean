import LPRounding.LP.Model

/-!
What happens in a run, in the order in which it happens. The list of events is the only record of a
run: reports to a visitor and log lines are read off it.
-/

namespace LPRounding

inductive Candidate where
  | node (v : Node)
  | pair (u v : Node)
  deriving DecidableEq, Repr

def Candidate.text : Candidate → String
  | .node v => v.text
  | .pair u v => tupleText [u.quoted, v.quoted]

inductive Event (K : Type) where
  /-- The model reached an optimal point of its kept rows. -/
  | modelSolved (model : String) (columns rows : Nat) (objective : K)
  | modelFailed (model : String) (status : Status)
  /-- A solve or resolve of the engine ended. -/
  | solved (model : String) (status : Status) (objective : Option K) (columns rows : Nat)
  | rounded (column : Nat) (value : K)
  | relaxed (row : Nat)
  | generationStopped (status : Status)
  | rowAdded (row : Nat) (candidate : Candidate) (magnitude : K) (witness : Nat)
  | requirementUnmet (candidate : Candidate) (requirement cut : K)
  | picked (sink : Node) (sources steiner : List Node) (cost : K)
  | notSolved (model : String) (status : Status)
  | iterated (iteration rounded relaxed : Nat)
  | rebuilt (iteration : Nat) (model : String) (columns : Nat)
  | lost (model : String) (status : Status) (iteration : Nat)
  | finished (model : String) (iterations : Nat) (objective : K)
  | embedded (parts : Nat) (objective : K)
  | divided (vertices parts : Nat) (weight : K) (roundings : Nat)

end LPRounding
