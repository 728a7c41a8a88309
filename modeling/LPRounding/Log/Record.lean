import LPRounding.Log.Registry
import LPRounding.Run.Event
import LPRounding.Decimal.Places

/-!
Log records of a run. Each event says who reports it, at which level and in which words; events that
only a visitor reports have the level of the visitor.
-/

namespace LPRounding.Log

structure Record where
  logger : String
  level : Int
  message : String

def part (name : String) : String := package ++ "." ++ name

def visitorLogger : String := part "ir.visitor"

def number (n : Nat) : String := toString n

def tuple (vs : List Node) : String := tupleText (vs.map Node.quoted)

def quoted (model : String) : String := "'" ++ model ++ "'"

def visitorMessage : Event Float → Option String
  | .solved model .optimal (some objective) _ _ =>
    some ("LP " ++ quoted model ++ " OPTIMAL, objective " ++ Decimal.sixPlaces objective)
  | .solved model status _ _ _ => some ("LP " ++ quoted model ++ " " ++ Named.name status)
  | .rounded column value =>
    some ("Column " ++ number column ++ " fixed to " ++ Decimal.sixPlaces value)
  | .relaxed row => some ("Row " ++ number row ++ " relaxed")
  | _ => none

def ofEvent : Event Float → Option Record
  | .modelSolved model columns rows objective =>
    some ⟨part "lp.model", debug, "LP " ++ quoted model ++ " solved: " ++ number columns ++
      " columns, " ++ number rows ++ " rows, objective " ++ Decimal.sixPlaces objective⟩
  | .modelFailed model status =>
    let verdict := match status with
      | .unbounded => "unbounded"
      | _ => "infeasible"
    some ⟨part "lp.model", debug, "LP " ++ quoted model ++ " is " ++ verdict⟩
  | .solved .. | .rounded .. | .relaxed .. => none
  | .generationStopped status =>
    some ⟨part "ir.row_generation", debug,
      "Row generation stopped with LP status " ++ Named.name status⟩
  | .rowAdded row candidate magnitude witness =>
    some ⟨part "lp.separation", debug, "Added violated row " ++ number row ++ " for " ++
      candidate.text ++ " (violation " ++ Decimal.sixPlaces magnitude ++ ", |witness|=" ++
      number witness ++ ")"⟩
  | .requirementUnmet candidate requirement cut =>
    some ⟨part "ir.steiner_network_oracle", debug, "Restriction " ++ candidate.text ++
      " cannot be met: requirement " ++ Decimal.sixPlaces requirement ++ ", cut " ++
      Decimal.sixPlaces cut⟩
  | .picked sink sources steiner cost =>
    some ⟨part "ir.steiner_tree", debug, "Picked component " ++ sink.text ++ " <- " ++
      tuple sources ++ " (cost " ++ Decimal.sixPlaces cost ++ ", Steiner vertices " ++
      tuple steiner ++ ")"⟩
  | .notSolved model status =>
    some ⟨part "ir.engine", info, "LP relaxation " ++ quoted model ++ " is " ++ Named.name status⟩
  | .iterated iteration rounded relaxed =>
    some ⟨part "ir.engine", debug, "Iteration " ++ number iteration ++ ": rounded " ++
      number rounded ++ " columns, relaxed " ++ number relaxed ++ " rows"⟩
  | .rebuilt iteration model columns =>
    some ⟨part "ir.engine", debug, "Iteration " ++ number iteration ++ ": LP " ++ quoted model ++
      " rebuilt with " ++ number columns ++ " columns"⟩
  | .lost model status iteration =>
    some ⟨part "ir.engine", info, "LP " ++ quoted model ++ " became " ++ Named.name status ++
      " after iteration " ++ number iteration⟩
  | .finished model iterations objective =>
    some ⟨part "ir.engine", info, "Iterative rounding of " ++ quoted model ++ " finished after " ++
      number iterations ++ " iterations, objective " ++ Decimal.sixPlaces objective⟩
  | .embedded parts objective =>
    some ⟨part "multiway_cut", debug, "Multiway cut LP with " ++ number parts ++
      " terminals: objective " ++ Decimal.sixPlaces objective⟩
  | .divided vertices parts weight roundings =>
    some ⟨part "multiway_cut", info, "Multiway cut of " ++ number vertices ++ " vertices into " ++
      number parts ++ " parts: weight " ++ Decimal.sixPlaces weight ++ " after " ++
      number roundings ++ " roundings"⟩

/-- Records of a run that are logged when all loggers have the given level. -/
def records (level : Int) (visitor : Option Int) (trace : List (Event Float)) : List Record :=
  let registry : Registry := { packageLevel := level, handlers := [] }
  (trace.filterMap fun e =>
    match visitor, visitorMessage e with
    | some own, some message => some ⟨visitorLogger, own, message⟩
    | _, _ => ofEvent e).filter fun r => registry.isEnabled r.logger r.level && level ≤ r.level

end LPRounding.Log
