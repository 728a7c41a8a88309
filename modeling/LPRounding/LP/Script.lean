import LPRounding.LP.Model

/-!
Edits and questions put to a model one after the other, with ids as they come from outside. A command
that fails leaves the model to the commands after it.
-/

namespace LPRounding

inductive Command (K : Type) where
  | addColumn (cost : K) (kind : BoundKind) (lo : K) (hi : Option K)
  | addRow (kind : BoundKind) (lo hi : K)
  | addCoef (row column : Int) (coef : K)
  | rename (name : String)
  | direct (direction : Direction)
  | load
  | clear
  | fix (column : Int) (value : K)
  | relax (row : Int)
  | isFixed (column : Int)
  | isRelaxed (row : Int)
  | active
  | counts
  | solve
  | columnValue (column : Int)
  | values
  | rowValue (row : Int)
  | rowDegree (row : Int)
  | rowSum (row : Int)
  | coefs (row : Int)
  | objective
  | dump

inductive Reply (K : Type) where
  | done
  | id (n : Nat)
  | flag (b : Bool)
  | number (x : K)
  | numbers (xs : List K)
  | status (s : Status)
  | counted (columns rows : Nat)
  | active (columns rows : List Nat)
  | coefs (entries : List (Nat × K))
  | model (m : Model K)

namespace Model

variable {K : Type} [Scalar K]

/-- Values of all columns; a model without columns has none to miss. -/
def columnValues (m : Model K) : Except (Fault K) (List K) :=
  (List.range m.columns.length).mapM m.columnValue

/-- The solution is asked for before the id is looked at. -/
def rowValueAt (m : Model K) (id : Int) : Except (Fault K) K := do
  let _ ← m.lastSolution
  m.rowValue (← m.rowId id)

def rowSumAt (m : Model K) (id : Int) : Except (Fault K) K := do
  let _ ← m.lastSolution
  m.rowSum (← m.rowId id)

/-- The column of a coefficient is looked up before its row. -/
def run (solver : Solver K) : Command K → Edit K (Reply K)
  | .addColumn cost kind lo hi => do return .id (← addColumn cost kind lo hi)
  | .addRow kind lo hi => do return .id (← addRow kind lo hi)
  | .addCoef row column coef => do
    let m ← get
    let c ← m.columnId column
    let r ← m.rowId row
    addCoef r c coef
    return .done
  | .rename name => do rename name; return .done
  | .direct direction => do direct direction; return .done
  | .load => do load; return .done
  | .clear => do clear; return .done
  | .fix column value => do fixColumn (← (← get).columnId column) value; return .done
  | .relax row => do relaxRow (← (← get).rowId row); return .done
  | .isFixed column => do
    let m ← get
    return .flag (← m.column (← m.columnId column)).fixed.isSome
  | .isRelaxed row => do
    let m ← get
    return .flag (← m.row (← m.rowId row)).relaxed
  | .active => do
    let m ← get
    return .active m.activeColumns m.activeRows
  | .counts => do
    let m ← get
    return .counted m.columns.length m.rows.length
  | .solve => do return .status (← solve solver)
  | .columnValue column => do
    let m ← get
    return .number (← m.columnValue (← m.columnId column))
  | .values => do return .numbers (← (← get).columnValues)
  | .rowValue row => do return .number (← (← get).rowValueAt row)
  | .rowDegree row => do
    let m ← get
    return .id (← m.rowDegree (← m.rowId row))
  | .rowSum row => do return .number (← (← get).rowSumAt row)
  | .coefs row => do
    let m ← get
    return .coefs (← m.row (← m.rowId row)).coefs
  | .objective => do return .number (← (← get).objective)
  | .dump => do return .model (← get)

end Model

end LPRounding
