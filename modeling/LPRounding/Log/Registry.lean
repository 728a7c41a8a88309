import LPRounding.Log.Level

/-!
The loggers of the package. They form a tree below the package logger, which alone has handlers; a
logger without a level of its own has that of its parent. The registry is set up on first use and
again after every reset.
-/

namespace LPRounding.Log

structure Handler where
  level : Int := 0
  /-- Whether what it prints is kept. -/
  captures : Bool := false

structure Registry where
  packageLevel : Int
  rootLevel : Int := warning
  handlers : List Handler
  propagates : Bool := true
  ready : Bool := true

def package : String := "iround"

namespace Registry

def fresh : Registry := { packageLevel := info, handlers := [{}] }

/-- Does nothing once the registry is ready; otherwise a single handler replaces all others. -/
def setUp (r : Registry) (level : Int) (handler : Handler) : Registry :=
  if r.ready then r
  else { r with packageLevel := level, handlers := [handler], propagates := true, ready := true }

def ensure (r : Registry) : Registry := r.setUp info {}

/-- The level is read before anything is changed, and only if the registry is not ready. -/
def setUpNamed {K : Type} (r : Registry) (level : LevelText) : Except (Fault K) Registry :=
  if r.ready then .ok r else return r.setUp (← level.resolve) { captures := true }

def reset (r : Registry) : Registry :=
  { r with packageLevel := 0, handlers := [], ready := false }

def isRoot (name : String) : Bool := name == "" || name == "root"

def inPackage (name : String) : Bool := name == package || name.startsWith (package ++ ".")

/-- Asking for a logger clears its own level. -/
def ask (r : Registry) (name : String) : Registry :=
  let r := r.ensure
  if name == package then { r with packageLevel := 0 }
  else if isRoot name then { r with rootLevel := 0 }
  else r

def nameOf (name : String) : String := if isRoot name then "root" else name

def own (r : Registry) (name : String) : Int :=
  if name == package then r.packageLevel else if isRoot name then r.rootLevel else 0

def effective (r : Registry) (name : String) : Int :=
  if inPackage name && r.packageLevel != 0 then r.packageLevel else r.rootLevel

def setLevel {K : Type} (r : Registry) (level : LevelText) : Except (Fault K) Registry := do
  let n ← level.resolve
  let r := r.ensure
  return { r with packageLevel := n, handlers := r.handlers.map fun h => { h with level := n } }

/-- Levels that are not positive are never logged. -/
def isEnabled (r : Registry) (name : String) (level : Int) : Bool :=
  0 < level && r.effective name ≤ level

def printed (r : Registry) (name : String) (level : Int) (text : String) : String :=
  if r.isEnabled name level && inPackage name then
    let line := name ++ "|" ++ levelName level ++ "|" ++ text ++ "\n"
    String.join ((r.handlers.filter fun h => h.captures && h.level ≤ level).map fun _ => line)
  else ""

end Registry

end LPRounding.Log
