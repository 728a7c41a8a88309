import LPRounding.Fault
import LPRounding.Text.Blank

/-!
Log levels: any integer, some of which have names.
-/

namespace LPRounding.Log

def levelNames : List (Int × String) :=
  [(50, "CRITICAL"), (40, "ERROR"), (30, "WARNING"), (20, "INFO"), (10, "DEBUG"), (0, "NOTSET")]

def otherNames : List (Int × String) := [(50, "FATAL"), (30, "WARN")]

def debug : Int := 10
def info : Int := 20
def warning : Int := 30

def levelName (level : Int) : String :=
  match levelNames.find? fun (n, _) => n == level with
  | some (_, name) => name
  | none => "Level " ++ toString level

inductive LevelText where
  | number (n : Int)
  | name (s : String)

/-- Names are read without regard to case and to blanks around them. -/
def LevelText.resolve {K : Type} : LevelText → Except (Fault K) Int
  | .number n => .ok n
  | .name s =>
    let wanted := Text.upper (Text.trim s)
    match (levelNames ++ otherNames).find? fun (_, known) => known == wanted with
    | some (n, _) => .ok n
    | none => .error (.unknownLevel s)

end LPRounding.Log
