import LPRounding.Text.Capital

/-!
Closed lists of named values. A name is read without regard to case.
-/

namespace LPRounding

class Named (α : Type) where
  members : List α
  name : α → String
  /-- What the members are, as said to a reader whose name is none of theirs. -/
  subject : String

namespace Named

variable {α : Type} [Named α]

def ofName? (text : String) : Option α :=
  members.find? fun a => name a == Text.upper text

def names (α : Type) [Named α] : List String := (members (α := α)).map name

/-- Members are numbered from one in the order of their list. -/
def number (a : α) : Nat := (members (α := α)).findIdx (fun b => name b == name a) + 1

end Named

end LPRounding
