import LPRounding.Graph.Basic

/-!
Answers that are handed over while a run is still going on. What the list held before the run is
kept whatever happens; what the run added can be withdrawn.
-/

namespace LPRounding

structure Sink where
  entries : List Choice
  kept : Nat

namespace Sink

def ofList (entries : List Choice) : Sink := { entries, kept := entries.length }

def push (s : Sink) (c : Choice) : Sink := { s with entries := s.entries ++ [c] }

def added (s : Sink) : List Choice := s.entries.drop s.kept

def withdraw (s : Sink) : Sink := { s with entries := s.entries.take s.kept }

end Sink

end LPRounding
