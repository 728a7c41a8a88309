import LPRounding.Random.Digest

/-!
Seeds derived from a master seed and the labels of the component that draws, so that each component
has a source of its own whatever the others draw.
-/

namespace LPRounding.Random

inductive Label where
  | text (s : String)
  | number (n : Int)
  | flag (b : Bool)
  | missing
  deriving DecidableEq, Repr

def Label.render : Label → String
  | .text s => s
  | .number n => toString n
  | .flag true => "True"
  | .flag false => "False"
  | .missing => "None"

/-- The first word of the digest of `master:label:label`, without its top bit. -/
def deriveSeed (master : Int) (labels : List Label) : UInt32 :=
  let text := toString master ++ ":" ++ String.intercalate ":" (labels.map Label.render)
  (Digest.digest text.toUTF8.toList).a &&& 0x7FFFFFFF

end LPRounding.Random
