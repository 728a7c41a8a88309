import LPRounding.Decimal.Shortest

/-!
Decimals with six places: the exact value rounded to the nearest millionth, a tie to the even one.
-/

namespace LPRounding.Decimal

def roundHalfEven (n d : Nat) : Nat :=
  let q := n / d
  let r := n % d
  if d < 2 * r || (2 * r == d && q % 2 == 1) then q + 1 else q

def million : Nat := 1000000

def millionths (m : Nat) (e : Int) : Nat :=
  roundHalfEven ((m * million) <<< e.toNat) (1 <<< (-e).toNat)

/-- A whole part, a point and six digits; zero carries no sign. -/
def sixPlaces (x : Float) : String :=
  match Binary.ofFloat x with
  | .undefined => "nan"
  | .infinite negative => signed negative "inf"
  | .finite negative m e =>
    let n := millionths m e
    let places := Nat.toDigits 10 (n % million)
    let text := Nat.toDigits 10 (n / million) ++ ['.'] ++
      List.replicate (6 - places.length) '0' ++ places
    signed (negative && n != 0) (String.ofList text)

end LPRounding.Decimal
