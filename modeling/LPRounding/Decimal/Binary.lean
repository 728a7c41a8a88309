/-!
Binary floating point values as exact numbers: a finite one is a signed integer times a power of
two.
-/

namespace LPRounding.Decimal

inductive Binary where
  | finite (negative : Bool) (mantissa : Nat) (exponent : Int)
  | infinite (negative : Bool)
  | undefined
  deriving DecidableEq, Repr

def leadingBit : Nat := 1 <<< 52

/-- Reads sign, exponent and fraction fields; subnormal values share the smallest exponent. -/
def Binary.ofFloat (x : Float) : Binary :=
  let bits := x.toBits.toNat
  let negative := bits >>> 63 == 1
  let field := (bits >>> 52) % 2048
  let fraction := bits % leadingBit
  if field == 2047 then if fraction == 0 then .infinite negative else .undefined
  else if field == 0 then .finite negative fraction (-1074)
  else .finite negative (fraction + leadingBit) (field - 1075)

def power (base : Nat) (e : Int) : Rat :=
  if 0 ≤ e then Nat.pow base e.toNat else mkRat 1 (Nat.pow base (-e).toNat)

def Binary.toRat? : Binary → Option Rat
  | .finite negative m e =>
    let magnitude : Rat := m * power 2 e
    some (if negative then -magnitude else magnitude)
  | _ => none

def Binary.whole? : Binary → Option Int
  | .finite negative m e =>
    let magnitude : Int := (m <<< e.toNat) >>> (-e).toNat
    some (if negative then -magnitude else magnitude)
  | _ => none

/-- The nearest floating point value: 64 leading bits of the quotient, the last one sticky. -/
def nearest (q : Rat) : Float :=
  let n := q.num.natAbs
  if n == 0 then 0 else
  let shift : Int := 64 + q.den.log2 - n.log2
  let top := n <<< shift.toNat
  let bottom := q.den <<< (-shift).toNat
  let lead := top / bottom
  let sticky := if top % bottom == 0 then lead else lead ||| 1
  let magnitude := (Float.ofNat sticky).scaleB (-shift)
  if q.num < 0 then -magnitude else magnitude

end LPRounding.Decimal
