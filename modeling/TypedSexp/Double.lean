import TypedSexp.Text.Basic

/-!
Numbers of double precision. A decimal is read as the double nearest to it, and a double is written
as the shortest decimal that is read as the same double. Both are computed with exact naturals.
-/

namespace TypedSexp

structure Decimal where
  negative : Bool
  digits : Nat
  exponent : Int
deriving DecidableEq, Repr

namespace Decimal

def trimZeros : (fuel n dropped : Nat) → Nat × Nat
  | 0, n, dropped => (n, dropped)
  | fuel + 1, n, dropped =>
      if n ≠ 0 && n % 10 = 0 then trimZeros fuel (n / 10) (dropped + 1) else (n, dropped)

def toText (d : Decimal) : Text :=
  let (n, dropped) := trimZeros (Text.ofNat d.digits).length d.digits 0
  let exponent := d.exponent + dropped
  let sign := if d.negative then utf8 "-" else []
  if n = 0 then sign ++ utf8 "0"
  else if 0 ≤ exponent then sign ++ Text.ofNat n ++ List.replicate exponent.toNat 48
  else
    let places := (-exponent).toNat
    let digits := Text.ofNatPadded (places + 1) n
    sign ++ digits.take (digits.length - places) ++ utf8 "." ++
      digits.drop (digits.length - places)

end Decimal

structure Fraction where
  num : Nat
  den : Nat
deriving DecidableEq, Repr

namespace Fraction

def scaled (n base : Nat) (exponent : Int) : Fraction :=
  if 0 ≤ exponent then ⟨n * Nat.pow base exponent.toNat, 1⟩
  else ⟨n, Nat.pow base (-exponent).toNat⟩

def mul (a b : Fraction) : Fraction := ⟨a.num * b.num, a.den * b.den⟩

def floor (a : Fraction) : Nat := a.num / a.den

def round (a : Fraction) : Nat :=
  let q := a.num / a.den
  let twice := 2 * (a.num % a.den)
  if twice < a.den then q else if a.den < twice then q + 1 else if q % 2 = 0 then q else q + 1

def le (a b : Fraction) : Bool := a.num * b.den ≤ b.num * a.den

def distance (a b : Fraction) : Fraction :=
  let x := a.num * b.den
  let y := b.num * a.den
  ⟨(x - y) + (y - x), a.den * b.den⟩

end Fraction

inductive Double where
  | nan
  | infinite (negative : Bool)
  | finite (negative : Bool) (mantissa : Nat) (exponent : Int)
deriving DecidableEq, Repr

namespace Double

def minExponent : Int := -1074

def maxExponent : Int := 971

def fullMantissa : Nat := 0x10000000000000

def zero (negative : Bool) : Double := .finite negative 0 minExponent

def exponentFor (a : Fraction) : Int :=
  let guess : Int := (Nat.log2 a.num : Int) - Nat.log2 a.den - 52
  if (a.mul (.scaled 1 2 (-guess))).floor < fullMantissa then guess - 1 else guess

def ofFraction? (negative : Bool) (a : Fraction) : Option Double :=
  let exponent := if exponentFor a < minExponent then minExponent else exponentFor a
  let mantissa := (a.mul (.scaled 1 2 (-exponent))).round
  let (mantissa, exponent) :=
    if mantissa = 2 * fullMantissa then (fullMantissa, exponent + 1) else (mantissa, exponent)
  if maxExponent < exponent then none else some (.finite negative mantissa exponent)

def ofDecimal? (d : Decimal) : Option Double :=
  let places := (Text.ofNat d.digits).length + d.exponent
  if d.digits = 0 || places < -330 then some (zero d.negative)
  else if 310 < places then none
  else ofFraction? d.negative (.scaled d.digits 10 d.exponent)

def ofInt (n : Int) : Double :=
  (ofDecimal? ⟨n < 0, n.natAbs, 0⟩).getD (zero false)

/-- The fractions that are read as the double `mantissa * 2 ^ exponent` lie between these two; the
gap below is half as wide where the exponent changes. -/
def interval (mantissa : Nat) (exponent : Int) : Fraction × Fraction :=
  let below :=
    if mantissa = fullMantissa && minExponent < exponent then 4 * mantissa - 1
    else 4 * mantissa - 2
  (.scaled below 2 (exponent - 2), .scaled (4 * mantissa + 2) 2 (exponent - 2))

/-- Whether a fraction is read as the double; the ends of the interval are if the mantissa is
even. -/
def readsAs (mantissa : Nat) (exponent : Int) (a : Fraction) : Bool :=
  let (low, high) := interval mantissa exponent
  if mantissa % 2 = 0 then low.le a && a.le high else !a.le low && !high.le a

def placesBefore (a : Fraction) : Int :=
  (Text.ofNat (a.mul (.scaled 1 10 350)).floor).length - 350

/-- The decimal with `digits` digits, more if that is too few, that is read as the double and is
nearest to it; `fuel` bounds the number of digits. -/
def shortestFrom (mantissa : Nat) (exponent : Int) : (fuel digits : Nat) → Nat × Int
  | 0, _ => (mantissa, exponent)
  | fuel + 1, digits =>
      let value := Fraction.scaled mantissa 2 exponent
      let unit := placesBefore value - digits
      let below := (value.mul (.scaled 1 10 (-unit))).floor
      let hits := [below, below + 1].filter fun n =>
        readsAs mantissa exponent (.scaled n 10 unit)
      match hits with
      | [] => shortestFrom mantissa exponent fuel (digits + 1)
      | [n] => (n, unit)
      | _ =>
          let gap (n : Nat) := (Fraction.scaled n 10 unit).distance value
          if !(gap (below + 1)).le (gap below) then (below, unit)
          else if !(gap below).le (gap (below + 1)) then (below + 1, unit)
          else if below % 2 = 0 then (below, unit) else (below + 1, unit)

def shortest (negative : Bool) (mantissa : Nat) (exponent : Int) : Decimal :=
  if mantissa = 0 then ⟨negative, 0, 0⟩
  else
    let (digits, exponent) := shortestFrom mantissa exponent 20 1
    ⟨negative, digits, exponent⟩

def toText : Double → Text
  | .nan => utf8 "NaN"
  | .infinite negative => if negative then utf8 "-Inf" else utf8 "+Inf"
  | .finite negative mantissa exponent => (shortest negative mantissa exponent).toText

def isZero : Double → Bool
  | .finite _ mantissa _ => mantissa = 0
  | _ => false

end Double

end TypedSexp
