import TaggedSum.IntWidth

namespace TaggedSum

/-- `num / den` rounded to a natural number, a half to the even neighbour. -/
def roundDiv (num den : Nat) : Nat :=
  let q := num / den
  let r := num % den
  if 2 * r < den then q
  else if den < 2 * r then q + 1
  else if q % 2 = 0 then q else q + 1

/-- The largest `k` with `2 ^ k ≤ num / den`. -/
def floorLog (num den : Nat) : Int :=
  let k : Int := (num.log2 : Int) - den.log2
  if den * pow2 k.toNat ≤ num * pow2 (-k).toNat then k else k - 1

/-- The number `± significand * 2 ^ exponent`; zero keeps its sign. -/
structure Binary64 where
  negative : Bool
  significand : Nat
  exponent : Int
  deriving DecidableEq

namespace Binary64

def precision : Nat := 53

def minExponent : Int := -1074

def maxExponent : Int := 971

def zero (negative : Bool) : Binary64 := ⟨negative, 0, minExponent⟩

def isZero (x : Binary64) : Bool := x.significand == 0

/-- The magnitude is `x.num / x.den`. -/
def num (x : Binary64) : Nat := x.significand * pow2 x.exponent.toNat

def den (x : Binary64) : Nat := pow2 (-x.exponent).toNat

/-- The double nearest to `± num / den`; none if its magnitude is too large. -/
def ofRatio? (negative : Bool) (num den : Nat) : Option Binary64 :=
  if num = 0 then some (zero negative)
  else
    let e := max minExponent (floorLog num den - 52)
    let m := roundDiv (num * pow2 (-e).toNat) (den * pow2 e.toNat)
    let x : Binary64 :=
      if m = pow2 precision then ⟨negative, pow2 (precision - 1), e + 1⟩ else ⟨negative, m, e⟩
    if x.exponent ≤ maxExponent then some x else none

def ofNat? (n : Nat) : Option Binary64 := ofRatio? false n 1

def mul? (x y : Binary64) : Option Binary64 :=
  ofRatio? (x.negative != y.negative) (x.num * y.num) (x.den * y.den)

def div? (x y : Binary64) : Option Binary64 :=
  if y.isZero then none
  else ofRatio? (x.negative != y.negative) (x.num * y.den) (x.den * y.num)

def withSign (negative : Bool) (x : Binary64) : Binary64 := { x with negative }

/-- The integer that the double is, if it is one. -/
def toInt? (x : Binary64) : Option Int :=
  if x.num % x.den = 0 then
    let n : Int := (x.num / x.den : Nat)
    some (if x.negative then -n else n)
  else none

end Binary64

end TaggedSum
