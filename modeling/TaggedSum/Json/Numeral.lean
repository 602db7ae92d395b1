import TaggedSum.Json.Basic

namespace TaggedSum

/-- A literal: its sign, its digits before and behind the point, and its exponent with its sign. -/
structure Numeral where
  negative : Bool
  whole : List Nat
  fraction : Option (List Nat)
  exponent : Option (Bool × List Nat)
  deriving DecidableEq

namespace Numeral

def maxSignificand : Nat := pow2 64 - 1

def maxExponent : Nat := pow2 31 - 1

/-- Appends digits to a significand as long as they fit, and gives those from the first misfit on.
-/
def absorb (significand : Nat) : List Nat → Nat × List Nat
  | [] => (significand, [])
  | d :: ds =>
    if significand * 10 + d ≤ maxSignificand then absorb (significand * 10 + d) ds
    else (significand, d :: ds)

def ofDigits (ds : List Nat) : Nat := ds.foldl (fun n d => n * 10 + d) 0

/-- Multiplies or divides by a power of ten, in steps of `10 ^ 308` for a large divisor. -/
def scaleByTen (x : Binary64) (e : Int) : Option Binary64 :=
  if e.natAbs ≤ 308 then do
    let ten ← Binary64.ofNat? (pow10 e.natAbs)
    if 0 ≤ e then x.mul? ten else x.div? ten
  else if x.isZero then some x
  else if 0 ≤ e then none
  else do scaleByTen (← x.div? (← Binary64.ofNat? (pow10 308))) (e + 308)
termination_by (-e).toNat

def double? (negative : Bool) (significand : Nat) (e : Int) : Option Number := do
  let x ← scaleByTen (← Binary64.ofNat? significand) e
  return .double (x.withSign negative)

/-- A literal without point and exponent is an integer if one of 64 bits holds it; minus zero is
not. -/
def integer? (negative : Bool) (n : Nat) : Option Number :=
  if !negative then some (.integer n)
  else if 0 < n && n ≤ pow2 63 then some (.integer (-n))
  else double? negative n 0

/-- The number of a literal. The digits go into a significand of 64 bits as long as it holds them;
the power of ten that is left is applied to the nearest double in one rounded product or quotient,
so the result can miss the nearest double of the literal. -/
def value? (l : Numeral) : Option Number :=
  let (significand, dropped) := absorb 0 l.whole
  if dropped.isEmpty && l.fraction.isNone && l.exponent.isNone then
    integer? l.negative significand
  else
    -- whole digits that do not fit leave their power of ten, digits of the fraction leave nothing
    let fraction := l.fraction.getD []
    let (significand, ignored) := absorb significand fraction
    let e : Int := dropped.length - ((fraction.length - ignored.length : Nat) : Int)
    match l.exponent with
    | none => double? l.negative significand e
    | some (negativeExponent, ds) =>
      let n := ofDigits ds
      if maxExponent < n then
        if significand = 0 || negativeExponent then some (.double (.zero l.negative)) else none
      else double? l.negative significand (if negativeExponent then e - n else e + n)

end Numeral

end TaggedSum
