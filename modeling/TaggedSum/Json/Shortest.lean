import TaggedSum.Json.Binary64

namespace TaggedSum

/-- The decimal `digits * 10 ^ scale`. -/
structure Decimal where
  digits : Nat
  scale : Int
  deriving DecidableEq

namespace Binary64

/-- Four times the significand: in this unit the bounds of the decimals that read back are integers.
-/
def quarters (x : Binary64) : Nat := 4 * x.significand

/-- The decimals that read back lie above this bound; below a power of two doubles lie closer. -/
def lowerQuarters (x : Binary64) : Nat :=
  if x.significand = pow2 (precision - 1) && minExponent < x.exponent then x.quarters - 1
  else x.quarters - 2

def upperQuarters (x : Binary64) : Nat := x.quarters + 2

/-- Whether `d * 10 ^ k` reads back as the double; a bound itself does if the significand is even.
-/
def absorbs (x : Binary64) (d : Nat) (k : Int) : Bool :=
  let e := x.exponent - 2
  let point := d * pow10 k.toNat * pow2 (-e).toNat
  let unit := pow10 (-k).toNat * pow2 e.toNat
  let lower := x.lowerQuarters * unit
  let upper := x.upperQuarters * unit
  if x.significand % 2 = 0 then lower ≤ point && point ≤ upper else lower < point && point < upper

/-- The point of the grid of `10 ^ k` that reads back as the double, the nearer one of two. -/
def onGrid? (x : Binary64) (k : Int) : Option Decimal :=
  let num := x.num * pow10 (-k).toNat
  let den := x.den * pow10 k.toNat
  let below := num / den
  match x.absorbs below k, x.absorbs (below + 1) k with
  | true, true => some ⟨roundDiv num den, k⟩
  | true, false => some ⟨below, k⟩
  | false, true => some ⟨below + 1, k⟩
  | false, false => none

/-- The grids from the coarsest that can hold a double to one as fine as the least double. -/
def grids : List Int := (List.range 634).map fun i : Nat => 309 - (i : Int)

/-- Of the decimals that are nearer to the double than to any other, one with the fewest digits, and
of those the nearest. -/
def shortest (x : Binary64) : Decimal :=
  if x.isZero then ⟨0, 0⟩ else (grids.findSome? x.onGrid?).getD ⟨0, 0⟩

end Binary64

namespace Decimal

def digitChars (n : Nat) : List Char := Nat.toDigits 10 n

/-- An exponent with its sign, which is never left out. -/
def exponentChars (e : Int) : List Char :=
  'e' :: (if e < 0 then '-' else '+') :: digitChars e.natAbs

/-- Positional from `0.00001` up to sixteen whole digits, always with a fraction; beyond that one
digit before the point and an exponent. -/
def chars (d : Decimal) : List Char :=
  let ds := digitChars d.digits
  let point : Int := ds.length + d.scale
  if 0 ≤ d.scale && point ≤ 16 then ds ++ List.replicate d.scale.toNat '0' ++ ['.', '0']
  else if 0 < point && point ≤ 16 then ds.take point.toNat ++ '.' :: ds.drop point.toNat
  else if -5 < point && point ≤ 0 then '0' :: '.' :: (List.replicate (-point).toNat '0' ++ ds)
  else
    let mantissa := match ds with
      | [d] => [d]
      | d :: rest => d :: '.' :: rest
      | [] => []
    mantissa ++ exponentChars (point - 1)

end Decimal

def Binary64.chars (x : Binary64) : List Char :=
  if x.negative then '-' :: x.shortest.chars else x.shortest.chars

end TaggedSum
