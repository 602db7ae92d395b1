namespace TaggedSum

def pow2 (k : Nat) : Nat := Nat.pow 2 k

def pow10 (k : Nat) : Nat := Nat.pow 10 k

inductive IntWidth where
  | w8
  | w16
  | w32
  | w64
  deriving DecidableEq

namespace IntWidth

def bits : IntWidth → Nat
  | w8 => 8
  | w16 => 16
  | w32 => 32
  | w64 => 64

def ofBits? : String → Option IntWidth
  | "8" => some w8
  | "16" => some w16
  | "32" => some w32
  | "64" => some w64
  | _ => none

/-- The integers of a signed width are those from `-2 ^ (bits - 1)` to `2 ^ (bits - 1) - 1`. -/
def fitsSigned (w : IntWidth) (n : Int) : Bool :=
  -(pow2 (w.bits - 1) : Int) ≤ n && n < (pow2 (w.bits - 1) : Int)

/-- The integers of an unsigned width are those from `0` to `2 ^ bits - 1`. -/
def fitsUnsigned (w : IntWidth) (n : Int) : Bool := 0 ≤ n && n < (pow2 w.bits : Int)

end IntWidth

end TaggedSum
