import Cabinet.Number.Rounding

/-! The IEEE 754 binary64 numbers as bit patterns, the exact value of each, and the nearest one to
a ratio of natural numbers. -/

namespace Cabinet

/-- A binary64 number, told apart by its bits: the two zeros differ and a NaN equals itself. -/
structure Binary64 where
  bits : UInt64
  deriving DecidableEq

namespace Binary64

def ofNat (negative : Bool) (n : Nat) : Binary64 :=
  ⟨UInt64.ofNat ((if negative then 0x8000000000000000 else 0) + n)⟩

def negative (x : Binary64) : Bool := 0x8000000000000000 ≤ x.bits.toNat

def fractions : Nat := 0x10000000000000

def field (x : Binary64) : Nat := x.bits.toNat / fractions % 0x800

def fraction (x : Binary64) : Nat := x.bits.toNat % fractions

def nan : Binary64 := ofNat false 0x7FF8000000000000

def infinity (negative : Bool) : Binary64 := ofNat negative 0x7FF0000000000000

def isFinite (x : Binary64) : Bool := x.field ≠ 0x7FF

def isNaN (x : Binary64) : Bool := x.field = 0x7FF ∧ x.fraction ≠ 0

/-- A finite number is `significand · 2 ^ (scale - 1075)`, up to its sign. -/
def significand (x : Binary64) : Nat :=
  if x.field = 0 then x.fraction else fractions + x.fraction

def scale (x : Binary64) : Nat := max x.field 1

def numerator (x : Binary64) : Nat := x.significand * Nat.pow 2 (x.scale - 1075)

def denominator (x : Binary64) : Nat := Nat.pow 2 (1075 - x.scale)

theorem denominator_pos (x : Binary64) : 0 < x.denominator := Nat.two_pow_pos _

/-- The largest `k` with `2 ^ k ≤ num / den`, for positive `num` and `den`. -/
def floorLog (num den : Nat) : Int :=
  let guess : Int := (num.log2 : Int) - den.log2
  if den * Nat.pow 2 guess.toNat ≤ num * Nat.pow 2 (-guess).toNat then guess else guess - 1

/-- The number nearest to `num / den`, a half to the even significand, with the given sign.
Values past the largest finite number by half a step are infinite. -/
def nearest (negative : Bool) (num den : Nat) : Binary64 :=
  if num = 0 then ofNat negative 0
  else
    let scale := (max (floorLog num den) (-1022) + 1023).toNat
    let significand :=
      Number.roundDiv (num * Nat.pow 2 (1075 - scale)) (den * Nat.pow 2 (scale - 1075))
    let magnitude := (scale - 1) * fractions + significand
    if 0x7FF0000000000000 ≤ magnitude then infinity negative else ofNat negative magnitude

end Binary64

end Cabinet
