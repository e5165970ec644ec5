/-
  EffectsDsp.Remainder

  The exact remainder of binary64 numbers. Both operands are whole multiples of a
  common power of two, so the remainder of a division that rounds towards zero is
  one of integers, and it is representable.
-/

namespace EffectsDsp.Remainder

/-- A finite magnitude: `significand * 2 ^ exponent`. -/
structure Magnitude where
  significand : Nat
  exponent : Int
  deriving DecidableEq, Repr

namespace Magnitude

/-- The leading digit of a normal significand, which a bit pattern leaves out. -/
def leadingDigit : Nat := 0x10000000000000

/-- The magnitude of the finite number with the given bit pattern. -/
def ofBits (bits : UInt64) : Magnitude :=
  let biased := ((bits >>> 52) &&& 0x7ff).toNat
  let fraction := (bits &&& 0x000fffffffffffff).toNat
  if biased = 0 then ⟨fraction, -1074⟩ else ⟨fraction + leadingDigit, (biased : Int) - 1075⟩

/-- The bit pattern without sign of a magnitude that binary64 represents. -/
def toBits (m : Magnitude) : UInt64 :=
  if m.significand = 0 then 0
  else
    -- A significand that cannot reach its leading digit belongs to a subnormal number.
    let spare := min (52 - m.significand.log2) (m.exponent + 1074).toNat
    let significand := m.significand <<< spare
    let exponent := m.exponent - spare
    if significand < leadingDigit then UInt64.ofNat significand
    else UInt64.ofNat ((exponent + 1075).toNat * leadingDigit + (significand - leadingDigit))

/-- The remainder of `x` by `y`, counted in the finer of their units. -/
def remainder (x y : Magnitude) : Magnitude :=
  let unit := min x.exponent y.exponent
  let count (m : Magnitude) := m.significand <<< (m.exponent - unit).toNat
  ⟨count x % count y, unit⟩

end Magnitude

/-- The remainder of `x` by `y` with the sign of `x`. It is NaN where there is no
    quotient: for an infinite `x`, a zero `y` and NaN operands. -/
def remainder (x y : Float) : Float :=
  if x.isNaN || y.isNaN || x.isInf || y == 0.0 then 0.0 / 0.0
  -- A smaller magnitude is its own remainder, also where `y` is infinite.
  else if x.abs < y.abs then x
  else
    let sign := x.toBits &&& 0x8000000000000000
    let rest := (Magnitude.ofBits x.toBits).remainder (Magnitude.ofBits y.toBits)
    Float.ofBits (sign ||| rest.toBits)

end EffectsDsp.Remainder
