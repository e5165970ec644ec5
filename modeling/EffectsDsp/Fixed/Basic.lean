/-
  EffectsDsp.Fixed.Basic

  Fixed-point values. Every register, the accumulators and all coefficients share
  one form: a signed 32-bit number of units of 2^-23, the Q-format it was imported
  with, and a count of the clamps behind it. The format matters for export and
  comparison only; arithmetic works on the number.

  An arithmetic result is the exact integer result brought into the 24 bits of the
  datapath, or into the 32-bit container for a value that does not saturate. A
  result outside the datapath is counted in both cases.
-/

import EffectsDsp.Bits
import EffectsDsp.QFormat

namespace EffectsDsp

/-- The smallest number the 24-bit datapath holds. -/
def datapathMin : Int := -8388608

/-- The largest number the 24-bit datapath holds. -/
def datapathMax : Int := 8388607

/-- The number fits the 24 bits of the datapath. -/
def InDatapath (v : Int) : Prop :=
  datapathMin ≤ v ∧ v ≤ datapathMax

instance (v : Int) : Decidable (InDatapath v) :=
  inferInstanceAs (Decidable (_ ∧ _))

/-- A fixed-point value with its declared format. -/
structure Fixed where
  /-- The value in units of 2^-23. -/
  raw : Int32
  format : QFormat
  /-- Results stay within the datapath. -/
  saturating : Bool
  /-- Clamps in the computation that produced this value. -/
  clamps : UInt16
  deriving DecidableEq, Repr

namespace Fixed

/-! ## Construction -/

/-- A saturating value of `raw` units in the internal format. -/
def ofRaw (raw : Int32) : Fixed :=
  { raw, format := .internal, saturating := true, clamps := 0 }

def zero : Fixed := ofRaw 0

instance : Inhabited Fixed := ⟨zero⟩

/-- The same number declared to be in another format. -/
def withFormat (x : Fixed) (fmt : QFormat) : Fixed :=
  { x with format := fmt }

/-- The same number with results that stay within the datapath or do not. -/
def withSaturating (x : Fixed) (saturating : Bool) : Fixed :=
  { x with saturating }

/-! ## Import and export -/

/-- Takes the lowest bits of `bits` as a number in `fmt`, which becomes the declared
    format. No bit is lost, as each format fits the internal one. -/
def importQ (x : Fixed) (bits : UInt32) (fmt : QFormat) : Fixed :=
  { x with
    raw := Int32.ofInt ((signExtend bits fmt.width).toInt <<< fmt.shift)
    format := fmt
    clamps := 0 }

/-- The saturating value whose lowest bits in `fmt` are those of `bits`. -/
def ofQ (bits : UInt32) (fmt : QFormat) : Fixed :=
  zero.importQ bits fmt

/-- Takes the nearest number of units, halves away from zero, within the container.
    A NaN counts as zero. -/
def importFloat (x : Fixed) (f : Float) : Fixed :=
  { x with raw := (f * 8388608.0).round.toInt32, clamps := 0 }

/-- The saturating value nearest to `f`. -/
def ofFloat (f : Float) : Fixed :=
  zero.importFloat f

/-- The exact value as a binary fraction. -/
def toFloat (x : Fixed) : Float :=
  x.raw.toFloat / 8388608.0

/-- The bit pattern of the value in `fmt`, dropping fraction bits that `fmt` does not
    have, and whether the value lies outside the range of `fmt`. -/
def toQ (x : Fixed) (fmt : QFormat) : UInt32 × Bool :=
  let units : Int := x.raw.toInt >>> fmt.shift
  let half : Int := (1 : Int) <<< (fmt.width - 1)
  (UInt32.ofInt units &&& lowMask fmt.width, !decide (-half ≤ units ∧ units < half))

/-- The value as a 24-bit delay memory word, and whether it does not fit. -/
def toSample (x : Fixed) : Int32 × Bool :=
  let (bits, overflow) := x.toQ .sample
  (signExtend bits 24, overflow)

/-! ## Clamps -/

/-- A sum of clamp counts, which stops at the largest count. -/
def addClamps (a b : UInt16) : UInt16 :=
  UInt16.ofNat (min (a.toNat + b.toNat) 65535)

/-- Some operation behind this value clamped. -/
def overflowed (x : Fixed) : Bool :=
  x.clamps != 0

/-- The same value without its clamps, for which the caller has taken the count. -/
def withoutClamps (x : Fixed) : Fixed :=
  { x with clamps := 0 }

/-! ## Arithmetic -/

/-- The number that stands for the exact result `exact` in the given mode. -/
def bounded (saturating : Bool) (exact : Int) : Int32 :=
  Int32.ofInt <|
    if saturating then clampInt datapathMin datapathMax exact
    else clampInt (-2147483648) 2147483647 exact

/-- Takes the exact result `exact` of an operation whose operand brings `inherited`
    clamps. -/
def store (x : Fixed) (exact : Int) (inherited : UInt16) : Fixed :=
  { x with
    raw := bounded x.saturating exact
    clamps := addClamps (addClamps x.clamps inherited) (if InDatapath exact then 0 else 1) }

def add (x y : Fixed) : Fixed :=
  x.store (x.raw.toInt + y.raw.toInt) y.clamps

def sub (x y : Fixed) : Fixed :=
  x.store (x.raw.toInt - y.raw.toInt) y.clamps

/-- The product, rounded towards minus infinity. -/
def mul (x y : Fixed) : Fixed :=
  x.store ((x.raw.toInt * y.raw.toInt) >>> (23 : Nat)) y.clamps

/-- The magnitude. -/
def abs (x : Fixed) : Fixed :=
  x.store x.raw.toInt.natAbs 0

/-! ## Bit operations on the 24-bit pattern -/

/-- Applies `f` to the 24-bit two's complement pattern. -/
def mapBits (x : Fixed) (f : UInt32 → UInt32) : Fixed :=
  { x with raw := signExtend (f x.raw.toUInt32) 24 }

def and (x : Fixed) (mask : UInt32) : Fixed :=
  x.mapBits (· &&& mask)

def or (x : Fixed) (mask : UInt32) : Fixed :=
  x.mapBits (· ||| mask)

def xor (x : Fixed) (mask : UInt32) : Fixed :=
  x.mapBits (· ^^^ mask)

def not (x : Fixed) : Fixed :=
  x.mapBits (~~~ ·)

/-! ## Comparison -/

def isNegative (x : Fixed) : Bool :=
  x.raw < 0

def isZero (x : Fixed) : Bool :=
  x.raw == 0

/-- Both values are the same number of units of 2^-`fracBits`, rounded down. -/
def agreesAt (x y : Fixed) (fracBits : Nat) : Bool :=
  x.raw.toInt >>> (23 - fracBits) == y.raw.toInt >>> (23 - fracBits)

/-- Both values agree at the coarser of their declared precisions. -/
def agrees (x y : Fixed) : Bool :=
  x.agreesAt y (min x.format.fracBits y.format.fracBits)

/-- The larger value; `x` where both are the same number. -/
def larger (x y : Fixed) : Fixed :=
  if x.raw < y.raw then y else x

end Fixed
end EffectsDsp
