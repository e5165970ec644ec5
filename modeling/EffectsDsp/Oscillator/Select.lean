/-
  EffectsDsp.Oscillator.Select

  The names of the four oscillators and of their parameters.
-/

namespace EffectsDsp

/-- One of the four oscillators. -/
inductive LfoSelect where
  | sin0
  | sin1
  | rmp0
  | rmp1
  deriving DecidableEq, Repr

/-- What an oscillator can be told. -/
inductive LfoParam where
  | rate
  /-- The amplitude of a sine, the length of a ramp. -/
  | range
  deriving DecidableEq, Repr

namespace LfoSelect

/-- The oscillator that the two lowest bits select. -/
def ofBits (bits : UInt32) : LfoSelect :=
  match (bits &&& 3).toNat with
  | 0 => sin0
  | 1 => sin1
  | 2 => rmp0
  | _ => rmp1

/-- The number of the oscillator among all four. -/
def index : LfoSelect → Fin 4
  | sin0 => 0
  | sin1 => 1
  | rmp0 => 2
  | rmp1 => 3

def isRamp : LfoSelect → Bool
  | sin0 | sin1 => false
  | rmp0 | rmp1 => true

/-- The number of the oscillator within its own kind. -/
def unit : LfoSelect → Fin 2
  | sin0 | rmp0 => 0
  | sin1 | rmp1 => 1

/-- The written form. -/
def name : LfoSelect → String
  | sin0 => "SIN0"
  | sin1 => "SIN1"
  | rmp0 => "RMP0"
  | rmp1 => "RMP1"

/-- The ramps come after the sines. -/
theorem isRamp_ofBits_or (bits : UInt32) : (ofBits (2 ||| bits)).isRamp = true := by
  have hbit : ((2 ||| bits) &&& 3).toNat.testBit 1 = true := by
    rw [UInt32.toNat_and, UInt32.toNat_or, Nat.testBit_and, Nat.testBit_or]
    rfl
  unfold ofBits
  split
  · next h => rw [h] at hbit; cases hbit
  · next h => rw [h] at hbit; cases hbit
  · rfl
  · rfl

end LfoSelect
end EffectsDsp
