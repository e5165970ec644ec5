/-
  EffectsDsp.RegisterFile.Address

  The address map of the register file. The lowest eight addresses configure the
  oscillators: rate and range of each, in order. Some others are wired to the
  outside of the chip.
-/

import EffectsDsp.Oscillator.Select

namespace EffectsDsp

namespace Address

def pot0 : UInt8 := 0x10
def pot1 : UInt8 := 0x11
def pot2 : UInt8 := 0x12
def inputLeft : UInt8 := 0x14
def inputRight : UInt8 := 0x15
def outputLeft : UInt8 := 0x16
def outputRight : UInt8 := 0x17

/-- The delay address that RMPA reads from. -/
def delayPointer : UInt8 := 0x18

/-- The address of a potentiometer, if there is one with this number. -/
def pot? (n : Nat) : Option UInt8 :=
  [pot0, pot1, pot2][n]?

/-- The oscillator parameter at an address. -/
def lfoParam? (address : UInt8) : Option (LfoSelect × LfoParam) :=
  if address ≤ 7 then
    some (.ofBits (address >>> 1).toUInt32, if address &&& 1 = 0 then .rate else .range)
  else none

/-- The address of an oscillator parameter. -/
def ofLfoParam (lfo : LfoSelect) (p : LfoParam) : UInt8 :=
  UInt8.ofNat (2 * lfo.index + match p with | .rate => 0 | .range => 1)

/-- The place of a parameter's lowest bit in a 24-bit accumulator: a 9-bit sine rate
    stands at the top of the word, the longer ones start at bit 8. -/
def paramShift (lfo : LfoSelect) (p : LfoParam) : Nat :=
  match lfo.isRamp, p with
  | false, .rate => 14
  | _, _ => 8

theorem lfoParam?_ofLfoParam (lfo : LfoSelect) (p : LfoParam) :
    lfoParam? (ofLfoParam lfo p) = some (lfo, p) := by
  cases lfo <;> cases p <;> decide

end Address
end EffectsDsp
