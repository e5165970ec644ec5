/-
  EffectsDsp.Execution.Fault

  Flags of the skip and CHO instructions, and the faults that stop a sample. Data
  faults are counted by the machine and stop nothing; only CHO flags that the
  oscillator cannot provide, reserved encodings and runaway samples are faults here.
-/

import EffectsDsp.Oscillator.Select

namespace EffectsDsp

/-- A flag of the CHO instructions. -/
inductive ChorusFlag where
  /-- The cosine instead of the sine. -/
  | cos
  /-- The position latched at the last advance. -/
  | reg
  /-- The complement of the coefficient. -/
  | compc
  /-- The complement of the oscillator value. -/
  | compa
  /-- A ramp shifted by half its cycle. -/
  | rptr2
  /-- The crossfade triangle of a ramp. -/
  | na
  deriving DecidableEq, Repr

namespace ChorusFlag

/-- The bit of the flag in the flags operand. -/
def bit : ChorusFlag → UInt32
  | cos => 0x01
  | reg => 0x02
  | compc => 0x04
  | compa => 0x08
  | rptr2 => 0x10
  | na => 0x20

/-- The flag is set in a flags operand. -/
def isIn (flag : ChorusFlag) (flags : UInt32) : Bool :=
  flags &&& flag.bit != 0

/-- An oscillator of this kind provides the flag. -/
def suits (flag : ChorusFlag) (lfo : LfoSelect) : Bool :=
  match flag with
  | cos => !lfo.isRamp
  | rptr2 | na => lfo.isRamp
  | reg | compc | compa => true

/-- The written form. -/
def name : ChorusFlag → String
  | cos => "COS"
  | reg => "REG"
  | compc => "COMPC"
  | compa => "COMPA"
  | rptr2 => "RPTR2"
  | na => "NA"

/-- The first flag, of those that only one kind of oscillator has, that is set and that
    the oscillator does not provide. -/
def misfit? (flags : UInt32) (lfo : LfoSelect) : Option ChorusFlag :=
  [cos, rptr2, na].find? fun flag => flag.isIn flags && !flag.suits lfo

end ChorusFlag

/-- Why a sample stops. -/
inductive Fault where
  /-- The oscillator does not provide the flag. -/
  | incompatibleFlag (ip : UInt64) (flag : ChorusFlag) (lfo : LfoSelect)
  | reserved (ip : UInt64)
  | instructionLimit (limit : Nat)
  | outsideProgram (ip : UInt64)
  deriving DecidableEq, Repr

def Fault.message : Fault → String
  | incompatibleFlag ip flag lfo =>
    "instruction " ++ toString ip.toNat ++ ": " ++ flag.name ++ " cannot be used with " ++
      lfo.name
  | reserved ip => "instruction " ++ toString ip.toNat ++ " uses a reserved encoding"
  | instructionLimit limit =>
    "sample did not finish within " ++ toString limit ++ " instructions"
  | outsideProgram ip =>
    "instruction pointer " ++ toString ip.toNat ++ " is outside the program"

end EffectsDsp
