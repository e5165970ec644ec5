/-
  EffectsDsp.Oscillator.Phase

  The phase of a sine oscillator, in radians. It is kept as a binary64 bit pattern,
  so that a phase that is not a number is kept exactly as well.
-/

import EffectsDsp.Remainder

namespace EffectsDsp

/-- One turn in radians. -/
def tau : Float := Float.ofBits 0x401921fb54442d18

/-- A phase in radians. -/
structure Phase where
  bits : UInt64
  deriving DecidableEq, Repr

namespace Phase

def zero : Phase := ⟨0⟩

instance : Inhabited Phase := ⟨zero⟩

def ofFloat (f : Float) : Phase := ⟨f.toBits⟩

def toFloat (p : Phase) : Float := Float.ofBits p.bits

/-- The phase `step` radians later, within one turn. A NaN stays the same NaN made
    quiet, and an infinite phase has no remainder: it becomes the default NaN, whose
    sign bit is set. -/
def advance (p : Phase) (step : Float) : Phase :=
  if p.toFloat.isNaN then ⟨p.bits ||| 0x0008000000000000⟩
  else if p.toFloat.isInf then ⟨0xfff8000000000000⟩
  else ofFloat (Remainder.remainder (p.toFloat + step) tau)

def sin (p : Phase) : Float := p.toFloat.sin

def cos (p : Phase) : Float := p.toFloat.cos

end Phase
end EffectsDsp
