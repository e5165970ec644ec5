/-
  EffectsDsp.Execution.Chorus

  What CHO reads from an oscillator. The flags shape the value in a fixed order: COS
  selects the cosine, REG the latched position, RPTR2 shifts a ramp by half its
  cycle, COMPA complements the value, and NA replaces it as coefficient by the
  crossfade triangle of the ramp. COMPC complements the coefficient in the end.

  Sine values lie in [-1, 1] and move a delay address by 2^14 samples per unit. Ramp
  values run from zero to the length of the ramp in units of 4096 samples, which is
  also how far they move an address.
-/

import EffectsDsp.Execution.Fault
import EffectsDsp.Oscillator.Bank

namespace EffectsDsp

/-- The shaped output of an oscillator. -/
structure LfoReading where
  value : Float
  /-- The delay samples that an address moves per unit of `value`. -/
  offsetScale : Float
  /-- The crossfade coefficient of a ramp, where it is asked for. -/
  crossfade? : Option Float

namespace LfoReading

/-- `v` within [-1, 1]; a NaN stays one. -/
def withinUnit (v : Float) : Float :=
  if v < -1.0 then -1.0
  else if 1.0 < v then 1.0
  else v

/-- The complement towards the unit of the value's own sign. -/
def complement (v : Float) : Float :=
  if v < 0.0 then -1.0 - v else 1.0 - v

/-- The output of a sine oscillator under the given flags. -/
def ofSine (s : Sine) (flags : UInt32) : LfoReading :=
  let wave := s.wave (ChorusFlag.cos.isIn flags) (ChorusFlag.reg.isIn flags)
  let value := wave * s.normalizedAmplitude
  { value := withinUnit (if ChorusFlag.compa.isIn flags then -value else value)
    offsetScale := 16384.0
    crossfade? := none }

/-- The output of a ramp oscillator under the given flags. -/
def ofRamp (r : Ramp) (flags : UInt32) : LfoReading :=
  let start := r.value (ChorusFlag.reg.isIn flags)
  let position :=
    if ChorusFlag.rptr2.isIn flags then Remainder.remainder (start + 0.25) 0.5 else start
  let span := r.amplitude.toFloat / 4096.0
  -- The position runs to one half, the value to the full length of the ramp.
  let value := position * 2.0 * span
  { value := withinUnit (if ChorusFlag.compa.isIn flags then span - value else value)
    offsetScale := 4096.0
    crossfade? :=
      if ChorusFlag.na.isIn flags then some (withinUnit (1.0 - (4.0 * position - 1.0).abs))
      else none }

/-- The output of the selected oscillator. -/
def ofBank (bank : LfoBank) (lfo : LfoSelect) (flags : UInt32) : LfoReading :=
  if lfo.isRamp then ofRamp (bank.rampOf lfo) flags
  else ofSine (bank.sineOf lfo) flags

/-- The coefficient that an instruction scales by. -/
def coefficient (r : LfoReading) (complemented : Bool) : Float :=
  match r.crossfade? with
  | some x => if complemented then 1.0 - x else x
  | none => if complemented then complement r.value else r.value

/-- The whole delay samples that a modulated address moves, and the coefficient of the
    word there: the part of a sample that is left, or the crossfade at an address that
    does not move. -/
def displacement (r : LfoReading) (complemented : Bool) : Int32 × Float :=
  match r.crossfade? with
  | some _ => (0, r.coefficient complemented)
  | none =>
    let position := r.value * r.offsetScale
    let whole := position.floor
    let part := position - whole
    (whole.toInt32, if complemented then 1.0 - part else part)

end LfoReading
end EffectsDsp
