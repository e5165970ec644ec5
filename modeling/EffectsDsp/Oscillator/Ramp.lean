/-
  EffectsDsp.Oscillator.Ramp

  Ramp oscillators. A counter of 23 bits runs down by a quarter of a signed rate per
  sample and wraps; one of four amplitudes says how many delay samples a full ramp
  spans. The counter of the last advance is latched beside the live one.
-/

import EffectsDsp.Bits

namespace EffectsDsp

structure Ramp where
  counter : Int32
  latched : Int32
  rate : Int32
  amplitude : Int32
  deriving DecidableEq, Repr

namespace Ramp

def initial : Ramp :=
  { counter := 0, latched := 0, rate := 0, amplitude := 4096 }

instance : Inhabited Ramp := ⟨initial⟩

/-- The largest value of the counter. -/
def counterMax : Int32 := 8388607

/-! ## Parameters -/

/-- The rate that a program gets for the one it asks for. -/
def clampRate (raw : Int32) : Int32 :=
  Int32.ofInt (clampInt (-0x4000) 0x7fff raw.toInt)

/-- Sets the rate, and tells whether it had to be clamped. -/
def setRate (r : Ramp) (raw : Int32) : Ramp × Bool :=
  ({ r with rate := clampRate raw }, clampRate raw != raw)

/-- The amplitude that the two lowest bits select, in delay samples. -/
def amplitudeOfIndex (idx : UInt32) : Int32 :=
  match (idx &&& 3).toNat with
  | 0 => 4096
  | 1 => 2048
  | 2 => 1024
  | _ => 512

def setAmplitudeIndex (r : Ramp) (idx : UInt32) : Ramp :=
  { r with amplitude := amplitudeOfIndex idx }

/-- The one of `best` and `other` that is nearer to `raw`; `best` where both are. -/
def nearer (raw best other : Int32) : Int32 :=
  if (other.toInt - raw.toInt).natAbs < (best.toInt - raw.toInt).natAbs then other else best

/-- The amplitude nearest to `raw`; of two equally near ones the larger. -/
def nearestAmplitude (raw : Int32) : Int32 :=
  [2048, 1024, 512].foldl (nearer raw) 4096

/-- Sets the amplitude nearest to `raw`, and tells whether it is another. -/
def setAmplitude (r : Ramp) (raw : Int32) : Ramp × Bool :=
  ({ r with amplitude := nearestAmplitude raw }, nearestAmplitude raw != raw)

/-! ## Motion -/

/-- The counter one sample later. It wraps once in either direction. -/
def nextCounter (r : Ramp) : Int32 :=
  let moved := r.counter - (r.rate >>> 2)
  if moved < 0 then moved + counterMax + 1
  else if counterMax < moved then moved - counterMax - 1
  else moved

/-- Moves the counter by one sample and latches it. -/
def advance (r : Ramp) : Ramp :=
  { r with counter := r.nextCounter, latched := r.nextCounter }

/-- Starts the ramp again; the latched position starts again too. -/
def restart (r : Ramp) : Ramp :=
  { r with counter := 0, latched := 0 }

/-- The position in the cycle of a counter, from 0 to 0.5. -/
def position (counter : Int32) : Float :=
  counter.toFloat / counterMax.toFloat * 0.5

/-- The position at the live counter, or at the latched one. -/
def value (r : Ramp) (latched : Bool) : Float :=
  position (if latched then r.latched else r.counter)

end Ramp
end EffectsDsp
