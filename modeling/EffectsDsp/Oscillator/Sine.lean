/-
  EffectsDsp.Oscillator.Sine

  Sine oscillators. A 9-bit rate moves the phase once per sample; a 15-bit amplitude
  scales what the instructions read. The phase of the last advance is latched beside
  the live one.
-/

import EffectsDsp.Bits
import EffectsDsp.Oscillator.Phase

namespace EffectsDsp

structure Sine where
  angle : Phase
  latched : Phase
  rate : Int32
  amplitude : Int32
  deriving DecidableEq, Repr

namespace Sine

def initial : Sine :=
  { angle := .zero, latched := .zero, rate := 0, amplitude := 0 }

instance : Inhabited Sine := ⟨initial⟩

/-- The sample rate that the rates are nominal for. -/
def nominalSampleRate : UInt32 := 32768

/-- The clock of the phase accumulator. -/
def referenceClock : Float := 131072.0

/-! ## Parameters -/

/-- The rate that a program gets for the one it asks for. -/
def clampRate (raw : Int32) : Int32 :=
  Int32.ofInt (clampInt 0 0x1ff raw.toInt)

/-- The amplitude that a program gets for the one it asks for. -/
def clampAmplitude (raw : Int32) : Int32 :=
  Int32.ofInt (clampInt 0 0x7fff raw.toInt)

/-- Sets the rate, and tells whether it had to be clamped. -/
def setRate (s : Sine) (raw : Int32) : Sine × Bool :=
  ({ s with rate := clampRate raw }, clampRate raw != raw)

/-- Sets the amplitude, and tells whether it had to be clamped. -/
def setAmplitude (s : Sine) (raw : Int32) : Sine × Bool :=
  ({ s with amplitude := clampAmplitude raw }, clampAmplitude raw != raw)

/-- The rate in turns per second when the chip runs at `sampleRate`. -/
def frequency (s : Sine) (sampleRate : UInt32) : Float :=
  s.rate.toFloat * sampleRate.toFloat / (referenceClock * tau)

/-- The rate in turns per second at the nominal sample rate. -/
def normalizedRate (s : Sine) : Float :=
  s.frequency nominalSampleRate

/-- The amplitude as a fraction of full scale. -/
def normalizedAmplitude (s : Sine) : Float :=
  s.amplitude.toFloat / 32768.0

/-! ## Motion -/

/-- What one sample adds to the phase. -/
def step (s : Sine) : Float :=
  4.0 * s.normalizedRate / referenceClock * tau

/-- Moves the phase by one sample and latches it. -/
def advance (s : Sine) : Sine :=
  let angle := s.angle.advance s.step
  { s with angle, latched := angle }

/-- The wave at the live phase, or at the latched one: its sine or its cosine. -/
def wave (s : Sine) (cosine latched : Bool) : Float :=
  let phase := if latched then s.latched else s.angle
  if cosine then phase.cos else phase.sin

end Sine
end EffectsDsp
