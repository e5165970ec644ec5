/-
  EffectsDsp.Settings.Basic

  What a host can choose about the machine. The defaults are those of the chip.
-/

namespace EffectsDsp

structure Settings where
  /-- The length of the delay memory in samples. -/
  delaySize : Nat := 32768
  /-- Results stay within 24 bits; off for an unclamped reference. -/
  saturate : Bool := true
  /-- The number of instructions a program may have. -/
  maxProgramLength : Nat := 128
  /-- The number of instructions one sample may execute. -/
  maxStepsPerSample : Nat := 1024
  /-- The sample rate the chip is clocked for. -/
  sampleRate : Nat := 32768
  deriving DecidableEq, Repr

instance : Inhabited Settings := ⟨{}⟩

end EffectsDsp
