/-
  EffectsDsp.Diagnostics

  Fault counters. A data fault never stops a sample: the machine saturates or clamps
  and counts the event here. Counters have 64 bits and go around; apart from that, only the
  host starts them again.
-/

import EffectsDsp.Oscillator.Select

namespace EffectsDsp

structure Diagnostics where
  /-- Delay memory reads outside the delay length. -/
  readOutOfBounds : UInt64
  /-- Delay memory writes outside the delay length. -/
  writeOutOfBounds : UInt64
  /-- Clamps in the computation of the accumulator. -/
  accOverflows : UInt64
  /-- Clamps in differences against the previous accumulator. -/
  paccOverflows : UInt64
  /-- Values at the rails of the left output. -/
  leftOverflows : UInt64
  /-- Values at the rails of the right output. -/
  rightOverflows : UInt64
  /-- Delay memory writes of values that do not fit 24 bits. -/
  sampleOverflows : UInt64
  /-- Clamped oscillator parameters. -/
  invalidLfoParams : UInt64
  /-- Whether a parameter of each oscillator was ever clamped. -/
  invalidLfo : Vector Bool 4
  deriving DecidableEq, Repr

namespace Diagnostics

/-- No faults. -/
def clean : Diagnostics :=
  { readOutOfBounds := 0, writeOutOfBounds := 0, accOverflows := 0, paccOverflows := 0,
    leftOverflows := 0, rightOverflows := 0, sampleOverflows := 0, invalidLfoParams := 0,
    invalidLfo := .replicate 4 false }

instance : Inhabited Diagnostics := ⟨clean⟩

/-- Counts a clamped parameter of an oscillator. -/
def flagInvalidLfo (d : Diagnostics) (lfo : LfoSelect) : Diagnostics :=
  { d with
    invalidLfoParams := d.invalidLfoParams + 1
    invalidLfo := d.invalidLfo.set lfo.index true }

def outOfBounds (d : Diagnostics) : UInt64 :=
  d.readOutOfBounds + d.writeOutOfBounds

def overflows (d : Diagnostics) : UInt64 :=
  d.accOverflows + d.paccOverflows + d.leftOverflows + d.rightOverflows + d.sampleOverflows

def isClean (d : Diagnostics) : Bool :=
  d == clean

/-- The written form. -/
def text (d : Diagnostics) : String :=
  let n (counter : UInt64) := toString counter.toNat
  "oob r/w " ++ n d.readOutOfBounds ++ "/" ++ n d.writeOutOfBounds ++
    ", overflow acc " ++ n d.accOverflows ++ " pacc " ++ n d.paccOverflows ++
    " dac " ++ n d.leftOverflows ++ "/" ++ n d.rightOverflows ++
    " mem " ++ n d.sampleOverflows ++ ", lfo params " ++ n d.invalidLfoParams

end Diagnostics
end EffectsDsp
