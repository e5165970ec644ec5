/-
  EffectsDsp.Machine.Delay

  Delay memory. Offsets count from the delay pointer and wrap around the memory, so
  that a word moves one offset further with every sample. An offset outside the
  memory is clamped into it, and counted.
-/

import EffectsDsp.Machine.Basic

namespace EffectsDsp

/-- The side of a delay memory access. -/
inductive Access where
  | read
  | write
  deriving DecidableEq, Repr

namespace Machine

/-- The offset lies within the delay memory. -/
def OffsetInRange (m : Machine) (offset : Int32) : Prop :=
  0 ≤ offset.toInt ∧ offset.toInt < m.delay.size

instance (m : Machine) (offset : Int32) : Decidable (m.OffsetInRange offset) :=
  inferInstanceAs (Decidable (_ ∧ _))

/-- The offset clamped into the delay memory. -/
def clampOffset (m : Machine) (offset : Int32) : Nat :=
  (clampInt 0 (m.delay.size - 1) offset.toInt).toNat

/-- The delay memory cell at an offset. -/
def delayIndex (m : Machine) (offset : Int32) : Nat :=
  (UInt64.ofNat (m.clampOffset offset) + m.delayPtr).toNat % m.delay.size

/-- Counts an access outside the delay memory. -/
def noteAccess (m : Machine) (offset : Int32) (access : Access) : Machine :=
  if m.OffsetInRange offset then m
  else
    let d := m.diagnostics
    match access with
    | .read => { m with diagnostics := { d with readOutOfBounds := d.readOutOfBounds + 1 } }
    | .write => { m with diagnostics := { d with writeOutOfBounds := d.writeOutOfBounds + 1 } }

/-- The delay memory word at an offset, as a value of the machine. -/
def delayWord (m : Machine) (offset : Int32) : Fixed :=
  m.value ((Fixed.ofRaw (m.delay[m.delayIndex offset]?.getD 0)).withFormat .sample)

/-- Reads a delay memory word. -/
def readDelay (m : Machine) (offset : Int32) : Fixed × Machine :=
  (m.delayWord offset, m.noteAccess offset .read)

/-- Counts a delay memory write of a value that does not fit 24 bits. -/
def noteSample (m : Machine) (v : Fixed) : Machine :=
  if v.toSample.2 then
    let d := m.diagnostics
    { m with diagnostics := { d with sampleOverflows := d.sampleOverflows + 1 } }
  else m

/-- Writes the low 24 bits of a value to delay memory. -/
def writeDelay (m : Machine) (offset : Int32) (v : Fixed) : Machine :=
  let cell := m.delayIndex offset
  -- The word is stored in any case; what does not fit loses its high bits.
  let m := (m.noteAccess offset .write).noteSample v
  { m with delay := m.delay.setIfInBounds cell v.toSample.1 }

end Machine
end EffectsDsp
