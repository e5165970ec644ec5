/-
  EffectsDsp.Machine.Basic

  The state of the machine. Instructions change it one after the other; between
  samples the host sets inputs and potentiometers, and reads the outputs.
-/

import EffectsDsp.Diagnostics
import EffectsDsp.Oscillator.Bank
import EffectsDsp.RegisterFile.Basic
import EffectsDsp.Settings.Basic

namespace EffectsDsp

structure Machine where
  /-- The index of the next instruction. -/
  ip : UInt64
  /-- The accumulator. -/
  acc : Fixed
  /-- The accumulator before the last instruction that changed it. -/
  pacc : Fixed
  /-- The last value read from delay memory. -/
  lr : Fixed
  regs : RegisterFile
  /-- Signed 24-bit samples. -/
  delay : Array Int32
  /-- The delay memory cell that offset zero denotes. -/
  delayPtr : UInt64
  /-- Set until the first pass over a program is complete. -/
  runFlag : Bool
  lfos : LfoBank
  diagnostics : Diagnostics
  /-- Values computed by instructions saturate. -/
  saturating : Bool
  deriving DecidableEq, Repr

namespace Machine

/-! ## Power-on -/

/-- The state at power-on with the given length of delay memory. -/
def powerOn (delaySize : Nat) (saturating : Bool) : Machine :=
  { ip := 0
    acc := Fixed.zero.withSaturating saturating
    pacc := Fixed.zero.withSaturating saturating
    lr := .zero
    regs := .initial
    delay := Array.replicate delaySize 0
    delayPtr := 0
    runFlag := true
    lfos := .initial
    diagnostics := .clean
    saturating }

/-- A machine with the given settings; its delay memory has at least one sample. -/
def ofSettings (s : Settings) : Machine :=
  powerOn (max s.delaySize 1) s.saturate

instance : Inhabited Machine := ⟨ofSettings {}⟩

/-- Back to the state at power-on, with the same length of delay memory. -/
def reset (m : Machine) : Machine :=
  powerOn m.delay.size m.saturating

theorem size_delay_powerOn (delaySize : Nat) (saturating : Bool) :
    (powerOn delaySize saturating).delay.size = delaySize :=
  Array.size_replicate

/-! ## Values and clamps -/

/-- `v` in the saturation mode of the machine. -/
def value (m : Machine) (v : Fixed) : Fixed :=
  v.withSaturating m.saturating

/-- Moves the clamps behind the accumulator to the diagnostics. -/
def commitAcc (m : Machine) : Machine :=
  { m with
    acc := m.acc.withoutClamps
    diagnostics :=
      { m.diagnostics with
        accOverflows := m.diagnostics.accOverflows + m.acc.clamps.toUInt64 } }

/-! ## Host side -/

/-- Sets the registers of the two inputs. -/
def setInputs (m : Machine) (left right : Fixed) : Machine :=
  { m with
    regs := (m.regs.write Address.inputLeft (left.withFormat .sample)).write
      Address.inputRight (right.withFormat .sample) }

/-- Sets the register of a potentiometer; other numbers have no effect. -/
def setPot (m : Machine) (pot : Nat) (value : Fixed) : Machine :=
  match Address.pot? pot with
  | some address => { m with regs := m.regs.write address (value.withFormat .sample) }
  | none => m

/-- The registers of the two outputs. -/
def outputs (m : Machine) : Fixed × Fixed :=
  (m.regs.read Address.outputLeft, m.regs.read Address.outputRight)

/-- Moves every oscillator by one sample. -/
def advanceLfos (m : Machine) : Machine :=
  { m with lfos := m.lfos.advance }

/-- Bookkeeping after the last instruction of a sample: the next one starts at the
    first instruction, and the delay memory scrolls by one cell. -/
def endSample (m : Machine) : Machine :=
  { m with
    runFlag := false
    ip := 0
    delayPtr := (if m.delayPtr = 0 then UInt64.ofNat m.delay.size else m.delayPtr) - 1 }

end Machine
end EffectsDsp
