/-
  EffectsDsp.Execution.Step

  The effect of each instruction. Those that change the accumulator first copy it to
  the previous one, PACC; OR is the single exception. Every instruction ends with the
  clamps of the accumulator counted and the next instruction chosen, which only a
  skip decides otherwise than by order.
-/

import EffectsDsp.Execution.Chorus
import EffectsDsp.Instruction.Program
import EffectsDsp.Machine.Delay

namespace EffectsDsp

/-- A condition of a skip. -/
inductive SkipCondition where
  | negative
  | notNegative
  | zero
  /-- The sign changed since the previous accumulator. -/
  | zeroCrossing
  /-- The first pass over the program is complete. -/
  | running
  deriving DecidableEq, Repr

/-- The bit of the condition in the flags operand. -/
def SkipCondition.bit : SkipCondition → UInt32
  | negative => 0x01
  | notNegative => 0x02
  | zero => 0x04
  | zeroCrossing => 0x08
  | running => 0x10

namespace Machine

/-! ## Parts of instructions -/

/-- Copies the accumulator to the previous one and changes it. -/
def updateAcc (m : Machine) (f : Fixed → Fixed) : Machine :=
  { m with pacc := m.acc, acc := f m.acc }

/-- Counts clamps in the computation of the accumulator. -/
def noteAccClamps (m : Machine) (clamps : UInt16) : Machine :=
  let d := m.diagnostics
  { m with diagnostics := { d with accOverflows := d.accOverflows + clamps.toUInt64 } }

/-- Counts clamps in a difference against the previous accumulator. -/
def notePaccClamps (m : Machine) (clamps : UInt16) : Machine :=
  let d := m.diagnostics
  { m with diagnostics := { d with paccOverflows := d.paccOverflows + clamps.toUInt64 } }

/-- Loads a delay memory word and adds it to the accumulator, scaled. -/
def accumulateDelay (m : Machine) (offset : Int32) (scale : Fixed) : Machine :=
  let (word, m) := m.readDelay offset
  { m.updateAcc (·.add (word.mul scale)) with lr := word }

/-- `value * c + d` in the mode of the machine, for the accumulator. -/
def scaleOffset (m : Machine) (value c d : Fixed) : Machine :=
  let start := m.value value
  m.updateAcc fun _ => (start.mul c).add d

/-- Counts a clamped parameter of an oscillator. -/
def noteLfo (m : Machine) (lfo : LfoSelect) (clamped : Bool) : Machine :=
  if clamped then { m with diagnostics := m.diagnostics.flagInvalidLfo lfo } else m

/-- Copies a parameter of an oscillator to its register. -/
def showParam (m : Machine) (lfo : LfoSelect) (p : LfoParam) (value : Int32) : Machine :=
  { m with regs := m.regs.setConfig (Address.ofLfoParam lfo p) value }

/-- Sets a parameter of an oscillator, and its register to what it became. -/
def programLfo (m : Machine) (lfo : LfoSelect) (p : LfoParam) (raw : Int32) : Machine :=
  let (lfos, clamped) := m.lfos.setParam lfo p raw
  (({ m with lfos := lfos }).noteLfo lfo clamped).showParam lfo p (lfos.param lfo p)

/-- Sets rate and amplitude of a sine oscillator. -/
def loadSine (m : Machine) (lfo : LfoSelect) (rate amplitude : Int32) : Machine :=
  let (s, rateClamped) := (m.lfos.sineOf lfo).setRate rate
  let (s, amplitudeClamped) := s.setAmplitude amplitude
  let m := { m with lfos := m.lfos.setSine lfo.unit s }
  ((m.noteLfo lfo (rateClamped || amplitudeClamped)).showParam lfo .rate s.rate).showParam
    lfo .range s.amplitude

/-- Sets rate and amplitude of a ramp oscillator; without a rate it keeps its own. -/
def loadRamp (m : Machine) (lfo : LfoSelect) (rate? : Option Int32) (idx : UInt32) : Machine :=
  let (r, clamped) :=
    match rate? with
    | some rate => (m.lfos.rampOf lfo).setRate rate
    | none => (m.lfos.rampOf lfo, false)
  let r := r.setAmplitudeIndex idx
  let m := { m with lfos := m.lfos.setRamp lfo.unit r }
  ((m.noteLfo lfo clamped).showParam lfo .rate r.rate).showParam lfo .range r.amplitude

/-- Starts a ramp oscillator again. -/
def restartRamp (m : Machine) (lfo : LfoSelect) : Machine :=
  { m with lfos := m.lfos.setRamp lfo.unit (m.lfos.rampOf lfo).restart }

/-- The accumulator is at one of the ends of the datapath or beyond. -/
def accAtRail (m : Machine) : Bool :=
  datapathMax ≤ m.acc.raw.toInt || m.acc.raw.toInt ≤ datapathMin

/-- Counts an accumulator at the rails that goes to an output. -/
def noteRail (m : Machine) (address : UInt8) : Machine :=
  let d := m.diagnostics
  if m.accAtRail then
    if address = Address.outputLeft then
      { m with diagnostics := { d with leftOverflows := d.leftOverflows + 1 } }
    else if address = Address.outputRight then
      { m with diagnostics := { d with rightOverflows := d.rightOverflows + 1 } }
    else m
  else m

/-- Writes the accumulator to a register, or to the oscillator parameter there. -/
def writeRegister (m : Machine) (address : UInt8) : Machine :=
  match Address.lfoParam? address with
  | some (lfo, p) =>
    m.programLfo lfo p (Int32.ofInt (m.acc.raw.toInt >>> Address.paramShift lfo p))
  | none =>
    let m := m.noteRail address
    { m with regs := m.regs.write address m.acc }

/-! ## Transcendental functions -/

/-- A sixteenth of the binary logarithm of the magnitude, at least -1. -/
def logarithm (x : Fixed) : Fixed :=
  let magnitude := x.toFloat.abs
  let log :=
    if 0.0 < magnitude then
      let exact := magnitude.log2
      if exact < -16.0 then -16.0 else exact
    else -16.0
  Fixed.ofFloat (log / 16.0)

/-- Two to the power of 16 times the value, which is at least one for a value that is
    not negative and then the largest of the datapath. -/
def exponential (x : Fixed) : Fixed :=
  if x.isNegative then Fixed.ofFloat (x.toFloat * 16.0).exp2
  else Fixed.ofRaw (Int32.ofInt datapathMax)

/-! ## Skips -/

/-- The condition holds in the state. -/
def skipHolds (m : Machine) : SkipCondition → Bool
  | .negative => m.acc.raw < 0
  | .notNegative => 0 ≤ m.acc.raw
  | .zero => m.acc.raw == 0
  | .zeroCrossing => m.acc.raw.toInt.sign != m.pacc.raw.toInt.sign
  | .running => !m.runFlag

/-- One of the conditions in a flags operand holds. -/
def skips (m : Machine) (flags : UInt32) : Bool :=
  [.negative, .notNegative, .zero, .zeroCrossing, .running].any fun c : SkipCondition =>
    flags &&& c.bit != 0 && m.skipHolds c

/-- The instruction that follows an operation. -/
def nextIp (m : Machine) (op : Operation) : UInt64 :=
  if op.mnemonic = .skp ∧ m.skips (op.bits .flags) then
    m.ip + 1 + (op.bits .distance).toUInt64
  else m.ip + 1

/-! ## CHO -/

/-- The oscillator that a CHO instruction selects. -/
def chorusLfo (op : Operation) : LfoSelect :=
  .ofBits (op.bits .oscillator)

/-- What a CHO instruction reads from its oscillator. -/
def chorusReading (m : Machine) (op : Operation) : LfoReading :=
  .ofBank m.lfos (chorusLfo op) (op.bits .flags)

/-- The coefficient of a CHO instruction is to be complemented. -/
def chorusComplements (op : Operation) : Bool :=
  ChorusFlag.compc.isIn (op.bits .flags)

/-- The coefficient of a CHO instruction. -/
def chorusCoefficient (m : Machine) (op : Operation) : Fixed :=
  Fixed.ofFloat ((m.chorusReading op).coefficient (chorusComplements op))

/-- CHO RDA: adds a delay memory word at a modulated address, scaled. -/
def chorusRead (m : Machine) (op : Operation) : Machine :=
  let (offset, scale) := (m.chorusReading op).displacement (chorusComplements op)
  m.accumulateDelay ((op.bits .address).toInt32 + offset) (Fixed.ofFloat scale)

/-- CHO SOF: scales the accumulator by the oscillator and adds a constant. -/
def chorusScale (m : Machine) (op : Operation) : Machine :=
  let c := m.chorusCoefficient op
  m.updateAcc fun acc => (acc.mul c).add (Fixed.ofQ (op.bits .address) .fraction16)

/-- CHO RDAL: loads the oscillator into the accumulator. -/
def chorusLoad (m : Machine) (op : Operation) : Machine :=
  let c := m.chorusCoefficient op
  let start := m.value .zero
  m.updateAcc fun _ => start.add c

/-! ## Instructions -/

/-- The fault that keeps an instruction from being executed. -/
def fault? (m : Machine) (op : Operation) : Option Fault :=
  match op.mnemonic with
  | .choReserved => some (.reserved m.ip)
  | .choRda | .choSof | .choRdal =>
    let lfo := chorusLfo op
    (ChorusFlag.misfit? (op.bits .flags) lfo).map (.incompatibleFlag m.ip · lfo)
  | _ => none

/-- The effect of an instruction without a fault on everything but the instruction
    pointer, with the clamps of the accumulator not yet counted. -/
def effect (m : Machine) (op : Operation) : Machine :=
  let c := op.real .coefficient
  let d := op.real .offset
  let address := (op.bits .register).toUInt8
  match op.mnemonic with
  | .rda => m.accumulateDelay (op.bits .address).toInt32 c
  | .rmpa =>
    let pointer := m.regs.read Address.delayPointer
    m.accumulateDelay (Int32.ofInt (pointer.raw.toInt >>> (8 : Nat))) c
  | .wra =>
    -- The accumulator is stored as it is before it is scaled.
    let m := m.writeDelay (op.bits .address).toInt32 m.acc
    m.updateAcc (·.mul c)
  | .wrap =>
    let m := m.writeDelay (op.bits .address).toInt32 m.acc
    let lr := m.lr
    m.updateAcc fun acc => (acc.mul c).add lr
  | .rdax =>
    let scaled := (m.value (m.regs.read address)).mul c
    m.updateAcc (·.add scaled)
  | .rdfx =>
    let target := m.regs.read address
    m.updateAcc fun acc => ((acc.sub target).mul c).add target
  | .ldax =>
    let loaded := m.value (m.regs.read address)
    m.updateAcc fun _ => loaded
  | .wrax =>
    let m := m.writeRegister address
    m.updateAcc (·.mul c)
  | .wrhx =>
    let m := m.writeRegister address
    let previous := m.pacc
    m.updateAcc fun acc => (acc.mul c).add previous
  | .wrlx =>
    let m := m.writeRegister address
    let previous := m.pacc
    -- The difference is counted apart, before its scaling can clamp again.
    let difference := (m.value previous).sub m.acc
    let m := m.notePaccClamps difference.clamps
    m.updateAcc fun _ => (difference.withoutClamps.mul c).add previous
  | .maxx =>
    let scaled := ((m.value (m.regs.read address)).mul c).abs
    let m := m.noteAccClamps scaled.clamps
    -- Only one magnitude stays, so the clamps of both are counted before they meet.
    let m := (m.updateAcc (·.abs)).commitAcc
    { m with acc := m.value (m.acc.larger scaled.withoutClamps) }
  | .absa => m.updateAcc (·.abs)
  | .mulx =>
    let factor := m.regs.read address
    m.updateAcc (·.mul factor)
  | .log => m.scaleOffset (logarithm m.acc) c d
  | .exp => m.scaleOffset (exponential m.acc) c d
  | .sof => m.scaleOffset m.acc c d
  | .and | .clr => m.updateAcc (·.and (op.bits .mask))
  | .or => { m with acc := m.acc.or (op.bits .mask) }
  | .xor => m.updateAcc (·.xor (op.bits .mask))
  | .not => m.updateAcc (·.not)
  | .skp | .nop => m
  | .wlds =>
    m.loadSine (.ofBits (op.bits .oscillator)) (op.bits .frequency).toInt32
      (op.bits .amplitude).toInt32
  | .wldr =>
    -- The operand counts the ramps only, which come after the sines.
    m.loadRamp (.ofBits (2 ||| op.bits .oscillator))
      ((op.operand? .frequency).map (·.signed)) (op.bits .amplitude)
  | .jam => m.restartRamp (.ofBits (2 ||| op.bits .oscillator))
  | .choRda => m.chorusRead op
  | .choSof => m.chorusScale op
  | .choRdal => m.chorusLoad op
  | .choReserved => m

/-- Executes an instruction without a fault. -/
def execute (m : Machine) (op : Operation) : Machine :=
  -- A skip looks at the accumulators, which no skip changes.
  let ip := m.nextIp op
  { (m.effect op).commitAcc with ip }

end Machine
end EffectsDsp
