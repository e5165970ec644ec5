/-
  EffectsDsp.Proofs.Effect

  An instruction in two parts. The first, `outward`, changes everything but the
  accumulators: the word read from delay memory, delay memory itself, registers,
  oscillators and the counters of the data faults on the way. The second computes the new
  accumulator, `computed`, from the state that the first part leaves, and counts the
  clamps of the computation: `accClamps` for the accumulator, `paccClamps` for the
  difference against the previous one.

  `effect_eq` puts the two together again. After that a statement on all instructions is
  one on `outward` and one on `computed`, and no proof has to look at both at once.
-/

import EffectsDsp.Execution.Sample
import EffectsDsp.Proofs.Arithmetic

namespace EffectsDsp

/-- Instructions that copy the accumulator to the previous one. -/
def Mnemonic.latches : Mnemonic → Bool
  | or | skp | nop | wlds | wldr | jam | choReserved => false
  | _ => true

/-- The register that an instruction reads or writes. -/
def Operation.registerAddress (op : Operation) : UInt8 :=
  (op.bits .register).toUInt8

namespace Machine

/-! ## Everything but the accumulators -/

/-- Loads a delay memory word to LR. -/
def loadDelay (m : Machine) (offset : Int32) : Machine :=
  { m.noteAccess offset .read with lr := m.delayWord offset }

/-- The offset that RMPA reads from. -/
def indirectOffset (m : Machine) : Int32 :=
  Int32.ofInt ((m.regs.read Address.delayPointer).raw.toInt >>> (8 : Nat))

/-- The offset and the coefficient of CHO RDA. -/
def chorusDisplacement (m : Machine) (op : Operation) : Int32 × Float :=
  (m.chorusReading op).displacement (chorusComplements op)

/-- What an instruction does to everything but the accumulators. -/
def outward (m : Machine) (op : Operation) : Machine :=
  match op.mnemonic with
  | .rda => m.loadDelay (op.bits .address).toInt32
  | .rmpa => m.loadDelay m.indirectOffset
  | .choRda => m.loadDelay ((op.bits .address).toInt32 + (m.chorusDisplacement op).1)
  | .wra | .wrap => m.writeDelay (op.bits .address).toInt32 m.acc
  | .wrax | .wrhx | .wrlx => m.writeRegister op.registerAddress
  | .wlds =>
    m.loadSine (.ofBits (op.bits .oscillator)) (op.bits .frequency).toInt32
      (op.bits .amplitude).toInt32
  | .wldr =>
    m.loadRamp (.ofBits (2 ||| op.bits .oscillator))
      ((op.operand? .frequency).map (·.signed)) (op.bits .amplitude)
  | .jam => m.restartRamp (.ofBits (2 ||| op.bits .oscillator))
  | _ => m

/-! ## The accumulator -/

/-- The difference that WRLX scales. -/
def accDifference (m : Machine) : Fixed :=
  (m.value m.pacc).sub m.acc

/-- The magnitude that MAXX compares the accumulator with. -/
def scaledMagnitude (m : Machine) (op : Operation) : Fixed :=
  ((m.value (m.regs.read op.registerAddress)).mul (op.real .coefficient)).abs

/-- The accumulator after an instruction whose other effects are in `m`, with the clamps
    of its last computation pending. -/
def computed (m : Machine) (op : Operation) : Fixed :=
  let c := op.real .coefficient
  let d := op.real .offset
  let register := m.regs.read op.registerAddress
  match op.mnemonic with
  | .rda | .rmpa => m.acc.add (m.lr.mul c)
  | .wra | .wrax => m.acc.mul c
  | .wrap => (m.acc.mul c).add m.lr
  | .rdax => m.acc.add ((m.value register).mul c)
  | .rdfx => ((m.acc.sub register).mul c).add register
  | .ldax => m.value register
  | .wrhx => (m.acc.mul c).add m.pacc
  | .wrlx => (m.accDifference.withoutClamps.mul c).add m.pacc
  | .maxx => m.value (m.acc.abs.withoutClamps.larger (m.scaledMagnitude op).withoutClamps)
  | .absa => m.acc.abs
  | .mulx => m.acc.mul register
  | .log => ((m.value (logarithm m.acc)).mul c).add d
  | .exp => ((m.value (exponential m.acc)).mul c).add d
  | .sof => ((m.value m.acc).mul c).add d
  | .and | .clr => m.acc.and (op.bits .mask)
  | .or => m.acc.or (op.bits .mask)
  | .xor => m.acc.xor (op.bits .mask)
  | .not => m.acc.not
  | .choRda => m.acc.add (m.lr.mul (Fixed.ofFloat (m.chorusDisplacement op).2))
  | .choSof => (m.acc.mul (m.chorusCoefficient op)).add (Fixed.ofQ (op.bits .address) .fraction16)
  | .choRdal => (m.value .zero).add (m.chorusCoefficient op)
  | .skp | .nop | .wlds | .wldr | .jam | .choReserved => m.acc

/-- The clamps that are counted for the accumulator before it is complete: only MAXX
    computes two magnitudes of which one is dropped. -/
def earlyClamps (m : Machine) (op : Operation) : UInt64 :=
  match op.mnemonic with
  | .maxx => (m.scaledMagnitude op).clamps.toUInt64 + m.acc.abs.clamps.toUInt64
  | _ => 0

/-- The clamps that an instruction counts for the accumulator. -/
def accClamps (m : Machine) (op : Operation) : UInt64 :=
  m.earlyClamps op + (m.computed op).clamps.toUInt64

/-- The clamps that an instruction counts for the difference against the previous
    accumulator. -/
def paccClamps (m : Machine) (op : Operation) : UInt64 :=
  match op.mnemonic with
  | .wrlx => m.accDifference.clamps.toUInt64
  | _ => 0

/-- The state after an instruction whose other effects are in `m`, before the clamps of
    the accumulator are counted. -/
def accumulated (m : Machine) (op : Operation) : Machine :=
  { m with
    acc := m.computed op
    pacc := if op.mnemonic.latches then m.acc else m.pacc
    diagnostics :=
      { m.diagnostics with
        accOverflows := m.diagnostics.accOverflows + m.earlyClamps op
        paccOverflows := m.diagnostics.paccOverflows + m.paccClamps op } }

/-- A delay memory access outside the memory changes the counters only. -/
theorem noteAccess_eq (m : Machine) (offset : Int32) (access : Access) :
    m.noteAccess offset access =
      { m with diagnostics := (m.noteAccess offset access).diagnostics } := by
  unfold noteAccess
  split
  · rfl
  · cases access <;> rfl

/-- What counts a data fault changes the counters only. -/
theorem noteSample_eq (m : Machine) (v : Fixed) :
    m.noteSample v = { m with diagnostics := (m.noteSample v).diagnostics } := by
  unfold noteSample
  split <;> rfl

theorem noteLfo_eq (m : Machine) (lfo : LfoSelect) (clamped : Bool) :
    m.noteLfo lfo clamped = { m with diagnostics := (m.noteLfo lfo clamped).diagnostics } := by
  unfold noteLfo
  split <;> rfl

theorem noteRail_eq (m : Machine) (address : UInt8) :
    m.noteRail address = { m with diagnostics := (m.noteRail address).diagnostics } := by
  unfold noteRail
  split
  · split
    · rfl
    · split <;> rfl
  · rfl

/-- What sets an oscillator changes the bank, the registers that show the oscillator, and
    counters. -/
theorem programLfo_eq (m : Machine) (lfo : LfoSelect) (p : LfoParam) (raw : Int32) :
    ∃ diagnostics, m.programLfo lfo p raw =
      { m with
        lfos := (m.lfos.setParam lfo p raw).1
        regs := m.regs.setConfig (Address.ofLfoParam lfo p)
          ((m.lfos.setParam lfo p raw).1.param lfo p)
        diagnostics } := by
  have hnoted := noteLfo_eq { m with lfos := (m.lfos.setParam lfo p raw).1 } lfo
    (m.lfos.setParam lfo p raw).2
  exact ⟨_, congrArg (showParam · lfo p ((m.lfos.setParam lfo p raw).1.param lfo p)) hnoted⟩

theorem loadSine_eq (m : Machine) (lfo : LfoSelect) (rate amplitude : Int32) :
    ∃ diagnostics, m.loadSine lfo rate amplitude =
      let s := (((m.lfos.sineOf lfo).setRate rate).1.setAmplitude amplitude).1
      { m with
        lfos := m.lfos.setSine lfo.unit s
        regs := (m.regs.setConfig (Address.ofLfoParam lfo .rate) s.rate).setConfig
          (Address.ofLfoParam lfo .range) s.amplitude
        diagnostics } := by
  let s := (((m.lfos.sineOf lfo).setRate rate).1.setAmplitude amplitude).1
  have hnoted := noteLfo_eq { m with lfos := m.lfos.setSine lfo.unit s } lfo
    (((m.lfos.sineOf lfo).setRate rate).2 ||
      (((m.lfos.sineOf lfo).setRate rate).1.setAmplitude amplitude).2)
  exact ⟨_, congrArg
    (fun n => (n.showParam lfo .rate s.rate).showParam lfo .range s.amplitude) hnoted⟩

theorem loadRamp_eq (m : Machine) (lfo : LfoSelect) (rate? : Option Int32) (idx : UInt32) :
    ∃ diagnostics, m.loadRamp lfo rate? idx =
      let r := (rate?.elim (m.lfos.rampOf lfo) fun rate =>
        ((m.lfos.rampOf lfo).setRate rate).1).setAmplitudeIndex idx
      { m with
        lfos := m.lfos.setRamp lfo.unit r
        regs := (m.regs.setConfig (Address.ofLfoParam lfo .rate) r.rate).setConfig
          (Address.ofLfoParam lfo .range) r.amplitude
        diagnostics } := by
  let r := (rate?.elim (m.lfos.rampOf lfo) fun rate =>
    ((m.lfos.rampOf lfo).setRate rate).1).setAmplitudeIndex idx
  have hnoted := noteLfo_eq { m with lfos := m.lfos.setRamp lfo.unit r } lfo
    (rate?.elim false fun rate => ((m.lfos.rampOf lfo).setRate rate).2)
  have hshown := congrArg
    (fun n => (n.showParam lfo .rate r.rate).showParam lfo .range r.amplitude) hnoted
  cases rate? <;> exact ⟨_, hshown⟩

/-- A delay memory write changes one cell. -/
theorem delay_writeDelay (m : Machine) (offset : Int32) (v : Fixed) :
    (m.writeDelay offset v).delay =
      m.delay.setIfInBounds (m.delayIndex offset) v.toSample.1 := by
  unfold writeDelay noteSample
  rw [noteAccess_eq]
  split <;> rfl

/-- A delay memory read moves no oscillator. -/
theorem chorusDisplacement_loadDelay (m : Machine) (offset : Int32) (op : Operation) :
    (m.loadDelay offset).chorusDisplacement op = m.chorusDisplacement op := by
  unfold chorusDisplacement chorusReading loadDelay
  rw [noteAccess_eq]

/-- An instruction that leaves the accumulators alone has its outward part only. -/
theorem accumulated_eq_self {m : Machine} {op : Operation} (hacc : m.computed op = m.acc)
    (hpacc : op.mnemonic.latches = false) (hearly : m.earlyClamps op = 0)
    (hdiff : m.paccClamps op = 0) : m.accumulated op = m := by
  unfold accumulated
  rw [hacc, hpacc, hearly, hdiff, UInt64.add_zero, UInt64.add_zero]
  rfl

/-- The effect of an instruction is its outward part and then its accumulator. -/
theorem effect_eq (m : Machine) (op : Operation) :
    m.effect op = (m.outward op).accumulated op := by
  obtain ⟨mnemonic, operands, word⟩ := op
  cases mnemonic with
  | skp | nop | wlds | wldr | jam | choReserved => exact (accumulated_eq_self rfl rfl rfl rfl).symm
  | maxx =>
    -- The model counts the clamps of the two magnitudes one after the other.
    simp only [effect, outward, accumulated, earlyClamps, paccClamps, noteAccClamps, updateAcc,
      commitAcc, UInt64.add_zero, UInt64.add_assoc]
    rfl
  | choRda =>
    simp only [effect, outward, accumulated, earlyClamps, paccClamps, computed, UInt64.add_zero,
      chorusDisplacement_loadDelay]
    rfl
  | _ =>
    simp only [effect, outward, accumulated, earlyClamps, paccClamps, UInt64.add_zero]
    rfl

/-! ## What the outward part leaves alone -/

/-- The two states differ at most in LR, registers, delay memory cells, oscillators and
    the counters of data faults. -/
structure Framed (m n : Machine) : Prop where
  ip : n.ip = m.ip
  acc : n.acc = m.acc
  pacc : n.pacc = m.pacc
  delaySize : n.delay.size = m.delay.size
  delayPtr : n.delayPtr = m.delayPtr
  runFlag : n.runFlag = m.runFlag
  saturating : n.saturating = m.saturating
  accOverflows : n.diagnostics.accOverflows = m.diagnostics.accOverflows
  paccOverflows : n.diagnostics.paccOverflows = m.diagnostics.paccOverflows

theorem Framed.refl (m : Machine) : Framed m m :=
  ⟨rfl, rfl, rfl, rfl, rfl, rfl, rfl, rfl, rfl⟩

theorem Framed.trans {m n k : Machine} (h : Framed m n) (h' : Framed n k) : Framed m k :=
  ⟨h'.ip.trans h.ip, h'.acc.trans h.acc, h'.pacc.trans h.pacc,
    h'.delaySize.trans h.delaySize, h'.delayPtr.trans h.delayPtr,
    h'.runFlag.trans h.runFlag, h'.saturating.trans h.saturating,
    h'.accOverflows.trans h.accOverflows, h'.paccOverflows.trans h.paccOverflows⟩

theorem framed_noteAccess (m : Machine) (offset : Int32) (access : Access) :
    Framed m (m.noteAccess offset access) := by
  unfold noteAccess
  split
  · exact .refl m
  · cases access <;> exact ⟨rfl, rfl, rfl, rfl, rfl, rfl, rfl, rfl, rfl⟩

theorem framed_noteSample (m : Machine) (v : Fixed) : Framed m (m.noteSample v) := by
  unfold noteSample
  split
  · exact ⟨rfl, rfl, rfl, rfl, rfl, rfl, rfl, rfl, rfl⟩
  · exact .refl m

theorem framed_noteLfo (m : Machine) (lfo : LfoSelect) (clamped : Bool) :
    Framed m (m.noteLfo lfo clamped) := by
  unfold noteLfo
  split
  · exact ⟨rfl, rfl, rfl, rfl, rfl, rfl, rfl, rfl, rfl⟩
  · exact .refl m

theorem framed_noteRail (m : Machine) (address : UInt8) : Framed m (m.noteRail address) := by
  unfold noteRail
  split
  · split
    · exact ⟨rfl, rfl, rfl, rfl, rfl, rfl, rfl, rfl, rfl⟩
    · split
      · exact ⟨rfl, rfl, rfl, rfl, rfl, rfl, rfl, rfl, rfl⟩
      · exact .refl m
  · exact .refl m

theorem framed_withRegs (m : Machine) (regs : RegisterFile) : Framed m { m with regs } :=
  ⟨rfl, rfl, rfl, rfl, rfl, rfl, rfl, rfl, rfl⟩

theorem framed_withLfos (m : Machine) (lfos : LfoBank) : Framed m { m with lfos } :=
  ⟨rfl, rfl, rfl, rfl, rfl, rfl, rfl, rfl, rfl⟩

theorem framed_loadDelay (m : Machine) (offset : Int32) : Framed m (m.loadDelay offset) :=
  (framed_noteAccess m offset .read).trans ⟨rfl, rfl, rfl, rfl, rfl, rfl, rfl, rfl, rfl⟩

theorem framed_writeDelay (m : Machine) (offset : Int32) (v : Fixed) :
    Framed m (m.writeDelay offset v) := by
  have hnoted := (framed_noteAccess m offset .write).trans (framed_noteSample _ v)
  exact hnoted.trans ⟨rfl, rfl, rfl, Array.size_setIfInBounds, rfl, rfl, rfl, rfl, rfl⟩

theorem framed_programLfo (m : Machine) (lfo : LfoSelect) (p : LfoParam) (raw : Int32) :
    Framed m (m.programLfo lfo p raw) :=
  ((framed_withLfos m _).trans (framed_noteLfo _ lfo _)).trans (framed_withRegs _ _)

theorem framed_loadSine (m : Machine) (lfo : LfoSelect) (rate amplitude : Int32) :
    Framed m (m.loadSine lfo rate amplitude) :=
  (((framed_withLfos m _).trans (framed_noteLfo _ lfo _)).trans (framed_withRegs _ _)).trans
    (framed_withRegs _ _)

theorem framed_loadRamp (m : Machine) (lfo : LfoSelect) (rate? : Option Int32) (idx : UInt32) :
    Framed m (m.loadRamp lfo rate? idx) :=
  (((framed_withLfos m _).trans (framed_noteLfo _ lfo _)).trans (framed_withRegs _ _)).trans
    (framed_withRegs _ _)

theorem framed_writeRegister (m : Machine) (address : UInt8) :
    Framed m (m.writeRegister address) := by
  unfold writeRegister
  split
  · exact framed_programLfo m _ _ _
  · exact (framed_noteRail m address).trans (framed_withRegs _ _)

theorem framed_outward (m : Machine) (op : Operation) : Framed m (m.outward op) := by
  unfold outward
  cases op.mnemonic with
  | rda | rmpa | choRda => exact framed_loadDelay m _
  | wra | wrap => exact framed_writeDelay m _ _
  | wrax | wrhx | wrlx => exact framed_writeRegister m _
  | wlds => exact framed_loadSine m _ _ _
  | wldr => exact framed_loadRamp m _ _ _
  | jam => exact framed_withLfos m _
  | _ => exact .refl m

/-! ## Skips -/

theorem skips_iff (m : Machine) (flags : UInt32) : m.skips flags = true ↔
    ∃ c : SkipCondition, flags &&& c.bit ≠ 0 ∧ m.skipHolds c = true := by
  unfold skips
  rw [List.any_eq_true]
  simp only [Bool.and_eq_true, bne_iff_ne]
  constructor
  · rintro ⟨c, -, h⟩
    exact ⟨c, h⟩
  · rintro ⟨c, h⟩
    exact ⟨c, by cases c <;> decide, h⟩

@[simp] theorem skips_zero (m : Machine) : m.skips 0 = false := by
  apply Bool.eq_false_iff.mpr
  rw [Ne, skips_iff]
  rintro ⟨c, hflag, -⟩
  exact hflag UInt32.zero_and

/-! ## A whole instruction -/

/-- An instruction: its outward part, its accumulator, the count of clamps and the next
    instruction pointer. -/
theorem execute_eq (m : Machine) (op : Operation) :
    m.execute op = { ((m.outward op).accumulated op).commitAcc with ip := m.nextIp op } := by
  unfold execute
  rw [effect_eq]

theorem acc_execute (m : Machine) (op : Operation) :
    (m.execute op).acc = ((m.outward op).computed op).withoutClamps := by
  rw [execute_eq]
  rfl

theorem pacc_execute (m : Machine) (op : Operation) :
    (m.execute op).pacc = if op.mnemonic.latches then m.acc else m.pacc := by
  rw [execute_eq, ← (framed_outward m op).acc, ← (framed_outward m op).pacc]
  rfl

theorem saturating_execute (m : Machine) (op : Operation) :
    (m.execute op).saturating = m.saturating := by
  rw [execute_eq]
  exact (framed_outward m op).saturating

theorem lr_execute (m : Machine) (op : Operation) : (m.execute op).lr = (m.outward op).lr := by
  rw [execute_eq]
  rfl

theorem regs_execute (m : Machine) (op : Operation) :
    (m.execute op).regs = (m.outward op).regs := by
  rw [execute_eq]
  rfl

theorem delay_execute (m : Machine) (op : Operation) :
    (m.execute op).delay = (m.outward op).delay := by
  rw [execute_eq]
  rfl

/-- The diagnostics after an instruction are those of its outward part and the clamps of
    its accumulator. -/
theorem diagnostics_execute (m : Machine) (op : Operation) :
    (m.execute op).diagnostics =
      { (m.outward op).diagnostics with
        accOverflows := m.diagnostics.accOverflows + (m.outward op).accClamps op
        paccOverflows := m.diagnostics.paccOverflows + (m.outward op).paccClamps op } := by
  rw [execute_eq, ← (framed_outward m op).accOverflows, ← (framed_outward m op).paccOverflows,
    accClamps, ← UInt64.add_assoc]
  rfl

/-! ## Modes -/

/-- The machine and its accumulators have one saturation mode. -/
structure HasMode (m : Machine) (mode : Bool) : Prop where
  machine : m.saturating = mode
  acc : m.acc.saturating = mode
  pacc : m.pacc.saturating = mode

namespace HasMode

variable {m : Machine} {mode : Bool}

/-- Whatever is computed for the accumulator starts from it or from a value that was
    brought into the mode of the machine. -/
theorem computed (h : m.HasMode mode) (op : Operation) :
    (m.computed op).saturating = mode := by
  unfold Machine.computed
  cases op.mnemonic with
  | ldax | wrlx | maxx | log | exp | sof | choRdal => exact h.machine
  | _ => exact h.acc

theorem outward (h : m.HasMode mode) (op : Operation) : (m.outward op).HasMode mode := by
  have hframed := framed_outward m op
  refine ⟨?_, ?_, ?_⟩
  · rw [hframed.saturating, h.machine]
  · rw [hframed.acc, h.acc]
  · rw [hframed.pacc, h.pacc]

theorem execute (h : m.HasMode mode) (op : Operation) : (m.execute op).HasMode mode := by
  refine ⟨?_, ?_, ?_⟩
  · rw [saturating_execute, h.machine]
  · rw [acc_execute, Fixed.saturating_withoutClamps, (h.outward op).computed op]
  · rw [pacc_execute]
    split
    · exact h.acc
    · exact h.pacc

end HasMode
end Machine
end EffectsDsp
