/-
  EffectsDsp.Proofs.FaultCount

  Every data fault is counted, and counted once. `Machine.raises` says which faults an
  instruction has on a machine, from the instruction and the machine before it alone: where it
  reads or writes delay memory, what it writes there or to an output, and what it asks of an
  oscillator. The counter of a fault grows by one exactly if the instruction raises it, so that
  over a run it grows by the number of instructions that did.

  Counters have 64 bits and go around. Before that the count of invalid oscillator parameters
  is zero exactly as long as no oscillator is flagged.
-/

import EffectsDsp.Proofs.Mirror
import EffectsDsp.Proofs.Trace

namespace EffectsDsp

/-! ## Faults -/

/-- A fault of data, which is counted and stops nothing. -/
inductive DataFault where
  /-- A delay memory read outside the memory. -/
  | readOutside
  | writeOutside
  /-- A delay memory write of a value that does not fit 24 bits. -/
  | wideSample
  /-- A value at the rails of the left output. -/
  | leftRail
  | rightRail
  /-- A parameter that an oscillator cannot have. -/
  | lfoParam
  deriving DecidableEq, Repr

namespace Diagnostics

/-- The counter of a fault. -/
def count (d : Diagnostics) : DataFault → UInt64
  | .readOutside => d.readOutOfBounds
  | .writeOutside => d.writeOutOfBounds
  | .wideSample => d.sampleOverflows
  | .leftRail => d.leftOverflows
  | .rightRail => d.rightOverflows
  | .lfoParam => d.invalidLfoParams

/-- The flag of an oscillator. -/
def flag (d : Diagnostics) (lfo : LfoSelect) : Bool :=
  d.invalidLfo.get lfo.index

/-- The diagnostics after an oscillator was misled, or none. -/
def mislead (d : Diagnostics) : Option LfoSelect → Diagnostics
  | some lfo => d.flagInvalidLfo lfo
  | none => d

theorem count_mislead (d : Diagnostics) (misled : Option LfoSelect) (f : DataFault) :
    (d.mislead misled).count f =
      d.count f + if f = .lfoParam ∧ misled.isSome then 1 else 0 := by
  cases misled <;> cases f <;> simp [mislead, count, flagInvalidLfo]

theorem flag_mislead (d : Diagnostics) (misled : Option LfoSelect) (lfo : LfoSelect) :
    (d.mislead misled).flag lfo = (d.flag lfo || misled == some lfo) := by
  cases misled with
  | none => exact (Bool.or_false _).symm
  | some other =>
    have hindex : other.index.val = lfo.index.val ↔ other = lfo := by
      cases other <;> cases lfo <;> decide
    show (d.invalidLfo.set other.index true)[lfo.index.val] =
      (d.invalidLfo[lfo.index.val] || some other == some lfo)
    rw [Vector.getElem_set, Option.some_beq_some]
    by_cases h : other = lfo
    · rw [if_pos (hindex.mpr h), beq_iff_eq.mpr h, Bool.or_true]
    · rw [if_neg (hindex.not.mpr h), beq_eq_false_iff_ne.mpr h, Bool.or_false]

end Diagnostics

/-- The fault of an access outside delay memory. -/
def Access.fault : Access → DataFault
  | read => .readOutside
  | write => .writeOutside

namespace Mnemonic

/-- Instructions that write the accumulator to delay memory. -/
def writesDelay : Mnemonic → Bool
  | wra | wrap => true
  | _ => false

/-- Instructions that write the accumulator to a register. -/
def writesRegister : Mnemonic → Bool
  | wrax | wrhx | wrlx => true
  | _ => false

end Mnemonic

/-! ## What the setters alter -/

theorem ofInt_clampInt_eq_self {lo hi : Int} {raw : Int32} (hlo : lo ≤ raw.toInt)
    (hhi : raw.toInt ≤ hi) : Int32.ofInt (clampInt lo hi raw.toInt) = raw := by
  rw [clampInt_eq_self hlo hhi, Int32.ofInt_toInt]

/-- A rate that fits its 16 bits can be too low only. -/
theorem Ramp.clampRate_bne {raw : Int32} (h : raw.toInt ≤ 32767) :
    (clampRate raw != raw) = decide (raw.toInt < -16384) := by
  by_cases hlow : raw.toInt < -16384
  · -- The clamped rate is not as low.
    have hne : clampRate raw ≠ raw := by
      intro heq
      have hbounds := bounds_clampRate raw
      rw [heq] at hbounds
      omega
    rw [bne_iff_ne.mpr hne, decide_eq_true hlow]
  · have heq : clampRate raw = raw := ofInt_clampInt_eq_self (by omega) h
    rw [heq, bne_self_eq_false, decide_eq_false hlow]

/-- A setter tells whether the oscillator has another number afterwards. -/
theorem LfoBank.setParam_snd (bank : LfoBank) (lfo : LfoSelect) (p : LfoParam) (raw : Int32) :
    (bank.setParam lfo p raw).2 = ((bank.setParam lfo p raw).1.param lfo p != raw) := by
  cases hramp : lfo.isRamp with
  | false =>
    rw [param_of_sine _ hramp]
    unfold setParam
    rw [hramp]
    cases p <;> simp only [sineOf_setSine_self, Sine.setRate, Sine.setAmplitude]
  | true =>
    rw [param_of_ramp _ hramp]
    unfold setParam
    rw [hramp]
    cases p <;> simp only [rampOf_setRamp_self, Ramp.setRate, Ramp.setAmplitude]

/-! ## Events -/

namespace Machine

/-- Where in delay memory an instruction reads. -/
def readOffset? (m : Machine) (op : Operation) : Option Int :=
  match op.mnemonic with
  | .rda => some (op.bits .address).toNat
  | .rmpa => some ((m.regs.read Address.delayPointer).raw.toInt >>> (8 : Nat))
  | .choRda => some ((op.bits .address).toInt32 + (m.chorusDisplacement op).1).toInt
  | _ => none

/-- The accumulator is at one of the ends of 24 bits or beyond. -/
def atRail (m : Machine) : Bool :=
  decide (8388607 ≤ m.acc.raw.toInt ∨ m.acc.raw.toInt ≤ -8388608)

/-- The oscillator that an instruction asks for a parameter that it cannot have: for a rate of
    a ramp that is too low, or for the number in the accumulator if the oscillator makes another
    one of it. -/
def misledLfo? (m : Machine) (op : Operation) : Option LfoSelect :=
  match op.mnemonic with
  | .wldr =>
    if ((op.operand? .frequency).map (·.signed)).any (·.toInt < -16384) then
      some (.ofBits (2 ||| op.bits .oscillator))
    else none
  | .wrax | .wrhx | .wrlx =>
    match Address.lfoParam? op.registerAddress with
    | some (lfo, p) =>
      let raw := Int32.ofInt (m.acc.raw.toInt >>> Address.paramShift lfo p)
      if (m.lfos.setParam lfo p raw).1.param lfo p ≠ raw then some lfo else none
    | none => none
  | _ => none

/-- The instruction raises the fault. -/
def raises (m : Machine) (op : Operation) : DataFault → Bool
  | .readOutside => (m.readOffset? op).any fun offset => offset < 0 ∨ (m.delay.size : Int) ≤ offset
  | .writeOutside => op.mnemonic.writesDelay && m.delay.size ≤ (op.bits .address).toNat
  | .wideSample => op.mnemonic.writesDelay && ¬ InDatapath m.acc.raw.toInt
  | .leftRail =>
    op.mnemonic.writesRegister && m.atRail && op.registerAddress = Address.outputLeft
  | .rightRail =>
    op.mnemonic.writesRegister && m.atRail && op.registerAddress = Address.outputRight
  | .lfoParam => (m.misledLfo? op).isSome

/-! ## Parts of instructions -/

variable {m : Machine} {op : Operation}

theorem count_noteAccess (m : Machine) (offset : Int32) (access : Access) (f : DataFault) :
    (m.noteAccess offset access).diagnostics.count f =
      m.diagnostics.count f + if f = access.fault ∧ ¬ m.OffsetInRange offset then 1 else 0 := by
  unfold noteAccess
  by_cases h : m.OffsetInRange offset
  · simp [h]
  · cases access <;> cases f <;> simp [h, Diagnostics.count, Access.fault]

theorem flag_noteAccess (m : Machine) (offset : Int32) (access : Access) (lfo : LfoSelect) :
    (m.noteAccess offset access).diagnostics.flag lfo = m.diagnostics.flag lfo := by
  unfold noteAccess
  split
  · rfl
  · cases access <;> rfl

theorem count_noteSample (m : Machine) (v : Fixed) (f : DataFault) :
    (m.noteSample v).diagnostics.count f =
      m.diagnostics.count f + if f = .wideSample ∧ ¬ InDatapath v.raw.toInt then 1 else 0 := by
  unfold noteSample
  rw [Fixed.toSample_snd]
  by_cases h : InDatapath v.raw.toInt
  · simp [h]
  · cases f <;> simp [h, Diagnostics.count]

theorem flag_noteSample (m : Machine) (v : Fixed) (lfo : LfoSelect) :
    (m.noteSample v).diagnostics.flag lfo = m.diagnostics.flag lfo := by
  unfold noteSample
  split <;> rfl

theorem accAtRail_eq (m : Machine) : m.accAtRail = m.atRail := by
  unfold accAtRail atRail
  rw [Bool.decide_or]
  rfl

theorem count_noteRail (m : Machine) (address : UInt8) (f : DataFault) :
    (m.noteRail address).diagnostics.count f = m.diagnostics.count f +
      if m.atRail ∧ (f = .leftRail ∧ address = Address.outputLeft ∨
        f = .rightRail ∧ address = Address.outputRight) then 1 else 0 := by
  unfold noteRail
  rw [accAtRail_eq]
  have hne : Address.outputLeft ≠ Address.outputRight := by decide
  by_cases hleft : address = Address.outputLeft
  · subst hleft
    cases m.atRail <;> cases f <;> simp [Diagnostics.count, hne]
  · by_cases hright : address = Address.outputRight
    · subst hright
      cases m.atRail <;> cases f <;> simp [Diagnostics.count, hne.symm]
    · cases m.atRail <;> cases f <;> simp [Diagnostics.count, hleft, hright]

theorem flag_noteRail (m : Machine) (address : UInt8) (lfo : LfoSelect) :
    (m.noteRail address).diagnostics.flag lfo = m.diagnostics.flag lfo := by
  unfold noteRail
  split
  · split
    · rfl
    · split <;> rfl
  · rfl

theorem diagnostics_noteLfo (m : Machine) (lfo : LfoSelect) (clamped : Bool) :
    (m.noteLfo lfo clamped).diagnostics =
      m.diagnostics.mislead (if clamped then some lfo else none) := by
  unfold noteLfo
  split <;> rfl

/-! ## Instructions that read -/

theorem raises_of_read {offset : Int32} (h : m.readOffset? op = some offset.toInt)
    (f : DataFault) :
    m.raises op f = decide (f = .readOutside ∧ ¬ m.OffsetInRange offset) := by
  have hmnemonic : op.mnemonic = .rda ∨ op.mnemonic = .rmpa ∨ op.mnemonic = .choRda := by
    unfold readOffset? at h
    split at h <;> simp_all
  -- Only the first fault depends on the offset; the others are out by the mnemonic.
  cases f with
  | readOutside =>
    have hrange : (offset.toInt < 0 ∨ (m.delay.size : Int) ≤ offset.toInt) ↔
        ¬ m.OffsetInRange offset := by
      unfold OffsetInRange
      omega
    simp only [raises, h, Option.any_some, hrange, true_and]
  | _ =>
    rcases hmnemonic with hop | hop | hop <;>
      simp [raises, misledLfo?, hop, Mnemonic.writesDelay, Mnemonic.writesRegister]

theorem misledLfo?_of_read {offset : Int} (h : m.readOffset? op = some offset) :
    m.misledLfo? op = none := by
  unfold readOffset? at h
  split at h
  · next hop => rw [misledLfo?, hop]
  · next hop => rw [misledLfo?, hop]
  · next hop => rw [misledLfo?, hop]
  · cases h

/-- Addresses have 16 bits. -/
theorem toInt_address (hop : op.IsDecoded)
    (h : ∀ f ∈ op.mnemonic.fields, f.role = .address → f.width = 16) :
    (op.bits .address).toInt32.toInt = (op.bits .address).toNat := by
  have hle : (op.bits .address).toNat ≤ 65535 := hop.toNat_bits_le h
  exact toInt_toInt32 (by omega)

/-! ## Instructions that write -/

theorem count_writeDelay (m : Machine) (offset : Int32) (v : Fixed) (f : DataFault) :
    (m.writeDelay offset v).diagnostics.count f = m.diagnostics.count f +
      if f = .writeOutside ∧ ¬ m.OffsetInRange offset ∨
        f = .wideSample ∧ ¬ InDatapath v.raw.toInt then 1 else 0 := by
  show ((m.noteAccess offset .write).noteSample v).diagnostics.count f = _
  rw [count_noteSample, count_noteAccess]
  cases f <;> simp [Access.fault]

theorem mnemonic_of_writesDelay (h : op.mnemonic.writesDelay = true) :
    op.mnemonic = .wra ∨ op.mnemonic = .wrap := by
  unfold Mnemonic.writesDelay at h
  split at h <;> simp_all

theorem raises_of_writesDelay (h : op.mnemonic.writesDelay = true) {offset : Int32}
    (hoffset : offset.toInt = (op.bits .address).toNat) (f : DataFault) :
    m.raises op f = decide (f = .writeOutside ∧ ¬ m.OffsetInRange offset ∨
      f = .wideSample ∧ ¬ InDatapath m.acc.raw.toInt) := by
  have hrange : m.delay.size ≤ (op.bits .address).toNat ↔ ¬ m.OffsetInRange offset := by
    unfold OffsetInRange
    omega
  cases f with
  | writeOutside => simp [raises, h, hrange]
  | wideSample => simp [raises, h]
  | _ =>
    rcases mnemonic_of_writesDelay h with hop | hop <;>
      simp [raises, readOffset?, misledLfo?, hop, Mnemonic.writesRegister]

theorem mnemonic_of_writesRegister (h : op.mnemonic.writesRegister = true) :
    op.mnemonic = .wrax ∨ op.mnemonic = .wrhx ∨ op.mnemonic = .wrlx := by
  unfold Mnemonic.writesRegister at h
  split at h <;> simp_all

theorem reads_nothing_of_writesRegister (h : op.mnemonic.writesRegister = true) :
    m.readOffset? op = none ∧ op.mnemonic.writesDelay = false := by
  rcases mnemonic_of_writesRegister h with hop | hop | hop
  all_goals
    rw [readOffset?, hop]
    exact ⟨rfl, rfl⟩

theorem misledLfo?_of_lfoParam_none (h : op.mnemonic.writesRegister = true)
    (hparam : Address.lfoParam? op.registerAddress = none) : m.misledLfo? op = none := by
  rcases mnemonic_of_writesRegister h with hop | hop | hop <;> simp only [misledLfo?, hop, hparam]

/-- Other registers than parameters count at the outputs. -/
theorem raises_of_lfoParam_none (h : op.mnemonic.writesRegister = true)
    (hparam : Address.lfoParam? op.registerAddress = none) (f : DataFault) :
    m.raises op f = decide (m.atRail ∧ (f = .leftRail ∧ op.registerAddress = Address.outputLeft ∨
      f = .rightRail ∧ op.registerAddress = Address.outputRight)) := by
  obtain ⟨hread, hdelay⟩ := reads_nothing_of_writesRegister (m := m) h
  have hmisled := misledLfo?_of_lfoParam_none (m := m) h hparam
  cases f <;> simp [raises, hread, hdelay, hmisled, h]

theorem diagnostics_of_lfoParam_none (hparam : Address.lfoParam? op.registerAddress = none) :
    (m.writeRegister op.registerAddress).diagnostics =
      (m.noteRail op.registerAddress).diagnostics := by
  unfold writeRegister
  rw [hparam]

/-! ## Instructions that can mislead an oscillator -/

/-- A parameter is no output. -/
theorem raises_of_lfoParam {target : LfoSelect × LfoParam}
    (h : op.mnemonic.writesRegister = true)
    (hparam : Address.lfoParam? op.registerAddress = some target) (f : DataFault) :
    m.raises op f = decide (f = .lfoParam ∧ (m.misledLfo? op).isSome) := by
  obtain ⟨hread, hdelay⟩ := reads_nothing_of_writesRegister (m := m) h
  have hleft : op.registerAddress ≠ Address.outputLeft := by
    intro heq
    rw [heq] at hparam
    cases hparam
  have hright : op.registerAddress ≠ Address.outputRight := by
    intro heq
    rw [heq] at hparam
    cases hparam
  cases f <;> simp [raises, hread, hdelay, hleft, hright]

theorem diagnostics_of_lfoParam {target : LfoSelect × LfoParam}
    (h : op.mnemonic.writesRegister = true)
    (hparam : Address.lfoParam? op.registerAddress = some target) :
    (m.writeRegister op.registerAddress).diagnostics =
      m.diagnostics.mislead (m.misledLfo? op) := by
  obtain ⟨lfo, p⟩ := target
  have hmisled : m.misledLfo? op =
      if (m.lfos.setParam lfo p (Int32.ofInt
        (m.acc.raw.toInt >>> Address.paramShift lfo p))).2 then some lfo else none := by
    simp only [LfoBank.setParam_snd, bne_iff_ne]
    rcases mnemonic_of_writesRegister h with hop | hop | hop <;>
      simp only [misledLfo?, hop, hparam]
  unfold writeRegister
  rw [hparam, hmisled]
  exact diagnostics_noteLfo { m with lfos := _ } lfo _

/-- The numbers of a sine fit its fields. -/
theorem diagnostics_of_wlds (hop : op.IsDecoded) (hwlds : op.mnemonic = .wlds) :
    (m.outward op).diagnostics = m.diagnostics := by
  have hrateWidth : ∀ f ∈ op.mnemonic.fields, f.role = .frequency → f.width = 9 := by
    rw [hwlds]
    decide
  have hrangeWidth : ∀ f ∈ op.mnemonic.fields, f.role = .amplitude → f.width = 15 := by
    rw [hwlds]
    decide
  have hrateLe : (op.bits .frequency).toNat ≤ 511 := hop.toNat_bits_le hrateWidth
  have hrangeLe : (op.bits .amplitude).toNat ≤ 32767 := hop.toNat_bits_le hrangeWidth
  have hrate := toInt_toInt32 (v := op.bits .frequency) (by omega)
  have hrange := toInt_toInt32 (v := op.bits .amplitude) (by omega)
  have hrateKept : Sine.clampRate (op.bits .frequency).toInt32 = (op.bits .frequency).toInt32 :=
    ofInt_clampInt_eq_self (by omega) (by omega)
  have hrangeKept :
      Sine.clampAmplitude (op.bits .amplitude).toInt32 = (op.bits .amplitude).toInt32 :=
    ofInt_clampInt_eq_self (by omega) (by omega)
  unfold outward
  rw [hwlds]
  show (noteLfo _ _ (_ != _ || _ != _)).diagnostics = _
  rw [hrateKept, hrangeKept, bne_self_eq_false, bne_self_eq_false]
  rfl

/-- The rate of a ramp has 16 bits. -/
theorem rate_le_of_wldr (hop : op.IsDecoded) (hwldr : op.mnemonic = .wldr) {rate : Int32}
    (h : (op.operand? .frequency).map (·.signed) = some rate) : rate.toInt ≤ 32767 := by
  have hwidth : ∀ f ∈ op.mnemonic.fields, f.role = .frequency → f.width = 16 := by
    rw [hwldr]
    decide
  obtain ⟨a, ha, rfl⟩ := Option.map_eq_some_iff.mp h
  obtain ⟨hfield, -⟩ := hop.of_mem_operands (List.mem_of_find?_eq_some ha)
  have hsigned : a.signed = signExtend a.bits 16 := by
    rw [Operand.signed, hwidth a.toField hfield (Operation.role_of_operand? ha)]
  have hbounds := bounds_signExtend a.bits (show 16 ≤ 32 by decide)
  rw [hsigned]
  exact Int.le_of_lt_add_one hbounds.2

/-- A ramp is misled by a rate that is too low. -/
theorem diagnostics_of_wldr (hop : op.IsDecoded) (hwldr : op.mnemonic = .wldr) :
    (m.outward op).diagnostics = m.diagnostics.mislead (m.misledLfo? op) := by
  unfold outward misledLfo?
  rw [hwldr]
  cases hrate : (op.operand? .frequency).map (·.signed) with
  | none => rfl
  | some rate =>
    have hclamped := Ramp.clampRate_bne (rate_le_of_wldr hop hwldr hrate)
    show (noteLfo _ _ (Ramp.clampRate rate != rate)).diagnostics = _
    rw [hclamped, diagnostics_noteLfo]
    by_cases hlow : rate.toInt < -16384
    · simp [hlow, Diagnostics.mislead]
    · simp [hlow, Diagnostics.mislead]

theorem raises_of_others (hread : m.readOffset? op = none)
    (hdelay : op.mnemonic.writesDelay = false) (hregister : op.mnemonic.writesRegister = false)
    (f : DataFault) : m.raises op f = decide (f = .lfoParam ∧ (m.misledLfo? op).isSome) := by
  cases f <;> simp [raises, hread, hdelay, hregister]

/-! ## All instructions -/

theorem toInt_indirectOffset (m : Machine) :
    m.indirectOffset.toInt = (m.regs.read Address.delayPointer).raw.toInt >>> (8 : Nat) := by
  have hlo := Int32.le_toInt (m.regs.read Address.delayPointer).raw
  have hhi := Int32.toInt_lt (m.regs.read Address.delayPointer).raw
  have hshift := Int.shiftRight_eq_div_pow (m.regs.read Address.delayPointer).raw.toInt 8
  unfold indirectOffset
  rw [hshift]
  exact Int32.toInt_ofInt_of_le (by omega) (by omega)

/-- An instruction reads delay memory, writes to it, or writes a register other than a
    parameter. If it does none of this it can do no more than mislead an oscillator. -/
theorem outward_cases (m : Machine) (hop : op.IsDecoded) :
    (∃ offset : Int32, m.readOffset? op = some offset.toInt ∧ m.outward op = m.loadDelay offset) ∨
      (op.mnemonic.writesDelay = true ∧
        (op.bits .address).toInt32.toInt = (op.bits .address).toNat ∧
        m.outward op = m.writeDelay (op.bits .address).toInt32 m.acc) ∨
      (op.mnemonic.writesRegister = true ∧ Address.lfoParam? op.registerAddress = none ∧
        (m.outward op).diagnostics = (m.noteRail op.registerAddress).diagnostics) ∨
      ((∀ f, m.raises op f = decide (f = .lfoParam ∧ (m.misledLfo? op).isSome)) ∧
        (m.outward op).diagnostics = m.diagnostics.mislead (m.misledLfo? op)) := by
  cases hmnemonic : op.mnemonic with
  | rda =>
    have haddress := toInt_address hop (by rw [hmnemonic]; decide)
    refine .inl ⟨(op.bits .address).toInt32, ?_, ?_⟩
    · rw [haddress, readOffset?, hmnemonic]
    · rw [outward, hmnemonic]
  | rmpa =>
    refine .inl ⟨m.indirectOffset, ?_, ?_⟩
    · rw [toInt_indirectOffset, readOffset?, hmnemonic]
    · rw [outward, hmnemonic]
  | choRda =>
    refine .inl ⟨(op.bits .address).toInt32 + (m.chorusDisplacement op).1, ?_, ?_⟩
    · rw [readOffset?, hmnemonic]
    · rw [outward, hmnemonic]
  | wra | wrap =>
    have haddress := toInt_address hop (by rw [hmnemonic]; decide)
    refine .inr (.inl ⟨rfl, haddress, ?_⟩)
    rw [outward, hmnemonic]
  | wrax | wrhx | wrlx =>
    have hwrites : op.mnemonic.writesRegister = true := by
      rw [hmnemonic]
      rfl
    have houtward : m.outward op = m.writeRegister op.registerAddress := by
      rw [outward, hmnemonic]
    rw [houtward]
    -- The parameters of oscillators are registers, too.
    cases hparam : Address.lfoParam? op.registerAddress with
    | none => exact .inr (.inr (.inl ⟨rfl, rfl, diagnostics_of_lfoParam_none hparam⟩))
    | some target =>
      exact .inr (.inr (.inr ⟨raises_of_lfoParam hwrites hparam,
        diagnostics_of_lfoParam hwrites hparam⟩))
  | wldr =>
    have hread : m.readOffset? op = none := by rw [readOffset?, hmnemonic]
    exact .inr (.inr (.inr ⟨raises_of_others hread (congrArg Mnemonic.writesDelay hmnemonic)
      (congrArg Mnemonic.writesRegister hmnemonic), diagnostics_of_wldr hop hmnemonic⟩))
  | wlds =>
    have hread : m.readOffset? op = none := by rw [readOffset?, hmnemonic]
    refine .inr (.inr (.inr ⟨raises_of_others hread (congrArg Mnemonic.writesDelay hmnemonic)
      (congrArg Mnemonic.writesRegister hmnemonic), ?_⟩))
    rw [diagnostics_of_wlds hop hmnemonic, misledLfo?, hmnemonic]
    rfl
  | _ =>
    have hread : m.readOffset? op = none := by rw [readOffset?, hmnemonic]
    refine .inr (.inr (.inr ⟨raises_of_others hread (congrArg Mnemonic.writesDelay hmnemonic)
      (congrArg Mnemonic.writesRegister hmnemonic), ?_⟩))
    rw [outward, misledLfo?, hmnemonic]
    rfl

/-- An instruction counts the faults that it raises. -/
theorem count_outward (hop : op.IsDecoded) (f : DataFault) :
    (m.outward op).diagnostics.count f =
      m.diagnostics.count f + if m.raises op f then 1 else 0 := by
  rcases outward_cases m hop with ⟨offset, hread, heq⟩ | ⟨hwrites, haddress, heq⟩ |
    ⟨hwrites, hparam, heq⟩ | ⟨hraises, heq⟩
  · rw [heq]
    show (m.noteAccess offset .read).diagnostics.count f = _
    rw [count_noteAccess, raises_of_read hread]
    exact congrArg (m.diagnostics.count f + ·) (if_congr decide_eq_true_iff.symm rfl rfl)
  · rw [heq, count_writeDelay, raises_of_writesDelay hwrites haddress]
    simp only [decide_eq_true_eq]
  · rw [heq, count_noteRail, raises_of_lfoParam_none hwrites hparam]
    simp only [decide_eq_true_eq]
  · rw [heq, Diagnostics.count_mislead, hraises]
    simp only [decide_eq_true_eq]

/-- An instruction flags the oscillator that it misleads. -/
theorem flag_outward (hop : op.IsDecoded) (lfo : LfoSelect) :
    (m.outward op).diagnostics.flag lfo =
      (m.diagnostics.flag lfo || m.misledLfo? op == some lfo) := by
  rcases outward_cases m hop with ⟨offset, hread, heq⟩ | ⟨hwrites, -, heq⟩ |
    ⟨hwrites, hparam, heq⟩ | ⟨-, heq⟩
  · rw [heq, misledLfo?_of_read hread]
    show (m.noteAccess offset .read).diagnostics.flag lfo = _
    rw [flag_noteAccess]
    exact (Bool.or_false _).symm
  · have hmisled : m.misledLfo? op = none := by
      rcases mnemonic_of_writesDelay hwrites with hop | hop <;> rw [misledLfo?, hop]
    rw [heq, hmisled]
    show ((m.noteAccess _ .write).noteSample _).diagnostics.flag lfo = _
    rw [flag_noteSample, flag_noteAccess]
    exact (Bool.or_false _).symm
  · rw [heq, flag_noteRail, misledLfo?_of_lfoParam_none hwrites hparam]
    exact (Bool.or_false _).symm
  · rw [heq, Diagnostics.flag_mislead]

/-- The clamps of the accumulator are counted apart. -/
theorem count_execute (m : Machine) (op : Operation) (f : DataFault) :
    (m.execute op).diagnostics.count f = (m.outward op).diagnostics.count f := by
  rw [diagnostics_execute]
  cases f <;> rfl

theorem flag_execute (m : Machine) (op : Operation) (lfo : LfoSelect) :
    (m.execute op).diagnostics.flag lfo = (m.outward op).diagnostics.flag lfo := by
  rw [diagnostics_execute]
  rfl

/-! ## Where a modulated read goes -/

/-- An oscillator that provides NA does not move the address. -/
theorem displacement_of_na (hop : op.mnemonic = .choRda) (hfault : m.fault? op = none)
    (hna : ChorusFlag.na.isIn (op.bits .flags) = true) : (m.chorusDisplacement op).1 = 0 := by
  have hramp : (chorusLfo op).isRamp = true := by
    unfold fault? at hfault
    rw [hop] at hfault
    have hsuits := List.find?_eq_none.mp (Option.map_eq_none_iff.mp hfault) .na (by decide)
    simpa [hna, ChorusFlag.suits] using hsuits
  obtain ⟨x, hcrossfade⟩ : ∃ x, (m.chorusReading op).crossfade? = some x := by
    unfold chorusReading LfoReading.ofBank
    rw [if_pos hramp]
    exact ⟨_, if_pos hna⟩
  unfold chorusDisplacement LfoReading.displacement
  rw [hcrossfade]

/-- The address of a modulated read is the sum of its two parts, as far as 32 bits hold it. -/
theorem readOffset?_of_fits (hop : op.IsDecoded) (hread : op.mnemonic = .choRda)
    (hfits : (op.bits .address).toNat + (m.chorusDisplacement op).1.toInt ≤ 2147483647) :
    m.readOffset? op = some ((op.bits .address).toNat + (m.chorusDisplacement op).1.toInt) := by
  have haddress := toInt_address hop (by rw [hread]; decide)
  have hlo := Int32.le_toInt (m.chorusDisplacement op).1
  rw [readOffset?, hread, ← haddress]
  exact congrArg some (toInt_add_of_fits (by omega) (by omega))

/-! ## Runs -/

/-- How often instructions raise a fault. -/
def faultsIn (executed : List Executed) (f : DataFault) : Nat :=
  executed.countP fun e => e.before.raises e.op f

/-- One of the instructions misleads the oscillator. -/
def misleads (executed : List Executed) (lfo : LfoSelect) : Bool :=
  executed.any fun e => e.before.misledLfo? e.op == some lfo

/-- From `m` to `n` the counters grow by the faults of the instructions in between, and the
    oscillators that these mislead are flagged. Counters wrap at their width. -/
structure Noted (m : Machine) (executed : List Executed) (n : Machine) : Prop where
  count : ∀ f,
    n.diagnostics.count f = m.diagnostics.count f + UInt64.ofNat (faultsIn executed f)
  flag : ∀ lfo, n.diagnostics.flag lfo = (m.diagnostics.flag lfo || misleads executed lfo)

namespace Noted

variable {n k : Machine} {first second : List Executed}

theorem nil (h : n.diagnostics = m.diagnostics) : Noted m [] n where
  count f := by
    rw [h]
    exact (UInt64.add_zero _).symm
  flag lfo := by
    rw [h]
    exact (Bool.or_false _).symm

theorem append (h : Noted m first n) (h' : Noted n second k) : Noted m (first ++ second) k where
  count f := by
    unfold faultsIn
    rw [h'.count, h.count, List.countP_append, UInt64.ofNat_add, UInt64.add_assoc]
    rfl
  flag lfo := by
    unfold misleads
    rw [h'.flag, h.flag, List.any_append, Bool.or_assoc]
    rfl

theorem execute (m : Machine) {op : Operation} (hop : op.IsDecoded) :
    Noted m [⟨m, op⟩] (m.execute op) where
  count f := by
    have hone : UInt64.ofNat (faultsIn [⟨m, op⟩] f) = if m.raises op f then 1 else 0 := by
      unfold faultsIn
      rw [List.countP_singleton]
      split <;> rfl
    rw [count_execute, count_outward hop, hone]
  flag lfo := by
    have hone : misleads [⟨m, op⟩] lfo = (m.misledLfo? op == some lfo) := Bool.or_false _
    rw [flag_execute, flag_outward hop, hone]

/-- Faults are counted along every run of decoded instructions. -/
theorem traceLaw : TraceLaw Operation.IsDecoded Noted where
  refl _ := .nil rfl
  trans h h' := h.append h'
  execute m _ hop := .execute m hop
  endSample _ := .nil rfl

theorem calls {calls : List HostCall} (hcalls : ∀ call ∈ calls, call.IsDecoded ∧ call ≠ .reset)
    (m : Machine) : Noted m (executedIn calls m) (afterCalls calls m) :=
  traceLaw.calls
    (fun call hcall _ hop => HostCall.isDecoded_of_mem_program (hcalls call hcall).1 hop)
    (fun call hcall n => .nil (n.diagnostics_opening (hcalls call hcall).2)) m

end Noted

/-- No parameter is counted if no oscillator is misled. -/
theorem faultsIn_lfoParam_eq_zero_iff (executed : List Executed) :
    faultsIn executed .lfoParam = 0 ↔ ∀ lfo, misleads executed lfo = false := by
  unfold faultsIn misleads
  rw [List.countP_eq_zero]
  constructor
  · intro hnone lfo
    rw [List.any_eq_false]
    intro e he hmisled
    exact hnone e he (Option.isSome_iff_exists.mpr ⟨lfo, eq_of_beq hmisled⟩)
  · intro hnone e he hraised
    obtain ⟨lfo, hmisled⟩ := Option.isSome_iff_exists.mp hraised
    exact List.any_eq_false.mp (hnone lfo) e he (beq_iff_eq.mpr hmisled)

/-- Every data fault is counted once: by an instruction exactly if it raises the fault, and
    together with the flag of the oscillator if it misleads one. So over every run a counter grows
    by the number of instructions that raise its fault, as long as it does not go around, and no
    flag is taken back; and if no parameter was counted exactly as no oscillator was flagged,
    then this is so afterwards. A modulated read does not move its address under NA. -/
theorem data_faults_counted (m : Machine) :
    (∀ op : Operation, op.IsDecoded →
      (∀ f, (m.execute op).diagnostics.count f =
          m.diagnostics.count f + if m.raises op f then 1 else 0) ∧
        (∀ lfo, (m.execute op).diagnostics.flag lfo =
          (m.diagnostics.flag lfo || m.misledLfo? op == some lfo)) ∧
        (op.mnemonic = .choRda →
          (m.fault? op = none → ChorusFlag.na.isIn (op.bits .flags) = true →
              (m.chorusDisplacement op).1 = 0) ∧
            ((op.bits .address).toNat + (m.chorusDisplacement op).1.toInt ≤ 2147483647 →
              m.readOffset? op =
                some ((op.bits .address).toNat + (m.chorusDisplacement op).1.toInt)))) ∧
      ∀ calls : List HostCall, (∀ call ∈ calls, call.IsDecoded ∧ call ≠ .reset) →
        (∀ f, (m.diagnostics.count f).toNat + faultsIn (executedIn calls m) f < UInt64.size →
            ((afterCalls calls m).diagnostics.count f).toNat =
              (m.diagnostics.count f).toNat + faultsIn (executedIn calls m) f) ∧
          (∀ lfo, (afterCalls calls m).diagnostics.flag lfo =
            (m.diagnostics.flag lfo || misleads (executedIn calls m) lfo)) ∧
          (m.diagnostics.invalidLfoParams.toNat + faultsIn (executedIn calls m) .lfoParam <
              UInt64.size →
            (m.diagnostics.invalidLfoParams = 0 ↔ ∀ lfo, m.diagnostics.flag lfo = false) →
            ((afterCalls calls m).diagnostics.invalidLfoParams = 0 ↔
              ∀ lfo, (afterCalls calls m).diagnostics.flag lfo = false)) := by
  constructor
  · intro op hop
    refine ⟨fun f => ?_, fun lfo => ?_, fun hread => ⟨fun hfault hna => ?_, fun hfits => ?_⟩⟩
    · rw [count_execute, count_outward hop]
    · rw [flag_execute, flag_outward hop]
    · exact displacement_of_na hread hfault hna
    · exact readOffset?_of_fits hop hread hfits
  · intro calls hcalls
    have hnoted := Noted.calls hcalls m
    have hexact : ∀ f,
        (m.diagnostics.count f).toNat + faultsIn (executedIn calls m) f < UInt64.size →
          ((afterCalls calls m).diagnostics.count f).toNat =
            (m.diagnostics.count f).toNat + faultsIn (executedIn calls m) f := by
      intro f hfits
      rw [hnoted.count, toNat_add_ofNat hfits]
    refine ⟨hexact, hnoted.flag, fun hfits hflags => ?_⟩
    have hsum := hexact .lfoParam hfits
    have hnone := faultsIn_lfoParam_eq_zero_iff (executedIn calls m)
    -- A sum of counts that does not go around is zero exactly if both are.
    have hzero : (afterCalls calls m).diagnostics.invalidLfoParams = 0 ↔
        m.diagnostics.invalidLfoParams = 0 ∧ faultsIn (executedIn calls m) .lfoParam = 0 := by
      rw [← UInt64.toNat_inj, ← UInt64.toNat_inj]
      show ((afterCalls calls m).diagnostics.count .lfoParam).toNat = 0 ↔
        (m.diagnostics.count .lfoParam).toNat = 0 ∧ _
      omega
    rw [hzero, hflags, hnone, ← forall_and]
    simp only [hnoted.flag, Bool.or_eq_false_iff]

/-- WRA 5, 0. -/
def storeFar : Operation :=
  { mnemonic := .wra
    operands := [⟨⟨.address, 16, .unsigned⟩, 5⟩, ⟨.coefficient 11 .coefficient11, 0⟩]
    word := 0x000000a2 }

/-- Two samples write behind a memory of three cells. -/
theorem data_faults_counted_behind :
    (∀ call ∈ List.replicate 2 (HostCall.runSample 2 #[storeFar]),
        call.IsDecoded ∧ call ≠ .reset) ∧
      ((afterCalls (List.replicate 2 (.runSample 2 #[storeFar]))
        (powerOn 3 true)).diagnostics.count .writeOutside).toNat = 2 := by
  have hprogram : Program.IsDecoded #[storeFar] :=
    Program.isDecoded_singleton ⟨0x000000a2, by decide⟩
  have hcalls : ∀ call ∈ List.replicate 2 (HostCall.runSample 2 #[storeFar]),
      call.IsDecoded ∧ call ≠ .reset := by
    intro call hcall
    rw [(List.mem_replicate.mp hcall).2]
    exact ⟨hprogram, nofun⟩
  have hfaults : faultsIn (executedIn (List.replicate 2 (.runSample 2 #[storeFar]))
      (powerOn 3 true)) .writeOutside = 2 := by decide
  obtain ⟨-, hruns⟩ := data_faults_counted (powerOn 3 true)
  obtain ⟨hcount, -, -⟩ := hruns _ hcalls
  have hafter := hcount .writeOutside (by rw [hfaults]; decide)
  rw [hfaults] at hafter
  exact ⟨hcalls, hafter⟩

/-- WRAX SIN0_RATE, 0. -/
def storeSineRate : Operation :=
  { mnemonic := .wrax
    operands :=
      [⟨⟨.register, 6, .unsigned⟩, 0⟩, ⟨.unused 5, 0⟩, ⟨.coefficient 16 .coefficient16, 0⟩]
    word := 0x00000006 }

/-- A machine that has counted as many invalid parameters as its counter holds. -/
def brimming : Machine :=
  { powerOn 1 true with
    acc := .ofRaw (-1)
    diagnostics :=
      { Diagnostics.clean.flagInvalidLfo .sin0 with invalidLfoParams := 0xffffffffffffffff } }

/-- One parameter more takes the counter back to zero, though the oscillator stays flagged. -/
theorem lfo_count_goes_around :
    storeSineRate.IsDecoded ∧ brimming.fault? storeSineRate = none ∧
      brimming.raises storeSineRate .lfoParam = true ∧
      (brimming.execute storeSineRate).diagnostics.invalidLfoParams <
        brimming.diagnostics.invalidLfoParams ∧
      (brimming.execute storeSineRate).diagnostics.invalidLfoParams = 0 ∧
      (brimming.execute storeSineRate).diagnostics.flag .sin0 = true :=
  ⟨⟨0x00000006, by decide⟩, by decide, by decide, by decide, by decide, by decide⟩

end Machine
end EffectsDsp
