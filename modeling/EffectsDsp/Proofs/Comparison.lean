/-
  EffectsDsp.Proofs.Comparison

  Two machines that are equal but for what their fixed-point values declare. A relation
  `R` on values says what is compared; `Machine.Related R` compares the accumulators, LR
  and the registers by `R` and all else by equality, the saturation mode of the machine
  excepted.

  A `Comparison` sees the number of a value at least and its saturation mode at most.
  Under such an `R` the outward part of an instruction, its faults, its successor and all
  that a host does besides running programs keep machines related. What the accumulator
  becomes depends on `R` and is left to the modules that choose one.
-/

import EffectsDsp.Proofs.Effect
import EffectsDsp.Proofs.Session

namespace EffectsDsp

/-! ## Values and registers -/

/-- A relation on values that sees their number, but not their saturation mode. -/
structure Fixed.Comparison (R : Fixed → Fixed → Prop) : Prop where
  refl : ∀ x, R x x
  raw_eq : ∀ {x y}, R x y → x.raw = y.raw
  withSaturating : ∀ {x y}, R x y → ∀ mode mode',
    R (x.withSaturating mode) (y.withSaturating mode')
  withFormat : ∀ {x y}, R x y → ∀ fmt, R (x.withFormat fmt) (y.withFormat fmt)

/-- Slots of one kind with the same parameter or related values. -/
inductive Register.Related (R : Fixed → Fixed → Prop) : Register → Register → Prop
  | config (v : Int32) : Related R (.config v) (.config v)
  | audio {x y : Fixed} (h : R x y) : Related R (.audio x) (.audio y)

/-- Every slot is related to the one at the same address. -/
def RegisterFile.Related (R : Fixed → Fixed → Prop) (regs regs' : RegisterFile) : Prop :=
  ∀ address, (regs.slot address).Related R (regs'.slot address)

/-- The same fault, or outputs that are related. -/
inductive OutputsRelated (R : Fixed → Fixed → Prop) :
    Except Fault (Fixed × Fixed) → Except Fault (Fixed × Fixed) → Prop
  | ok {l r l' r' : Fixed} (left : R l l') (right : R r r') :
      OutputsRelated R (.ok (l, r)) (.ok (l', r'))
  | error (e : Fault) : OutputsRelated R (.error e) (.error e)

/-- The two machines differ in the parts of values that `R` does not see and in their
    saturation modes at most. -/
structure Machine.Related (R : Fixed → Fixed → Prop) (m n : Machine) : Prop where
  ip : m.ip = n.ip
  acc : R m.acc n.acc
  pacc : R m.pacc n.pacc
  lr : R m.lr n.lr
  regs : m.regs.Related R n.regs
  delay : m.delay = n.delay
  delayPtr : m.delayPtr = n.delayPtr
  runFlag : m.runFlag = n.runFlag
  lfos : m.lfos = n.lfos
  diagnostics : m.diagnostics = n.diagnostics

variable {R : Fixed → Fixed → Prop}

theorem Register.Related.read (hR : Fixed.Comparison R) {r r' : Register} (h : r.Related R r')
    (address : UInt8) : R (r.read address) (r'.read address) := by
  cases h with
  | config v => exact hR.refl _
  | audio hxy => exact hxy

namespace RegisterFile.Related

variable {regs regs' : RegisterFile}

theorem read (hR : Fixed.Comparison R) (h : regs.Related R regs') (address : UInt8) :
    R (regs.read address) (regs'.read address) :=
  (h address).read hR address

theorem refl (hR : Fixed.Comparison R) (regs : RegisterFile) : regs.Related R regs := by
  intro address
  cases regs.slot address with
  | config v => exact .config v
  | audio x => exact .audio (hR.refl x)

/-- A change that keeps slots related keeps register files related. -/
theorem modify (h : regs.Related R regs') (address : UInt8) {f g : Register → Register}
    (hfg : ∀ {r r'}, Register.Related R r r' → Register.Related R (f r) (g r')) :
    (regs.modify address f).Related R (regs'.modify address g) := by
  intro other
  rw [slot_modify, slot_modify]
  split
  · exact hfg (h other)
  · exact h other

theorem write (h : regs.Related R regs') (address : UInt8) {x y : Fixed} (hxy : R x y) :
    (regs.write address x).Related R (regs'.write address y) :=
  h.modify address fun hr => by
    cases hr with
    | config v => exact .config v
    | audio _ => exact .audio hxy

theorem setConfig (h : regs.Related R regs') (address : UInt8) (value : Int32) :
    (regs.setConfig address value).Related R (regs'.setConfig address value) :=
  h.modify address fun hr => by
    cases hr with
    | config v => exact .config value
    | audio hxy => exact .audio hxy

end RegisterFile.Related

namespace Machine.Related

variable {m n : Machine}

/-! ## The outward part of an instruction -/

theorem noteAccess (h : Related R m n) (offset : Int32) (access : Access) :
    Related R (m.noteAccess offset access) (n.noteAccess offset access) := by
  have hrange : m.OffsetInRange offset ↔ n.OffsetInRange offset := by
    unfold OffsetInRange
    rw [h.delay]
  unfold Machine.noteAccess
  by_cases hin : m.OffsetInRange offset
  · rw [if_pos hin, if_pos (hrange.mp hin)]
    exact h
  · rw [if_neg hin, if_neg fun hin' => hin (hrange.mpr hin'), h.diagnostics]
    cases access <;> exact { h with diagnostics := rfl }

theorem noteSample (hR : Fixed.Comparison R) (h : Related R m n) {x y : Fixed} (hxy : R x y) :
    Related R (m.noteSample x) (n.noteSample y) := by
  have hfits : x.toSample = y.toSample := by
    unfold Fixed.toSample Fixed.toQ
    rw [hR.raw_eq hxy]
  unfold Machine.noteSample
  rw [hfits, h.diagnostics]
  split
  · exact { h with diagnostics := rfl }
  · exact h

theorem delayIndex (h : Related R m n) (offset : Int32) :
    m.delayIndex offset = n.delayIndex offset := by
  unfold Machine.delayIndex clampOffset
  rw [h.delay, h.delayPtr]

theorem loadDelay (hR : Fixed.Comparison R) (h : Related R m n) (offset : Int32) :
    Related R (m.loadDelay offset) (n.loadDelay offset) := by
  have hword : R (m.delayWord offset) (n.delayWord offset) := by
    unfold delayWord
    rw [h.delay, h.delayIndex]
    exact hR.withSaturating (hR.refl _) _ _
  exact { h.noteAccess offset .read with lr := hword }

theorem writeDelay (hR : Fixed.Comparison R) (h : Related R m n) (offset : Int32)
    {x y : Fixed} (hxy : R x y) : Related R (m.writeDelay offset x) (n.writeDelay offset y) := by
  have hnoted := (h.noteAccess offset .write).noteSample hR hxy
  have hword : x.toSample.1 = y.toSample.1 := by
    rw [Fixed.toSample_fst, Fixed.toSample_fst, hR.raw_eq hxy]
  refine { hnoted with delay := ?_ }
  show Array.setIfInBounds _ (m.delayIndex offset) x.toSample.1 =
    Array.setIfInBounds _ (n.delayIndex offset) y.toSample.1
  rw [hnoted.delay, h.delayIndex, hword]

theorem noteLfo (h : Related R m n) (lfo : LfoSelect) (clamped : Bool) :
    Related R (m.noteLfo lfo clamped) (n.noteLfo lfo clamped) := by
  unfold Machine.noteLfo
  rw [h.diagnostics]
  split
  · exact { h with diagnostics := rfl }
  · exact h

theorem withLfos (h : Related R m n) (lfos : LfoBank) :
    Related R { m with lfos } { n with lfos } :=
  { h with lfos := rfl }

theorem showParam (h : Related R m n) (lfo : LfoSelect) (p : LfoParam) (value : Int32) :
    Related R (m.showParam lfo p value) (n.showParam lfo p value) :=
  { h with regs := h.regs.setConfig _ _ }

theorem programLfo (h : Related R m n) (lfo : LfoSelect) (p : LfoParam) (raw : Int32) :
    Related R (m.programLfo lfo p raw) (n.programLfo lfo p raw) := by
  unfold Machine.programLfo
  rw [h.lfos]
  exact ((h.withLfos _).noteLfo lfo _).showParam lfo p _

theorem loadSine (h : Related R m n) (lfo : LfoSelect) (rate amplitude : Int32) :
    Related R (m.loadSine lfo rate amplitude) (n.loadSine lfo rate amplitude) := by
  unfold Machine.loadSine
  rw [h.lfos]
  exact (((h.withLfos _).noteLfo lfo _).showParam lfo .rate _).showParam lfo .range _

theorem loadRamp (h : Related R m n) (lfo : LfoSelect) (rate? : Option Int32) (idx : UInt32) :
    Related R (m.loadRamp lfo rate? idx) (n.loadRamp lfo rate? idx) := by
  unfold Machine.loadRamp
  rw [h.lfos]
  exact (((h.withLfos _).noteLfo lfo _).showParam lfo .rate _).showParam lfo .range _

theorem restartRamp (h : Related R m n) (lfo : LfoSelect) :
    Related R (m.restartRamp lfo) (n.restartRamp lfo) := by
  unfold Machine.restartRamp
  rw [h.lfos]
  exact h.withLfos _

theorem noteRail (hR : Fixed.Comparison R) (h : Related R m n) (address : UInt8) :
    Related R (m.noteRail address) (n.noteRail address) := by
  unfold Machine.noteRail accAtRail
  rw [hR.raw_eq h.acc, h.diagnostics]
  split
  · split
    · exact { h with diagnostics := rfl }
    · split
      · exact { h with diagnostics := rfl }
      · exact h
  · exact h

theorem writeRegister (hR : Fixed.Comparison R) (h : Related R m n) (address : UInt8) :
    Related R (m.writeRegister address) (n.writeRegister address) := by
  unfold Machine.writeRegister
  rw [hR.raw_eq h.acc]
  cases Address.lfoParam? address with
  | some target => exact h.programLfo target.1 target.2 _
  | none =>
    have hnoted := h.noteRail hR address
    exact { hnoted with regs := hnoted.regs.write address hnoted.acc }

/-- CHO reads one oscillator on both sides. -/
theorem chorusDisplacement_eq (h : Related R m n) (op : Operation) :
    m.chorusDisplacement op = n.chorusDisplacement op := by
  unfold chorusDisplacement chorusReading
  rw [h.lfos]

theorem chorusCoefficient_eq (h : Related R m n) (op : Operation) :
    m.chorusCoefficient op = n.chorusCoefficient op := by
  unfold chorusCoefficient chorusReading
  rw [h.lfos]

theorem outward (hR : Fixed.Comparison R) (h : Related R m n) (op : Operation) :
    Related R (m.outward op) (n.outward op) := by
  unfold Machine.outward
  cases op.mnemonic with
  | rda => exact h.loadDelay hR _
  | rmpa =>
    have hoffset : m.indirectOffset = n.indirectOffset := by
      unfold indirectOffset
      rw [hR.raw_eq (h.regs.read hR _)]
    simp only [hoffset]
    exact h.loadDelay hR _
  | choRda =>
    simp only [h.chorusDisplacement_eq op]
    exact h.loadDelay hR _
  | wra | wrap => exact h.writeDelay hR _ h.acc
  | wrax | wrhx | wrlx => exact h.writeRegister hR _
  | wlds => exact h.loadSine _ _ _
  | wldr => exact h.loadRamp _ _ _
  | jam => exact h.restartRamp _
  | _ => exact h

/-! ## Faults and skips -/

theorem fault?_eq (h : Related R m n) (op : Operation) : m.fault? op = n.fault? op := by
  unfold Machine.fault?
  rw [h.ip]

theorem current?_eq (h : Related R m n) (program : Program) :
    m.current? program = n.current? program := by
  unfold Machine.current?
  simp only [h.ip, h.fault?_eq]

theorem nextIp_eq (hR : Fixed.Comparison R) (h : Related R m n) (op : Operation) :
    m.nextIp op = n.nextIp op := by
  have hholds : m.skipHolds = n.skipHolds := by
    funext c
    cases c <;> simp only [skipHolds, hR.raw_eq h.acc, hR.raw_eq h.pacc, h.runFlag]
  unfold Machine.nextIp skips
  rw [hholds, h.ip]

/-! ## Host side -/

theorem setInputs (hR : Fixed.Comparison R) (h : Related R m n) {l r l' r' : Fixed}
    (hl : R l l') (hr : R r r') : Related R (m.setInputs l r) (n.setInputs l' r') :=
  { h with
    regs := (h.regs.write _ (hR.withFormat hl _)).write _ (hR.withFormat hr _) }

theorem advanceLfos (h : Related R m n) : Related R m.advanceLfos n.advanceLfos :=
  { h with lfos := congrArg LfoBank.advance h.lfos }

theorem endSample (h : Related R m n) : Related R m.endSample n.endSample := by
  refine { h with ip := rfl, runFlag := rfl, delayPtr := ?_ }
  show (if m.delayPtr = 0 then UInt64.ofNat m.delay.size else m.delayPtr) - 1 = _
  rw [h.delay, h.delayPtr]
  rfl

theorem frameStart (hR : Fixed.Comparison R) (h : Related R m n) {l r l' r' : Fixed}
    (hl : R l l') (hr : R r r') : Related R (m.frameStart l r) (n.frameStart l' r') :=
  { (h.setInputs hR hl hr).advanceLfos with ip := rfl }

theorem outputs (hR : Fixed.Comparison R) (h : Related R m n) :
    R m.outputs.1 n.outputs.1 ∧ R m.outputs.2 n.outputs.2 :=
  ⟨h.regs.read hR _, h.regs.read hR _⟩

end Machine.Related
end EffectsDsp
