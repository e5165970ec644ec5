/-
  EffectsDsp.Proofs.Noninterference

  Declared formats do not influence what a machine computes, and neither do the saturation
  modes of stored values: two machines that differ in nothing else cannot be told apart by
  their outputs, faults and clamps.

  A result is bounded by the mode of the value that an operation is applied to. So every
  such value has to be the accumulator, or one that was brought into the mode of the machine
  before: this is what `sameValue_computed` checks, instruction by instruction. The operand
  of an operation may come from anywhere, as it only gives its number and its clamps.
-/

import Mathlib.Data.List.Forall2
import EffectsDsp.Proofs.Lockstep

namespace EffectsDsp

/-! ## Values -/

namespace Fixed

/-- Values that are the same number with the same clamps, whatever they declare. -/
structure SameNumber (x y : Fixed) : Prop where
  raw : x.raw = y.raw
  clamps : x.clamps = y.clamps

/-- Values of one mode besides. Only their formats may differ. -/
structure SameValue (x y : Fixed) : Prop extends SameNumber x y where
  saturating : x.saturating = y.saturating

theorem SameNumber.comparison : Comparison SameNumber where
  refl _ := ⟨rfl, rfl⟩
  raw_eq h := h.raw
  withSaturating h _ _ := ⟨h.raw, h.clamps⟩
  withFormat h _ := ⟨h.raw, h.clamps⟩

theorem SameNumber.refl (x : Fixed) : SameNumber x x :=
  ⟨rfl, rfl⟩

namespace SameValue

variable {x y a b : Fixed}

/-- Equal numbers in equal modes have equal results, be they clamped or not. -/
theorem store (h : SameValue x y) {e e' : Int} {i i' : UInt16} (he : e = e') (hi : i = i') :
    SameValue (x.store e i) (y.store e' i') := by
  subst he hi
  refine ⟨⟨?_, ?_⟩, h.saturating⟩
  · show bounded x.saturating e = bounded y.saturating e
    rw [h.saturating]
  · show addClamps (addClamps x.clamps i) _ = addClamps (addClamps y.clamps i) _
    rw [h.clamps]

theorem add (h : SameValue x y) (hab : SameNumber a b) : SameValue (x.add a) (y.add b) :=
  h.store (by rw [h.raw, hab.raw]) hab.clamps

theorem sub (h : SameValue x y) (hab : SameNumber a b) : SameValue (x.sub a) (y.sub b) :=
  h.store (by rw [h.raw, hab.raw]) hab.clamps

theorem mul (h : SameValue x y) (hab : SameNumber a b) : SameValue (x.mul a) (y.mul b) :=
  h.store (by rw [h.raw, hab.raw]) hab.clamps

theorem abs (h : SameValue x y) : SameValue x.abs y.abs :=
  h.store (by rw [h.raw]) rfl

theorem mapBits (h : SameValue x y) (f : UInt32 → UInt32) :
    SameValue (x.mapBits f) (y.mapBits f) :=
  ⟨⟨by simp only [Fixed.mapBits, h.raw], h.clamps⟩, h.saturating⟩

theorem withoutClamps (h : SameValue x y) : SameValue x.withoutClamps y.withoutClamps :=
  ⟨⟨h.raw, rfl⟩, h.saturating⟩

theorem larger (h : SameValue x y) (hab : SameValue a b) :
    SameValue (x.larger a) (y.larger b) := by
  unfold Fixed.larger
  rw [h.raw, hab.raw]
  split
  · exact hab
  · exact h

end SameValue
end Fixed

/-- Instructions that scale the word which they load to LR. -/
def Mnemonic.scalesWord : Mnemonic → Bool
  | rda | rmpa | choRda => true
  | _ => false

namespace Machine

open Fixed (SameNumber SameValue)

/-- The machines differ at most in the formats of their values, and in the modes of those
    that they store. -/
structure Alike (m n : Machine) : Prop where
  related : m.Related SameNumber n
  saturating : m.saturating = n.saturating
  acc : m.acc.saturating = n.acc.saturating

variable {m n : Machine}

/-! ## The accumulator -/

theorem Alike.sameValue_acc (h : Alike m n) : SameValue m.acc n.acc :=
  ⟨h.related.acc, h.acc⟩

/-- What is brought into the mode of the machine may have had any mode before. -/
theorem Alike.sameValue_value (h : Alike m n) {x y : Fixed} (hxy : SameNumber x y) :
    SameValue (m.value x) (n.value y) :=
  ⟨⟨hxy.raw, hxy.clamps⟩, h.saturating⟩

theorem Alike.sameValue_scaledMagnitude (h : Alike m n) (op : Operation) :
    SameValue (m.scaledMagnitude op) (n.scaledMagnitude op) :=
  ((h.sameValue_value (h.related.regs.read SameNumber.comparison _)).mul (.refl _)).abs

theorem Alike.sameValue_accDifference (h : Alike m n) :
    SameValue m.accDifference n.accDifference :=
  (h.sameValue_value h.related.pacc).sub h.related.acc

/-- Whatever an instruction computes for the accumulator is applied to a value whose mode the
    two machines have in common. -/
theorem Alike.sameValue_computed (h : Alike m n) {op : Operation}
    (hlr : op.mnemonic.scalesWord = true → m.lr.saturating = n.lr.saturating) :
    SameValue (m.computed op) (n.computed op) := by
  have hacc := h.sameValue_acc
  have hregister := h.related.regs.read SameNumber.comparison op.registerAddress
  have hword : op.mnemonic.scalesWord = true → SameValue m.lr n.lr :=
    fun hscales => ⟨h.related.lr, hlr hscales⟩
  unfold computed
  cases hmnemonic : op.mnemonic with
  | rda | rmpa =>
    have hscaled := (hword (by rw [hmnemonic]; rfl)).mul (.refl (op.real .coefficient))
    exact hacc.add hscaled.toSameNumber
  | wra | wrax => exact hacc.mul (.refl _)
  | wrap => exact (hacc.mul (.refl _)).add h.related.lr
  | rdax =>
    have hscaled := (h.sameValue_value hregister).mul (.refl (op.real .coefficient))
    exact hacc.add hscaled.toSameNumber
  | rdfx => exact ((hacc.sub hregister).mul (.refl _)).add hregister
  | ldax => exact h.sameValue_value hregister
  | wrhx => exact (hacc.mul (.refl _)).add h.related.pacc
  | wrlx =>
    exact (h.sameValue_accDifference.withoutClamps.mul (.refl _)).add h.related.pacc
  | maxx =>
    have hlarger := hacc.abs.withoutClamps.larger (h.sameValue_scaledMagnitude op).withoutClamps
    exact h.sameValue_value hlarger.toSameNumber
  | absa => exact hacc.abs
  | mulx => exact hacc.mul hregister
  | log =>
    rw [logarithm_congr h.related.acc.raw]
    exact ((h.sameValue_value (.refl _)).mul (.refl _)).add (.refl _)
  | exp =>
    rw [exponential_congr h.related.acc.raw]
    exact ((h.sameValue_value (.refl _)).mul (.refl _)).add (.refl _)
  | sof => exact ((h.sameValue_value h.related.acc).mul (.refl _)).add (.refl _)
  | and | clr | or | xor | not => exact hacc.mapBits _
  | choRda =>
    rw [h.related.chorusDisplacement_eq op]
    have hscaled := (hword (by rw [hmnemonic]; rfl)).mul
      (.refl (Fixed.ofFloat (n.chorusDisplacement op).2))
    exact hacc.add hscaled.toSameNumber
  | choSof =>
    rw [h.related.chorusCoefficient_eq op]
    exact (hacc.mul (.refl _)).add (.refl _)
  | choRdal =>
    rw [h.related.chorusCoefficient_eq op]
    exact (h.sameValue_value (.refl _)).add (.refl _)
  | skp | nop | wlds | wldr | jam | choReserved => exact hacc

theorem Alike.earlyClamps_eq (h : Alike m n) (op : Operation) :
    m.earlyClamps op = n.earlyClamps op := by
  unfold earlyClamps
  rw [(h.sameValue_scaledMagnitude op).clamps, h.sameValue_acc.abs.clamps]

theorem Alike.paccClamps_eq (h : Alike m n) (op : Operation) :
    m.paccClamps op = n.paccClamps op := by
  unfold paccClamps
  rw [h.sameValue_accDifference.clamps]

/-! ## Instructions -/

/-- A word that is loaded has the mode of the machine. -/
theorem saturating_lr_outward (m : Machine) {op : Operation}
    (h : op.mnemonic.scalesWord = true) : (m.outward op).lr.saturating = m.saturating := by
  unfold outward
  cases hmnemonic : op.mnemonic with
  | rda | rmpa | choRda => rfl
  | _ =>
    rw [hmnemonic] at h
    cases h

theorem Alike.outward (h : Alike m n) (op : Operation) : Alike (m.outward op) (n.outward op) := by
  have hm := framed_outward m op
  have hn := framed_outward n op
  refine ⟨h.related.outward SameNumber.comparison op, ?_, ?_⟩
  · rw [hm.saturating, hn.saturating, h.saturating]
  · rw [hm.acc, hn.acc, h.acc]

/-- Every instruction keeps machines alike, whatever it clamps. -/
theorem Alike.execute (h : Alike m n) (op : Operation) : Alike (m.execute op) (n.execute op) := by
  have houtward := h.outward op
  have hcomputed : SameValue ((m.outward op).computed op) ((n.outward op).computed op) := by
    refine houtward.sameValue_computed fun hscales => ?_
    rw [saturating_lr_outward m hscales, saturating_lr_outward n hscales, h.saturating]
  have hacc : SameValue (m.execute op).acc (n.execute op).acc := by
    rw [acc_execute, acc_execute]
    exact hcomputed.withoutClamps
  have hpacc : SameNumber (m.execute op).pacc (n.execute op).pacc := by
    rw [pacc_execute, pacc_execute]
    split
    · exact h.related.acc
    · exact h.related.pacc
  have hdiagnostics : (m.execute op).diagnostics = (n.execute op).diagnostics := by
    rw [diagnostics_execute, diagnostics_execute, accClamps, accClamps,
      houtward.earlyClamps_eq op, houtward.paccClamps_eq op, hcomputed.clamps,
      houtward.related.diagnostics, h.related.diagnostics]
  refine ⟨?_, ?_, hacc.saturating⟩
  · rw [execute_eq, execute_eq] at hacc hpacc hdiagnostics ⊢
    exact { houtward.related with
      ip := h.related.nextIp_eq SameNumber.comparison op
      acc := hacc.toSameNumber
      pacc := hpacc
      diagnostics := hdiagnostics }
  · rw [saturating_execute, saturating_execute, h.saturating]

/-! ## Runs -/

theorem Alike.endSample (h : Alike m n) : Alike m.endSample n.endSample :=
  ⟨h.related.endSample, h.saturating, h.acc⟩

theorem Alike.rewind (h : Alike m n) : Alike { m with ip := 0 } { n with ip := 0 } :=
  ⟨{ h.related with ip := rfl }, h.saturating, h.acc⟩

theorem Alike.frameStart (h : Alike m n) {l r l' r' : Fixed} (hl : SameNumber l l')
    (hr : SameNumber r r') : Alike (m.frameStart l r) (n.frameStart l' r') :=
  ⟨h.related.frameStart SameNumber.comparison hl hr, h.saturating, h.acc⟩

theorem Alike.setPot (h : Alike m n) (pot : Nat) {v v' : Fixed} (hv : SameNumber v v') :
    Alike (m.setPot pot v) (n.setPot pot v') := by
  unfold Machine.setPot
  split
  · next address _ =>
    have hregs := h.related.regs.write address (SameNumber.comparison.withFormat hv .sample)
    exact ⟨{ h.related with regs := hregs }, h.saturating, h.acc⟩
  · exact h

/-- A step has one result on both sides. -/
theorem Alike.step (h : Alike m n) (program : Program) :
    (m.step program).1 = (n.step program).1 ∧ Alike (m.step program).2 (n.step program).2 := by
  cases hcurrent : m.current? program with
  | none =>
    obtain hdone | ⟨e, hfails⟩ := step_of_current_none hcurrent
    · rw [hdone m rfl, hdone n h.related.ip.symm]
      exact ⟨rfl, h.endSample⟩
    · rw [hfails m rfl, hfails n h.related.ip.symm]
      exact ⟨rfl, h⟩
  | some op =>
    have hcurrent' : n.current? program = some op := h.related.current?_eq program ▸ hcurrent
    have hafter := h.execute op
    rw [step_of_current hcurrent, step_of_current hcurrent', hafter.related.ip]
    split
    · exact ⟨rfl, hafter⟩
    · exact ⟨rfl, hafter.endSample⟩

theorem Alike.stepsWithin (h : Alike m n) (limit : Nat) (program : Program) (fuel : Nat) :
    (m.stepsWithin limit program fuel).1 = (n.stepsWithin limit program fuel).1 ∧
      Alike (m.stepsWithin limit program fuel).2 (n.stepsWithin limit program fuel).2 := by
  induction fuel generalizing m n with
  | zero => exact ⟨rfl, h⟩
  | succ fuel ih =>
    obtain ⟨hresult, hafter⟩ := h.step program
    unfold Machine.stepsWithin
    generalize m.step program = first at hresult hafter ⊢
    generalize n.step program = second at hresult hafter ⊢
    obtain ⟨result, m'⟩ := first
    obtain ⟨result', n'⟩ := second
    obtain rfl : result = result' := hresult
    cases result with
    | error e => exact ⟨rfl, hafter⟩
    | ok progress =>
      cases progress with
      | running => exact ih hafter
      | sampleDone => exact ⟨rfl, hafter⟩

theorem Alike.process (h : Alike m n) (limit : Nat) (program : Program) {l r l' r' : Fixed}
    (hl : SameNumber l l') (hr : SameNumber r r') :
    OutputsRelated SameNumber (m.process limit program l r).1 (n.process limit program l' r').1 ∧
      Alike (m.process limit program l r).2 (n.process limit program l' r').2 := by
  obtain ⟨hresult, hafter⟩ := (h.frameStart hl hr).stepsWithin limit program limit
  obtain ⟨hleft, hright⟩ := hafter.related.outputs SameNumber.comparison
  rw [process_fst, process_fst, process_snd, process_snd, ← hresult]
  refine ⟨?_, hafter⟩
  cases ((m.frameStart l r).stepsWithin limit program limit).1 with
  | error e => exact .error e
  | ok _ => exact .ok hleft hright

end Machine

/-! ## Calls -/

/-- Calls of one kind that give related values to the machine. -/
inductive HostCall.Related (R : Fixed → Fixed → Prop) : HostCall → HostCall → Prop
  | step (program : Program) : Related R (.step program) (.step program)
  | runSample (limit : Nat) (program : Program) :
      Related R (.runSample limit program) (.runSample limit program)
  | process (limit : Nat) (program : Program) {l r l' r' : Fixed} (left : R l l')
      (right : R r r') : Related R (.process limit program l r) (.process limit program l' r')
  | setInputs {l r l' r' : Fixed} (left : R l l') (right : R r r') :
      Related R (.setInputs l r) (.setInputs l' r')
  | setPot (pot : Nat) {v v' : Fixed} (value : R v v') : Related R (.setPot pot v) (.setPot pot v')
  | advanceLfos : Related R .advanceLfos .advanceLfos
  | endSample : Related R .endSample .endSample
  | reset : Related R .reset .reset

/-- Answers of one kind with the same result, or with related outputs. -/
inductive Answer.Related (R : Fixed → Fixed → Prop) : Answer → Answer → Prop
  | done : Related R .done .done
  | progress (result : Except Fault Progress) : Related R (.progress result) (.progress result)
  | ended (result : Except Fault Unit) : Related R (.ended result) (.ended result)
  | outputs {result result' : Except Fault (Fixed × Fixed)} (h : OutputsRelated R result result') :
      Related R (.outputs result) (.outputs result')

namespace Machine

open Fixed (SameNumber)

variable {m n : Machine}

theorem Alike.refl (m : Machine) : Alike m m where
  related :=
    { ip := rfl
      acc := .refl _
      pacc := .refl _
      lr := .refl _
      regs := .refl SameNumber.comparison _
      delay := rfl
      delayPtr := rfl
      runFlag := rfl
      lfos := rfl
      diagnostics := rfl }
  saturating := rfl
  acc := rfl

/-- A call is answered alike by machines that are alike, which they are afterwards too. -/
theorem Alike.call (h : Alike m n) {call call' : HostCall}
    (hcall : HostCall.Related SameNumber call call') :
    Answer.Related SameNumber (Called.answer ⟨m, call⟩) (Called.answer ⟨n, call'⟩) ∧
      Alike (m.afterCall call) (n.afterCall call') := by
  cases hcall with
  | step program =>
    obtain ⟨hresult, hafter⟩ := h.step program
    refine ⟨?_, hafter⟩
    show Answer.Related SameNumber (.progress (m.step program).1) (.progress (n.step program).1)
    rw [hresult]
    exact .progress _
  | runSample limit program =>
    obtain ⟨hresult, hafter⟩ := h.rewind.stepsWithin limit program limit
    refine ⟨?_, hafter⟩
    show Answer.Related SameNumber (.ended (m.runSample limit program).1)
      (.ended (n.runSample limit program).1)
    unfold runSample
    rw [hresult]
    exact .ended _
  | process limit program left right =>
    obtain ⟨houtputs, hafter⟩ := h.process limit program left right
    exact ⟨.outputs houtputs, hafter⟩
  | setInputs left right =>
    exact ⟨.done, h.related.setInputs SameNumber.comparison left right, h.saturating, h.acc⟩
  | setPot pot value => exact ⟨.done, h.setPot pot value⟩
  | advanceLfos => exact ⟨.done, h.related.advanceLfos, h.saturating, h.acc⟩
  | endSample => exact ⟨.done, h.endSample⟩
  | reset =>
    refine ⟨.done, ?_⟩
    show Alike (powerOn m.delay.size m.saturating) (powerOn n.delay.size n.saturating)
    rw [h.related.delay, h.saturating]
    exact .refl _

/-- Nothing that a host calls brings to light what the values of a machine declare. Machines
    that are alike answer calls that give them the same numbers with the same results, the
    same faults and outputs of the same numbers and clamps, and they are alike after every
    call. -/
theorem session_noninterference (h : Alike m n) {calls calls' : List HostCall}
    (hcalls : List.Forall₂ (HostCall.Related SameNumber) calls calls') :
    List.Forall₂
      (fun c d => Answer.Related SameNumber c.answer d.answer ∧ Alike c.after d.after)
      (session calls m) (session calls' n) := by
  induction hcalls generalizing m n with
  | nil => exact .nil
  | cons hcall _ ih =>
    have hanswered := h.call hcall
    exact .cons hanswered (ih hanswered.2)

/-- A machine at power-on whose previous accumulator and LR do not saturate. -/
def relabelled : Machine :=
  { powerOn 1 true with
    pacc := ⟨0, .sample, false, 0⟩
    lr := ⟨0, .sample, false, 0⟩ }

/-- RDAX ADCL, 1.0 and then WRLX DACL, 1.0. -/
def shelveInput : Program :=
  #[⟨.rdax, [⟨⟨.register, 6, .unsigned⟩, 0x14⟩,
      ⟨⟨.coefficient, 16, .real .coefficient16⟩, 0x4000⟩], 0⟩,
    ⟨.wrlx, [⟨⟨.register, 6, .unsigned⟩, 0x16⟩,
      ⟨⟨.coefficient, 16, .real .coefficient16⟩, 0x4000⟩], 0⟩]

/-- An input that does not saturate makes no difference either. -/
theorem session_noninterference_relabelled :
    Alike (powerOn 1 true) relabelled ∧
      List.Forall₂ (HostCall.Related SameNumber)
        [.process 4 shelveInput (.ofRaw 8388607) .zero]
        [.process 4 shelveInput ⟨8388607, .sample, false, 0⟩ .zero] ∧
      List.Forall₂
        (fun c d => Answer.Related SameNumber c.answer d.answer ∧ Alike c.after d.after)
        (session [.process 4 shelveInput (.ofRaw 8388607) .zero] (powerOn 1 true))
        (session [.process 4 shelveInput ⟨8388607, .sample, false, 0⟩ .zero] relabelled) := by
  have hself := Alike.refl (powerOn 1 true)
  have halike : Alike (powerOn 1 true) relabelled :=
    ⟨{ hself.related with pacc := ⟨rfl, rfl⟩, lr := ⟨rfl, rfl⟩ }, rfl, rfl⟩
  have hcalls : List.Forall₂ (HostCall.Related SameNumber)
      [.process 4 shelveInput (.ofRaw 8388607) .zero]
      [.process 4 shelveInput ⟨8388607, .sample, false, 0⟩ .zero] :=
    .cons (.process 4 shelveInput ⟨rfl, rfl⟩ (.refl _)) .nil
  exact ⟨halike, hcalls, session_noninterference halike hcalls⟩

end Machine
end EffectsDsp
