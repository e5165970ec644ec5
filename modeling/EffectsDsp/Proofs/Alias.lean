/-
  EffectsDsp.Proofs.Alias

  An alias executes like the instruction that it spells. Each has code of its own: CLR is AND
  with the empty mask, NOT is XOR with all bits of the datapath, ABSA compares with the
  magnitude of nothing, NOP is a skip without conditions, and LDAX a filter that forgets. That
  they agree is a matter of the operands that a word with the alias has, which `Suits` gives.

  Those that read a register do nothing but compute an accumulator, so that
  `execute_of_computing` leaves the two accumulators and the two counts of clamps to compare.
  LDAX and RDFX differ there: the filter keeps the format of the accumulator and counts a
  difference that is too large, though the coefficient drops it.
-/

import EffectsDsp.Proofs.Datapath
import EffectsDsp.Proofs.Encoding

namespace EffectsDsp

/-! ## Zero -/

/-- A field without bits is the number zero. -/
theorem signExtend_zero (width : Nat) : signExtend 0 width = 0 := by
  have hfield : ((0#32).setWidth (min width 32)).signExtend 32 = 0#32 := by
    apply BitVec.eq_of_getLsbD_eq
    intro i _
    simp [BitVec.getLsbD_signExtend]
  exact congrArg Int32.ofBitVec hfield

namespace Fixed

theorem addClamps_zero (a : UInt16) : addClamps a 0 = a := by
  have hlt := a.toNat_lt
  rw [← UInt16.toNat_inj, toNat_addClamps, UInt16.toNat_zero, Nat.add_zero]
  exact Nat.min_eq_left (by omega)

/-- A result within the datapath brings no clamp of its own. -/
theorem store_of_inDatapath (x : Fixed) {exact : Int} (h : InDatapath exact) :
    x.store exact 0 = { x with raw := Int32.ofInt exact } := by
  unfold store
  rw [bounded_of_inDatapath _ h, if_pos h, addClamps_zero, addClamps_zero]

/-- The product with zero keeps nothing but the clamps of the value. -/
theorem mul_of_raw_eq_zero (x : Fixed) {y : Fixed} (hraw : y.raw = 0) (hclamps : y.clamps = 0) :
    x.mul y = { x with raw := 0 } := by
  have hproduct : (x.raw.toInt * y.raw.toInt) >>> (23 : Nat) = 0 := by
    rw [hraw, Int32.toInt_zero, Int.mul_zero, Int.zero_shiftRight]
  unfold mul
  rw [hproduct, hclamps, store_of_inDatapath x inDatapath_zero]
  rfl

theorem nonneg_abs (x : Fixed) : 0 ≤ x.abs.raw.toInt := by
  show 0 ≤ (bounded x.saturating x.raw.toInt.natAbs).toInt
  unfold bounded clampInt datapathMin datapathMax
  split <;> rw [Int32.toInt_ofInt_of_le] <;> omega

/-- No magnitude is below zero. -/
theorem abs_larger_of_raw_eq_zero (x : Fixed) {y : Fixed} (hraw : y.raw = 0) :
    x.abs.withoutClamps.larger y = x.abs.withoutClamps := by
  have hnonneg := x.nonneg_abs
  refine if_neg fun hlt => ?_
  rw [hraw, Int32.lt_iff_toInt_lt] at hlt
  exact absurd hnonneg (Int.not_le.mpr hlt)

/-- A complement of 24 bits is one of the whole word, as the other bits are not looked at. -/
theorem xor_allOnes (x : Fixed) : x.xor 0xffffff = x.not := by
  -- The words differ above bit 23, so they are compared after they are cut.
  have hmask : ∀ i < 24, (0xffffff : UInt32).toBitVec.getLsbD i = true := by decide
  have hbits : (x.raw.toUInt32 ^^^ 0xffffff).toBitVec.setWidth 24 =
      (~~~x.raw.toUInt32).toBitVec.setWidth 24 := by
    apply BitVec.eq_of_getLsbD_eq
    intro i hi
    have hword : i < 32 := by omega
    simp only [BitVec.getLsbD_setWidth, UInt32.toBitVec_xor, UInt32.toBitVec_not,
      BitVec.getLsbD_xor, BitVec.getLsbD_not, hmask i hi, hword, Bool.xor_true, decide_true,
      Bool.true_and]
  unfold xor not mapBits signExtend
  exact congrArg (fun bits : BitVec 24 =>
    { x with raw := Int32.ofBitVec (bits.signExtend 32) }) hbits

end Fixed

/-! ## Operands of aliases -/

/-- An operand without bits is the number zero. -/
theorem Operand.real_of_bits_eq_zero {a : Operand} (h : a.bits = 0) :
    a.real.raw = 0 ∧ a.real.clamps = 0 := by
  unfold real
  split
  · next fmt _ =>
    show Int32.ofInt ((signExtend a.bits fmt.width).toInt <<< fmt.shift) = 0 ∧ (0 : UInt16) = 0
    rw [h, signExtend_zero, Int32.toInt_zero, Int.zero_shiftLeft]
    exact ⟨rfl, rfl⟩
  · rw [h]
    exact ⟨rfl, rfl⟩

namespace Operation

variable {op : Operation}

/-- The operation with the mnemonic of the instruction that it spells. -/
def spelledOut (op : Operation) : Operation :=
  { op with mnemonic := op.mnemonic.canonical }

theorem real_of_bits_eq_zero {role : Role} (h : op.bits role = 0) :
    (op.real role).raw = 0 ∧ (op.real role).clamps = 0 := by
  unfold bits at h
  unfold real
  cases hfind : op.operand? role with
  | none => exact ⟨rfl, rfl⟩
  | some a =>
    rw [hfind] at h
    exact Operand.real_of_bits_eq_zero h

/-- A decoded operation has operands that suit its mnemonic. -/
theorem IsDecoded.suits (h : op.IsDecoded) : op.mnemonic.Suits op := by
  obtain ⟨word, hdecode⟩ := h
  exact ((mnemonic_eq_iff hdecode op.mnemonic).mp rfl).2

end Operation

namespace Machine

variable {m : Machine} {op : Operation}

/-! ## Instructions that only compute -/

/-- An instruction that only computes an accumulator changes this, PACC and a count. -/
theorem execute_of_computing (h : op.mnemonic ∈ [.rdfx, .ldax, .maxx, .absa]) :
    m.execute op =
      { m with
        ip := m.ip + 1
        acc := (m.computed op).withoutClamps
        pacc := m.acc
        diagnostics :=
          { m.diagnostics with
            accOverflows := m.diagnostics.accOverflows + m.accClamps op } } := by
  obtain ⟨mnemonic, operands, word⟩ := op
  simp only [List.mem_cons, List.not_mem_nil, or_false] at h
  rcases h with rfl | rfl | rfl | rfl
  all_goals
    rw [execute_eq, accClamps, ← UInt64.add_assoc]
    simp only [outward, accumulated, paccClamps, UInt64.add_zero]
    rfl

/-- A skip without conditions is not taken. -/
theorem nextIp_of_flags_eq_zero (h : op.bits .flags = 0) : m.nextIp op = m.ip + 1 := by
  rw [nextIp, h, skips_zero]
  exact if_neg fun hskip => Bool.false_ne_true hskip.2

/-- A value in the mode of the machine is the value. -/
theorem value_of_mode {x : Fixed} (h : x.saturating = m.saturating) : m.value x = x := by
  unfold value Fixed.withSaturating
  rw [← h]

/-! ## Coefficients of zero -/

section zeroCoefficient

variable (hcoefficient : op.bits .coefficient = 0)
include hcoefficient

/-- There is no magnitude to compare with. -/
theorem scaledMagnitude_of_zero (hregister : (m.regs.read op.registerAddress).clamps = 0) :
    (m.scaledMagnitude op).raw = 0 ∧ (m.scaledMagnitude op).clamps = 0 := by
  obtain ⟨hraw, hclamps⟩ := Operation.real_of_bits_eq_zero hcoefficient
  unfold scaledMagnitude Fixed.abs
  rw [Fixed.mul_of_raw_eq_zero _ hraw hclamps]
  dsimp only
  rw [Int32.toInt_zero, Int.natAbs_zero, Int.natCast_zero,
    Fixed.store_of_inDatapath _ inDatapath_zero]
  exact ⟨rfl, hregister⟩

/-- MAXX takes the magnitude of the accumulator, whose clamps it counts on the way. -/
theorem computed_maxx_of_zero (hop : op.mnemonic = .maxx)
    (hregister : (m.regs.read op.registerAddress).clamps = 0)
    (hmode : m.acc.saturating = m.saturating) :
    m.computed op = m.acc.abs.withoutClamps ∧ m.accClamps op = m.acc.abs.clamps.toUInt64 := by
  obtain ⟨hraw, hclamps⟩ := scaledMagnitude_of_zero hcoefficient hregister
  have hcomputed : m.computed op = m.acc.abs.withoutClamps := by
    unfold computed
    rw [hop]
    dsimp only
    rw [Fixed.abs_larger_of_raw_eq_zero m.acc (y := (m.scaledMagnitude op).withoutClamps) hraw]
    exact value_of_mode hmode
  -- The magnitude from the register has no clamps, and MAXX drops those that it counted.
  refine ⟨hcomputed, ?_⟩
  unfold accClamps earlyClamps
  rw [hop, hcomputed]
  dsimp only
  rw [hclamps]
  exact (UInt64.add_zero _).trans (UInt64.zero_add _)

/-- RDFX forgets the accumulator, but for the clamps of the difference. -/
theorem computed_rdfx_of_zero (hop : op.mnemonic = .rdfx) :
    m.computed op =
      ({ m.acc.sub (m.regs.read op.registerAddress) with raw := 0 } : Fixed).add
        (m.regs.read op.registerAddress) := by
  obtain ⟨hraw, hclamps⟩ := Operation.real_of_bits_eq_zero hcoefficient
  unfold computed
  rw [hop]
  dsimp only
  rw [Fixed.mul_of_raw_eq_zero _ hraw hclamps]

/-- What is left is the number of the register, brought into the range of the accumulator. -/
theorem raw_execute_rdfx_of_zero (hop : op.mnemonic = .rdfx) :
    (m.execute op).acc.raw =
      Fixed.bounded m.acc.saturating (m.regs.read op.registerAddress).raw.toInt := by
  have houtward : m.outward op = m := by rw [outward, hop]
  rw [acc_execute, houtward, computed_rdfx_of_zero hcoefficient hop]
  show Fixed.bounded m.acc.saturating ((0 : Int32).toInt + _) = _
  rw [Int32.toInt_zero, Int.zero_add]

/-- The number of a register without clamps that fits comes with the clamp of the difference. -/
theorem computed_rdfx_of_zero_of_fits (hop : op.mnemonic = .rdfx)
    (hregister : (m.regs.read op.registerAddress).clamps = 0)
    (hfits : InDatapath (m.regs.read op.registerAddress).raw.toInt) (hacc : m.acc.clamps = 0) :
    m.computed op =
      { m.acc with
        raw := (m.regs.read op.registerAddress).raw
        clamps := if InDatapath (m.acc.raw.toInt - (m.regs.read op.registerAddress).raw.toInt)
          then 0 else 1 } := by
  have hdifference : (m.acc.sub (m.regs.read op.registerAddress)).clamps =
      if InDatapath (m.acc.raw.toInt - (m.regs.read op.registerAddress).raw.toInt)
        then 0 else 1 := by
    show Fixed.addClamps (Fixed.addClamps m.acc.clamps _) _ = _
    rw [hacc, hregister, Fixed.addClamps_zero]
    split <;> rfl
  rw [computed_rdfx_of_zero hcoefficient hop, Fixed.add, hregister]
  dsimp only
  rw [Int32.toInt_zero, Int.zero_add, Fixed.store_of_inDatapath _ hfits, Int32.ofInt_toInt,
    hdifference]
  rfl

end zeroCoefficient

/-! ## Aliases -/

theorem execute_congr {op op' : Operation} (heffect : m.effect op' = m.effect op)
    (hip : m.nextIp op' = m.nextIp op) : m.execute op' = m.execute op := by
  unfold execute
  rw [heffect, hip]

theorem execute_spelledOut_clr (hop : op.mnemonic = .clr) :
    m.execute op.spelledOut = m.execute op := by
  obtain ⟨mnemonic, operands, word⟩ := op
  obtain rfl : mnemonic = .clr := hop
  exact execute_congr rfl rfl

theorem execute_spelledOut_not (hop : op.mnemonic = .not) (hmask : op.bits .mask = 0xffffff) :
    m.execute op.spelledOut = m.execute op := by
  obtain ⟨mnemonic, operands, word⟩ := op
  obtain rfl : mnemonic = .not := hop
  have heffect : m.effect (Operation.spelledOut ⟨.not, operands, word⟩) =
      m.updateAcc (·.xor (Operation.bits ⟨.not, operands, word⟩ .mask)) := rfl
  refine execute_congr ?_ rfl
  rw [heffect, hmask]
  exact congrArg m.updateAcc (funext Fixed.xor_allOnes)

theorem execute_spelledOut_nop (hop : op.mnemonic = .nop) (hflags : op.bits .flags = 0) :
    m.execute op.spelledOut = m.execute op := by
  have hip : m.nextIp op.spelledOut = m.nextIp op := by
    rw [nextIp_of_flags_eq_zero hflags]
    exact nextIp_of_flags_eq_zero hflags
  refine execute_congr ?_ hip
  obtain ⟨mnemonic, operands, word⟩ := op
  obtain rfl : mnemonic = .nop := hop
  rfl

theorem mnemonic_spelledOut {x : Mnemonic} (h : op.mnemonic = x) :
    op.spelledOut.mnemonic = x.canonical :=
  congrArg Mnemonic.canonical h

/-- MAXX counts clamps of the magnitude where ABSA leaves them to the accumulator. -/
theorem execute_spelledOut_absa (hop : op.mnemonic = .absa)
    (hcoefficient : op.bits .coefficient = 0)
    (hregister : (m.regs.read op.registerAddress).clamps = 0)
    (hmode : m.acc.saturating = m.saturating) : m.execute op.spelledOut = m.execute op := by
  have hspelled := mnemonic_spelledOut hop
  have hzero : op.spelledOut.bits .coefficient = 0 := hcoefficient
  obtain ⟨hcomputed, hclamps⟩ := computed_maxx_of_zero hzero hspelled hregister hmode
  have hself : m.computed op = m.acc.abs := by rw [computed, hop]
  have hcount : m.accClamps op = m.acc.abs.clamps.toUInt64 := by
    rw [accClamps, earlyClamps, hop, hself]
    exact UInt64.zero_add _
  rw [execute_of_computing (by rw [hspelled]; decide), execute_of_computing (by rw [hop]; decide),
    hcomputed, hclamps, hself, hcount]
  rfl

/-- LDAX counts nothing. -/
theorem execute_ldax (hop : op.mnemonic = .ldax)
    (hregister : (m.regs.read op.registerAddress).clamps = 0) :
    m.execute op =
      { m with
        ip := m.ip + 1
        acc := m.value (m.regs.read op.registerAddress)
        pacc := m.acc } := by
  have hcomputed : m.computed op = m.value (m.regs.read op.registerAddress) := by
    rw [computed, hop]
  have hcount : m.accClamps op = 0 := by
    rw [accClamps, earlyClamps, hop, hcomputed]
    show 0 + (m.regs.read op.registerAddress).clamps.toUInt64 = 0
    rw [hregister]
    rfl
  have hfree : (m.value (m.regs.read op.registerAddress)).withoutClamps =
      m.value (m.regs.read op.registerAddress) := by
    unfold Fixed.withoutClamps value Fixed.withSaturating
    rw [hregister]
  rw [execute_of_computing (by rw [hop]; decide), hcomputed, hcount, hfree, UInt64.add_zero]

/-- RDFX keeps the format of the accumulator, and it counts a difference that is too large, though
    it does not keep it. -/
theorem execute_rdfx_of_zero (hop : op.mnemonic = .rdfx) (hcoefficient : op.bits .coefficient = 0)
    (hregister : (m.regs.read op.registerAddress).clamps = 0)
    (hfits : InDatapath (m.regs.read op.registerAddress).raw.toInt) (hacc : m.acc.clamps = 0) :
    m.execute op =
      { m with
        ip := m.ip + 1
        acc := { m.acc with raw := (m.regs.read op.registerAddress).raw }
        pacc := m.acc
        diagnostics :=
          { m.diagnostics with
            accOverflows := m.diagnostics.accOverflows +
              if InDatapath (m.acc.raw.toInt - (m.regs.read op.registerAddress).raw.toInt)
                then 0 else 1 } } := by
  have hcomputed := computed_rdfx_of_zero_of_fits hcoefficient hop hregister hfits hacc
  -- The clamp of the difference stays in the accumulator until it is counted.
  have hcount : m.accClamps op =
      if InDatapath (m.acc.raw.toInt - (m.regs.read op.registerAddress).raw.toInt)
        then 0 else 1 := by
    rw [accClamps, earlyClamps, hop, hcomputed]
    exact (UInt64.zero_add _).trans (apply_ite UInt16.toUInt64 _ _ _)
  rw [execute_of_computing (by rw [hop]; decide), hcomputed, hcount, Fixed.withoutClamps, ← hacc]

theorem execute_spelledOut_ldax (hop : op.mnemonic = .ldax)
    (hcoefficient : op.bits .coefficient = 0)
    (hregister : (m.regs.read op.registerAddress).clamps = 0)
    (hfits : InDatapath (m.regs.read op.registerAddress).raw.toInt)
    (hmode : m.acc.saturating = m.saturating) (hacc : m.acc.clamps = 0) :
    m.execute op.spelledOut =
      { m.execute op with
        acc := (m.execute op).acc.withFormat m.acc.format
        diagnostics :=
          { m.diagnostics with
            accOverflows := m.diagnostics.accOverflows +
              if InDatapath (m.acc.raw.toInt - (m.regs.read op.registerAddress).raw.toInt)
                then 0 else 1 } } := by
  have hzero : op.spelledOut.bits .coefficient = 0 := hcoefficient
  have hsame : { m.acc with raw := (m.regs.read op.registerAddress).raw } =
      (m.value (m.regs.read op.registerAddress)).withFormat m.acc.format := by
    unfold value Fixed.withSaturating Fixed.withFormat
    rw [hregister, ← hmode, ← hacc]
  rw [execute_ldax hop hregister]
  dsimp only
  rw [← hsame]
  exact execute_rdfx_of_zero (mnemonic_spelledOut hop) hzero hregister hfits hacc

/-- Only aliases spell another instruction. -/
theorem mnemonic_of_alias (h : op.mnemonic.canonical ≠ op.mnemonic) :
    op.mnemonic = .clr ∨ op.mnemonic = .not ∨ op.mnemonic = .absa ∨ op.mnemonic = .nop ∨
      op.mnemonic = .ldax := by
  revert h
  cases op.mnemonic <;> decide

/-- Neither an alias nor what it spells can fail. -/
theorem fault?_of_alias (h : op.mnemonic.canonical ≠ op.mnemonic) :
    m.fault? op = none ∧ m.fault? op.spelledOut = none := by
  rcases mnemonic_of_alias h with hop | hop | hop | hop | hop
  all_goals
    unfold fault?
    rw [mnemonic_spelledOut hop, hop]
    exact ⟨rfl, rfl⟩

/-- A parameter is read without clamps. -/
theorem clamps_read_of_showsRate (h : m.regs.ShowsRate) : (m.regs.read 0).clamps = 0 := by
  obtain ⟨rate, hslot, -⟩ := h
  unfold RegisterFile.read
  rw [hslot]
  rfl

/-- An alias executes like the instruction that it spells, on every machine with an accumulator in
    its mode and without clamps to be counted and with a sine's rate in the lowest register. LDAX
    and RDFX alone are told apart: by the format of the accumulator, and by the clamp that RDFX
    counts if the difference of the accumulator and the register does not fit 24 bits. What RDFX
    with coefficient zero leaves in a saturating accumulator is the number of its register,
    clamped. -/
theorem aliases_execute_as_spelled_out (m : Machine) :
    (m.acc.saturating = m.saturating → m.acc.clamps = 0 → m.regs.ShowsRate →
      ∀ op : Operation, op.IsDecoded → op.mnemonic.canonical ≠ op.mnemonic →
        (m.fault? op = none ∧ m.fault? op.spelledOut = none) ∧
          (op.mnemonic ≠ .ldax → m.execute op.spelledOut = m.execute op) ∧
          (op.mnemonic = .ldax →
            (m.execute op).diagnostics = m.diagnostics ∧
              m.execute op.spelledOut =
                { m.execute op with
                  acc := (m.execute op).acc.withFormat m.acc.format
                  diagnostics :=
                    { m.diagnostics with
                      accOverflows := m.diagnostics.accOverflows +
                        if InDatapath (m.acc.raw.toInt - (m.regs.read 0).raw.toInt)
                          then 0 else 1 } })) ∧
      (m.acc.saturating = true → ∀ op : Operation, op.mnemonic = .rdfx →
        op.bits .coefficient = 0 →
          (m.execute op).acc.raw.toInt =
            clampInt datapathMin datapathMax (m.regs.read op.registerAddress).raw.toInt) := by
  constructor
  · intro hmode hacc hrate op hdecoded halias
    have hsuits := hdecoded.suits
    have hregister := clamps_read_of_showsRate hrate
    have haddress : op.bits .register = 0 → op.registerAddress = 0 := congrArg UInt32.toUInt8
    refine ⟨fault?_of_alias halias, fun hldax => ?_, fun hldax => ?_⟩
    · rcases mnemonic_of_alias halias with hop | hop | hop | hop | hop
      · exact execute_spelledOut_clr hop
      · rw [hop] at hsuits
        exact execute_spelledOut_not hop hsuits
      · rw [hop] at hsuits
        exact execute_spelledOut_absa hop hsuits.2 (by rwa [haddress hsuits.1]) hmode
      · rw [hop] at hsuits
        exact execute_spelledOut_nop hop hsuits.2
      · exact absurd hop hldax
    · rw [hldax] at hsuits
      have hzero := haddress hsuits.1
      rw [← hzero] at hregister
      have hfits : InDatapath (m.regs.read op.registerAddress).raw.toInt := by
        rw [hzero]
        exact hrate.inDatapath_read
      rw [← hzero]
      refine ⟨?_, execute_spelledOut_ldax hldax hsuits.2 hregister hfits hmode hacc⟩
      rw [execute_ldax hldax hregister]
  · intro hsaturating op hop hcoefficient
    rw [raw_execute_rdfx_of_zero hcoefficient hop, hsaturating, Fixed.bounded, if_pos rfl]
    exact toInt_ofInt_clampInt (by decide) (by decide) (by decide) _

/-- LDAX SIN0_RATE. -/
def loadSineRate : Operation :=
  { mnemonic := .ldax
    operands :=
      [⟨⟨.register, 6, .unsigned⟩, 0⟩, ⟨.unused 5, 0⟩, ⟨.coefficient 16 .coefficient16, 0⟩]
    word := 0x00000005 }

/-- A machine with the smallest number in its accumulator and the first rate in a register. -/
def lowest : Machine :=
  { powerOn 1 true with
    acc := .ofRaw (-8388608)
    regs := RegisterFile.initial.setConfig 0 1 }

/-- RDFX counts the difference from the smallest number, and loads what LDAX loads. -/
theorem aliases_execute_as_spelled_out_lowest :
    (lowest.acc.saturating = lowest.saturating ∧ lowest.acc.clamps = 0 ∧
        lowest.regs.ShowsRate ∧ loadSineRate.IsDecoded) ∧
      (lowest.execute loadSineRate).diagnostics.accOverflows = 0 ∧
      (lowest.execute loadSineRate.spelledOut).diagnostics.accOverflows = 1 ∧
      (lowest.execute loadSineRate.spelledOut).acc.raw.toInt = 16384 := by
  have hrate : lowest.regs.ShowsRate := ⟨1, by decide, by decide, by decide⟩
  have hdecoded : loadSineRate.IsDecoded := ⟨0x00000005, rfl⟩
  obtain ⟨haliases, hfilter⟩ := aliases_execute_as_spelled_out lowest
  obtain ⟨-, -, hldax⟩ := haliases rfl rfl hrate loadSineRate hdecoded (by decide)
  obtain ⟨hcounted, hexecuted⟩ := hldax rfl
  have hnumber := hfilter rfl loadSineRate.spelledOut rfl rfl
  refine ⟨⟨rfl, rfl, hrate, hdecoded⟩, ?_, ?_, hnumber.trans (by decide)⟩
  · rw [hcounted]
    rfl
  · rw [hexecuted]
    decide

end Machine
end EffectsDsp
