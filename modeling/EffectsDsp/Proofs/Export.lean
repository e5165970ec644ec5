/-
  EffectsDsp.Proofs.Export

  Bit patterns of a format and the numbers that they stand for. Import reads the lowest bits
  of a pattern as a two's complement number of the format's units, and moves it to the place
  that these units have in the container: `toInt_ofQ`. Export divides by the unit, rounding
  down, and keeps as many bits as the format has: `toNat_toQ`.

  So the two are inverse up to the fraction bits that the format does not have. A number that
  is too large for the format comes back too, but out by a multiple of its range.
-/

import Mathlib.Data.Int.ModEq
import EffectsDsp.Proofs.Arithmetic

namespace EffectsDsp

/-! ## Balanced remainders -/

/-- A remainder of one bit more lies as far below zero as above it. -/
theorem bmod_two_pow_bounds (v : Int) (k : Nat) :
    -2 ^ k ≤ v.bmod (2 ^ (k + 1)) ∧ v.bmod (2 ^ (k + 1)) < 2 ^ k := by
  have hpos : 0 < 2 ^ (k + 1) := Nat.two_pow_pos (k + 1)
  have hlo := Int.le_bmod (x := v) hpos
  have hhi := Int.bmod_lt (x := v) hpos
  have hhalf : ((2 ^ (k + 1) : Nat) : Int) = 2 * 2 ^ k := by
    rw [Nat.cast_pow, pow_succ, Int.mul_comm]
    rfl
  rw [hhalf] at hlo hhi
  omega

/-- What is left alone are the numbers of as many bits. -/
theorem bmod_two_pow_eq_self_iff {v : Int} {k : Nat} :
    v.bmod (2 ^ (k + 1)) = v ↔ -2 ^ k ≤ v ∧ v < 2 ^ k := by
  constructor
  · intro h
    rw [← h]
    exact bmod_two_pow_bounds v k
  · rintro ⟨hlo, hhi⟩
    apply Int.bmod_eq_of_le_mul_two
    · push_cast [pow_succ]
      omega
    · push_cast [pow_succ]
      omega

/-! ## Fields of a word -/

/-- The two's complement reading of a field is the balanced remainder of the word. -/
theorem toInt_signExtend (bits : UInt32) {width : Nat} (h : width ≤ 32) :
    (signExtend bits width).toInt = (bits.toNat : Int).bmod (2 ^ width) := by
  have hval : (signExtend bits width).toInt = (bits.toBitVec.setWidth (min width 32)).toInt :=
    BitVec.toInt_signExtend_of_le (Nat.min_le_right width 32)
  rw [hval, BitVec.toInt_eq_toNat_bmod, BitVec.toNat_setWidth, Nat.min_eq_left h]
  push_cast
  exact_mod_cast Int.emod_bmod (bits.toNat : Int) (2 ^ width)

theorem toNat_lowMask {width : Nat} (h : width ≤ 32) : (lowMask width).toNat = 2 ^ width - 1 := by
  have hlt : 2 ^ width - 1 < 2 ^ 32 := by
    have hle : 2 ^ width ≤ 2 ^ 32 := Nat.pow_le_pow_right (by decide) h
    have hpos : 0 < 2 ^ width := Nat.two_pow_pos width
    omega
  show ((BitVec.allOnes (min width 32)).setWidth 32).toNat = _
  rw [BitVec.toNat_setWidth, BitVec.toNat_allOnes, Nat.min_eq_left h, Nat.mod_eq_of_lt hlt]

namespace QFormat

/-- The numbers of units that a format has: half of its patterns stand for negative ones. -/
theorem width_eq (fmt : QFormat) : fmt.width = fmt.intBits + fmt.fracBits + 1 := by
  unfold width
  omega

theorem width_pred (fmt : QFormat) : fmt.width - 1 = fmt.intBits + fmt.fracBits := by
  rw [width_eq, Nat.add_sub_cancel]

end QFormat

namespace Fixed

variable {x : Fixed} {fmt : QFormat}

/-! ## Import -/

/-- A number of units fits the container at its place. -/
theorem units_fit (fmt : QFormat) {units : Int} (hlo : -2 ^ (fmt.intBits + fmt.fracBits) ≤ units)
    (hhi : units < 2 ^ (fmt.intBits + fmt.fracBits)) :
    -2147483648 ≤ units * 2 ^ fmt.shift ∧ units * 2 ^ fmt.shift < 2147483648 := by
  -- Units of a format have 23 fraction bits below the point, and at most 8 above it.
  have hplace : (2 : Int) ^ (fmt.intBits + fmt.fracBits) * 2 ^ fmt.shift ≤ 2147483648 := by
    have hsum : fmt.intBits + fmt.fracBits + fmt.shift ≤ 31 := by
      have hint := fmt.intBits_le
      have hfrac := fmt.fracBits_le
      unfold QFormat.shift
      omega
    rw [← pow_add]
    exact_mod_cast Nat.pow_le_pow_right (by decide) hsum
  have hunit : (0 : Int) < 2 ^ fmt.shift := Int.pow_pos (by decide)
  constructor
  · have hmul := Int.mul_le_mul_of_nonneg_right hlo hunit.le
    rw [Int.neg_mul] at hmul
    omega
  · have hmul := Int.mul_lt_mul_of_pos_right hhi hunit
    omega

/-- Import loses no bit of the field that it reads. -/
theorem toInt_ofQ (bits : UInt32) (fmt : QFormat) :
    (ofQ bits fmt).raw.toInt = (bits.toNat : Int).bmod (2 ^ fmt.width) * 2 ^ fmt.shift := by
  have hbounds := bmod_two_pow_bounds bits.toNat (fmt.intBits + fmt.fracBits)
  rw [← fmt.width_eq] at hbounds
  obtain ⟨hlo, hhi⟩ := units_fit fmt hbounds.1 hbounds.2
  show (Int32.ofInt ((signExtend bits fmt.width).toInt <<< fmt.shift)).toInt = _
  rw [toInt_signExtend bits fmt.width_le, Int.shiftLeft_eq]
  exact Int32.toInt_ofInt_of_le hlo hhi

/-! ## Export -/

/-- The number of whole units of a format in a value. -/
def unitsIn (x : Fixed) (fmt : QFormat) : Int :=
  x.raw.toInt / 2 ^ fmt.shift

theorem shiftRight_eq_unitsIn (x : Fixed) (fmt : QFormat) :
    x.raw.toInt >>> fmt.shift = x.unitsIn fmt := by
  rw [Int.shiftRight_eq_div_pow]
  push_cast
  rfl

/-- Export keeps as many bits of the number of units as the format has. -/
theorem toNat_toQ (x : Fixed) (fmt : QFormat) :
    ((x.toQ fmt).1.toNat : Int) = x.unitsIn fmt % 2 ^ fmt.width := by
  show ((UInt32.ofInt (x.raw.toInt >>> fmt.shift) &&& lowMask fmt.width).toNat : Int) = _
  rw [shiftRight_eq_unitsIn, UInt32.toNat_and, toNat_lowMask fmt.width_le,
    Nat.and_two_pow_sub_one_eq_mod]
  -- The container keeps at least as many bits.
  have hword : ((UInt32.ofInt (x.unitsIn fmt)).toNat : Int) = x.unitsIn fmt % 2 ^ 32 := by
    show ((UInt32.ofNat (x.unitsIn fmt % 2 ^ 32).toNat).toNat : Int) = _
    rw [UInt32.toNat_ofNat']
    omega
  push_cast
  rw [hword]
  exact Int.emod_emod_of_dvd _ (pow_dvd_pow 2 fmt.width_le)

/-- Export tells whether the number of units is one of the format. -/
theorem toQ_snd (x : Fixed) (fmt : QFormat) :
    (x.toQ fmt).2 = !decide (-2 ^ (fmt.intBits + fmt.fracBits) ≤ x.unitsIn fmt ∧
      x.unitsIn fmt < 2 ^ (fmt.intBits + fmt.fracBits)) := by
  show (!decide (-((1 : Int) <<< (fmt.width - 1)) ≤ x.raw.toInt >>> fmt.shift ∧
    x.raw.toInt >>> fmt.shift < (1 : Int) <<< (fmt.width - 1))) = _
  rw [shiftRight_eq_unitsIn, Int.shiftLeft_eq, Int.one_mul, fmt.width_pred]

theorem toQ_overflows_iff : (x.toQ fmt).2 = true ↔
    ¬ (-2 ^ (fmt.intBits + fmt.fracBits) ≤ x.unitsIn fmt ∧
      x.unitsIn fmt < 2 ^ (fmt.intBits + fmt.fracBits)) := by
  rw [toQ_snd, Bool.not_eq_true', decide_eq_false_iff_not]

/-- The units that the exported pattern stands for. -/
theorem toInt_ofQ_toQ (x : Fixed) (fmt : QFormat) :
    (ofQ (x.toQ fmt).1 fmt).raw.toInt =
      (x.unitsIn fmt).bmod (2 ^ fmt.width) * 2 ^ fmt.shift := by
  have hmod := Int.emod_bmod (x.unitsIn fmt) (2 ^ fmt.width)
  push_cast at hmod
  rw [toInt_ofQ, toNat_toQ, hmod]

/-! ## Both ways -/

/-- The number in a value without the fraction bits that a format does not have. -/
def truncated (x : Fixed) (fmt : QFormat) : Int :=
  x.raw.toInt - x.raw.toInt % 2 ^ fmt.shift

theorem unitsIn_mul (x : Fixed) (fmt : QFormat) :
    x.unitsIn fmt * 2 ^ fmt.shift = x.truncated fmt := by
  have hsum := Int.mul_ediv_add_emod x.raw.toInt (2 ^ fmt.shift)
  rw [Int.mul_comm] at hsum
  exact eq_sub_of_add_eq hsum

/-- A pattern that is imported stands for as many units. -/
theorem unitsIn_ofQ (bits : UInt32) (fmt : QFormat) :
    (ofQ bits fmt).unitsIn fmt = (bits.toNat : Int).bmod (2 ^ fmt.width) := by
  have hunit : (2 : Int) ^ fmt.shift ≠ 0 := (Int.pow_pos (by decide)).ne'
  rw [unitsIn, toInt_ofQ, Int.mul_ediv_cancel _ hunit]

/-- A pattern of a format is exported as it was imported, without the bits above it. -/
theorem toQ_ofQ (bits : UInt32) (fmt : QFormat) :
    ((ofQ bits fmt).toQ fmt).1.toNat = bits.toNat % 2 ^ fmt.width ∧
      ((ofQ bits fmt).toQ fmt).2 = false := by
  constructor
  · have hmod := Int.bmod_emod (x := bits.toNat) (m := 2 ^ fmt.width)
    have hbits := toNat_toQ (ofQ bits fmt) fmt
    rw [unitsIn_ofQ] at hbits
    push_cast at hmod
    rw [hmod] at hbits
    exact_mod_cast hbits
  · have hbounds := bmod_two_pow_bounds bits.toNat (fmt.intBits + fmt.fracBits)
    rw [← fmt.width_eq, ← unitsIn_ofQ] at hbounds
    rw [toQ_snd, decide_eq_true hbounds]
    rfl

/-- A number that the format can hold comes back but for its lowest bits. -/
theorem ofQ_toQ_of_fits (h : (x.toQ fmt).2 = false) :
    (ofQ (x.toQ fmt).1 fmt).raw.toInt = x.truncated fmt := by
  have hfits := of_not_not (mt toQ_overflows_iff.mpr (Bool.eq_false_iff.mp h))
  rw [toInt_ofQ_toQ, fmt.width_eq, bmod_two_pow_eq_self_iff.mpr hfits, unitsIn_mul]

/-- Any other number comes back as another one, that many ranges of the format away. -/
theorem ofQ_toQ_of_overflows (h : (x.toQ fmt).2 = true) :
    (ofQ (x.toQ fmt).1 fmt).raw.toInt ≠ x.truncated fmt ∧
      (ofQ (x.toQ fmt).1 fmt).raw.toInt ≡ x.truncated fmt [ZMOD 2 ^ (fmt.intBits + 24)] := by
  have hunit : (2 : Int) ^ fmt.shift ≠ 0 := (Int.pow_pos (by decide)).ne'
  rw [toInt_ofQ_toQ, ← unitsIn_mul]
  constructor
  · intro hsame
    have hunits := Int.eq_of_mul_eq_mul_right hunit hsame
    rw [fmt.width_eq] at hunits
    exact toQ_overflows_iff.mp h (bmod_two_pow_eq_self_iff.mp hunits)
  · have hrange : (2 : Int) ^ (fmt.intBits + 24) = 2 ^ fmt.width * 2 ^ fmt.shift := by
      rw [← pow_add, fmt.width_add_shift, Nat.add_comm]
    have hmod : (x.unitsIn fmt).bmod (2 ^ fmt.width) ≡ x.unitsIn fmt [ZMOD 2 ^ fmt.width] := by
      have hbmod := Int.bmod_emod (x := x.unitsIn fmt) (m := 2 ^ fmt.width)
      push_cast at hbmod
      exact hbmod
    rw [hrange]
    exact hmod.mul_right'

/-! ## Delay memory words -/

theorem toInt_toSample (x : Fixed) : x.toSample.1.toInt = x.raw.toInt.bmod (2 ^ 24) := by
  have hword : x.toSample.1.toInt = (ofQ (x.toQ .sample).1 .sample).raw.toInt := by
    rw [toInt_ofQ]
    exact (toInt_signExtend _ (by decide)).trans (Int.mul_one _).symm
  have hunits : x.unitsIn .sample = x.raw.toInt := Int.ediv_one _
  rw [hword, toInt_ofQ_toQ, hunits]
  exact Int.mul_one _

/-- What does not fit 24 bits are the numbers that 24 bits do not hold. -/
theorem toSample_overflows_iff :
    x.toSample.2 = true ↔ ¬ (-2 ^ 23 ≤ x.raw.toInt ∧ x.raw.toInt < 2 ^ 23) := by
  have hunits : x.unitsIn .sample = x.raw.toInt := Int.ediv_one _
  have hiff : (x.toQ .sample).2 = true ↔ _ := toQ_overflows_iff
  rw [hunits] at hiff
  exact hiff

/-- A delay memory word is the number itself exactly if this fits. -/
theorem toSample_fst_eq_iff :
    x.toSample.1 = x.raw ↔ -2 ^ 23 ≤ x.raw.toInt ∧ x.raw.toInt < 2 ^ 23 := by
  rw [← Int32.toInt_inj, toInt_toSample]
  exact bmod_two_pow_eq_self_iff

/-- Import and export are inverse up to truncation. A pattern of any format is imported as the
    number of units that its lowest bits stand for, no bit is lost at the place of the units,
    and export gives the pattern back without the bits above it. Export of any number
    overflows exactly if the number of whole units, rounded down, is none of the format. If it
    does not, import gives the number back without the bits below the unit, and if it does,
    another number with the same residue modulo the range of the format. Delay memory
    words are that for 24 bits. -/
theorem export_inverts_import :
    (∀ (fmt : QFormat) (bits : UInt32),
        (ofQ bits fmt).raw.toInt = (bits.toNat : Int).bmod (2 ^ fmt.width) * 2 ^ fmt.shift ∧
          ((ofQ bits fmt).toQ fmt).1.toNat = bits.toNat % 2 ^ fmt.width ∧
          ((ofQ bits fmt).toQ fmt).2 = false) ∧
      (∀ (fmt : QFormat) (x : Fixed),
        ((x.toQ fmt).2 = true ↔
            ¬ (-2 ^ (fmt.intBits + fmt.fracBits) ≤ x.raw.toInt / 2 ^ fmt.shift ∧
              x.raw.toInt / 2 ^ fmt.shift ≤ 2 ^ (fmt.intBits + fmt.fracBits) - 1)) ∧
          ((x.toQ fmt).2 = false → (ofQ (x.toQ fmt).1 fmt).raw.toInt = x.truncated fmt) ∧
          ((x.toQ fmt).2 = true →
            (ofQ (x.toQ fmt).1 fmt).raw.toInt ≠ x.truncated fmt ∧
              (ofQ (x.toQ fmt).1 fmt).raw.toInt ≡ x.truncated fmt
                [ZMOD 2 ^ (fmt.intBits + 24)])) ∧
      ∀ x : Fixed,
        (x.toSample.2 = true ↔ ¬ (-2 ^ 23 ≤ x.raw.toInt ∧ x.raw.toInt ≤ 2 ^ 23 - 1)) ∧
          (x.toSample = (x.raw, false) ↔ -2 ^ 23 ≤ x.raw.toInt ∧ x.raw.toInt ≤ 2 ^ 23 - 1) ∧
          (x.toSample.2 = true →
            x.toSample.1 ≠ x.raw ∧ x.toSample.1.toInt ≡ x.raw.toInt [ZMOD 2 ^ 24]) := by
  simp only [Int.le_sub_one_iff]
  refine ⟨fun fmt bits => ⟨toInt_ofQ bits fmt, toQ_ofQ bits fmt⟩,
    fun fmt x => ⟨toQ_overflows_iff, ofQ_toQ_of_fits, ofQ_toQ_of_overflows⟩,
    fun x => ⟨toSample_overflows_iff, ?_, fun h => ⟨?_, ?_⟩⟩⟩
  · rw [← toSample_fst_eq_iff, Prod.ext_iff]
    refine ⟨And.left, fun hword => ⟨hword, ?_⟩⟩
    -- A word that is the number itself has not lost any bit.
    exact Bool.eq_false_iff.mpr fun h => toSample_overflows_iff.mp h (toSample_fst_eq_iff.mp hword)
  · exact mt toSample_fst_eq_iff.mp (toSample_overflows_iff.mp h)
  · rw [toInt_toSample]
    exact Int.bmod_emod

end Fixed
end EffectsDsp
