/-
  EffectsDsp.Proofs.Arithmetic

  What the arithmetic of fixed-point values keeps, and where it stays. Every operation
  keeps the format and the saturation mode of the value it is applied to, its clamps are
  those it was given and those it makes, and a saturating result lies in the datapath.

  `Coincide` compares the same computation in two saturation modes: as long as nothing
  was clamped the numbers are equal, and a clamp on one side is a clamp on the other.
-/

import EffectsDsp.Fixed.Basic

namespace EffectsDsp

/-! ## Numbers of the datapath -/

theorem inDatapath_iff {v : Int} : InDatapath v ↔ -8388608 ≤ v ∧ v ≤ 8388607 :=
  Iff.rfl

/-- The container holds every number between the bounds of the datapath. -/
theorem toInt_ofInt_of_inDatapath {v : Int} (h : InDatapath v) : (Int32.ofInt v).toInt = v := by
  obtain ⟨hlo, hhi⟩ := inDatapath_iff.mp h
  exact Int32.toInt_ofInt_of_le (by omega) (by omega)

theorem inDatapath_zero : InDatapath 0 := by decide

theorem inDatapath_clampInt (v : Int) : InDatapath (clampInt datapathMin datapathMax v) :=
  ⟨le_clampInt .., clampInt_le (by decide) v⟩

/-- The two's complement reading of a field lies within the range of its width. -/
theorem bounds_signExtend (bits : UInt32) {width : Nat} (h : width ≤ 32) :
    -((1 : Int) <<< (width - 1)) ≤ (signExtend bits width).toInt ∧
      (signExtend bits width).toInt < (1 : Int) <<< (width - 1) := by
  have hwidth : min width 32 = width := Nat.min_eq_left h
  -- A signed number of no more bits keeps its value in the container.
  have hval : (signExtend bits width).toInt = (bits.toBitVec.setWidth (min width 32)).toInt :=
    BitVec.toInt_signExtend_of_le (Nat.min_le_right width 32)
  have hlo := BitVec.le_toInt (bits.toBitVec.setWidth (min width 32))
  have hhi := BitVec.toInt_lt (x := bits.toBitVec.setWidth (min width 32))
  rw [hwidth] at hval hlo hhi
  rw [hval, Int.shiftLeft_eq, Int.one_mul]
  exact ⟨hlo, hhi⟩

theorem inDatapath_signExtend (bits : UInt32) : InDatapath (signExtend bits 24).toInt := by
  obtain ⟨hlo, hhi⟩ := bounds_signExtend bits (show 24 ≤ 32 by decide)
  exact ⟨hlo, Int.le_of_lt_add_one hhi⟩

/-- A word read as a signed number. -/
theorem toInt_eq_toNat_cond (v : Int32) :
    v.toInt = if 2 * v.toBitVec.toNat < 4294967296 then (v.toBitVec.toNat : Int)
      else (v.toBitVec.toNat : Int) - 4294967296 :=
  BitVec.toInt_eq_toNat_cond v.toBitVec

/-- A word without its highest bit is the same number with a sign. -/
theorem toInt_toInt32 {v : UInt32} (h : v.toNat < 2147483648) : v.toInt32.toInt = v.toNat := by
  have hbits : v.toInt32.toBitVec.toNat = v.toNat := rfl
  rw [toInt_eq_toNat_cond, hbits, if_pos (by omega)]

/-- A shift to the left is a multiplication that goes around. The distance counts modulo 32. -/
theorem toInt_shiftLeft {v k : Int32} {n : Nat} (hk : (k.toBitVec.smod 32).toNat = n) :
    (v <<< k).toInt = (v.toInt * (1 <<< n : Nat)).bmod 4294967296 := by
  have hshift : (v <<< k).toBitVec = v.toBitVec <<< n := by
    rw [Int32.toBitVec_shiftLeft, BitVec.shiftLeft_eq', hk]
  have hunits : ((v.toBitVec.toNat * 1 <<< n : Nat) : Int) =
      (v.toBitVec.toNat : Int) * (1 <<< n : Nat) := Int.natCast_mul _ _
  show (v <<< k).toBitVec.toInt = _
  rw [hshift, BitVec.toInt_shiftLeft, Nat.shiftLeft_eq, ← Nat.one_shiftLeft, hunits,
    ← Int.bmod_mul_bmod, ← BitVec.toInt_eq_toNat_bmod]
  rfl

/-- It is exact if it loses no bit. -/
theorem toInt_shiftLeft_of_fits {v k : Int32} {n : Nat} (hk : (k.toBitVec.smod 32).toNat = n)
    (hlo : -2147483648 ≤ v.toInt * (1 <<< n : Nat))
    (hhi : v.toInt * (1 <<< n : Nat) ≤ 2147483647) :
    (v <<< k).toInt = v.toInt * (1 <<< n : Nat) := by
  rw [toInt_shiftLeft hk]
  exact Int.bmod_eq_of_le hlo (Int.lt_add_one_of_le hhi)

/-- A sum that fits the container is exact. -/
theorem toInt_add_of_fits {a b : Int32} (hlo : -2147483648 ≤ a.toInt + b.toInt)
    (hhi : a.toInt + b.toInt ≤ 2147483647) : (a + b).toInt = a.toInt + b.toInt := by
  rw [Int32.toInt_add]
  exact Int.bmod_eq_of_le (by omega) (by omega)

theorem toInt_sub_of_fits {a b : Int32} (hlo : -2147483648 ≤ a.toInt - b.toInt)
    (hhi : a.toInt - b.toInt ≤ 2147483647) : (a - b).toInt = a.toInt - b.toInt := by
  rw [Int32.toInt_sub]
  exact Int.bmod_eq_of_le (by omega) (by omega)

/-- A counter that does not go around has grown by what was added. -/
theorem toNat_add_ofNat {counter : UInt64} {n : Nat} (h : counter.toNat + n < UInt64.size) :
    (counter + UInt64.ofNat n).toNat = counter.toNat + n := by
  have hn : (UInt64.ofNat n).toNat = n := UInt64.toNat_ofNat_of_lt' (by omega)
  rw [UInt64.toNat_add, hn]
  exact Nat.mod_eq_of_lt h

/-- Two bits less are a quarter, rounded down. -/
theorem toInt_shiftRight_2 (v : Int32) : (v >>> (2 : Int32)).toInt = v.toInt / 4 := by
  have hshift : (v >>> (2 : Int32)).toBitVec = v.toBitVec.sshiftRight 2 := by
    rw [Int32.toBitVec_shiftRight]
    rfl
  show (v >>> (2 : Int32)).toBitVec.toInt = _
  rw [hshift, BitVec.toInt_sshiftRight, Int.shiftRight_eq_div_pow]
  rfl

/-- A number that is clamped to bounds of the container keeps its value in it. -/
theorem toInt_ofInt_clampInt {lo hi : Int} (hlo : -2147483648 ≤ lo) (hle : lo ≤ hi)
    (hhi : hi ≤ 2147483647) (v : Int) :
    (Int32.ofInt (clampInt lo hi v)).toInt = clampInt lo hi v := by
  have hlower := le_clampInt lo hi v
  have hupper := clampInt_le hle v
  exact Int32.toInt_ofInt_of_le (by omega) (by omega)

/-- A parameter that is clamped lies within its bounds. -/
theorem bounds_ofInt_clampInt {lo hi : Int} (hlo : -2147483648 ≤ lo) (hle : lo ≤ hi)
    (hhi : hi ≤ 2147483647) (v : Int) :
    lo ≤ (Int32.ofInt (clampInt lo hi v)).toInt ∧
      (Int32.ofInt (clampInt lo hi v)).toInt ≤ hi := by
  rw [toInt_ofInt_clampInt hlo hle hhi]
  exact ⟨le_clampInt .., clampInt_le hle v⟩

namespace Fixed

/-! ## Clamp counts -/

/-- A sum of counts does not wrap. -/
theorem toNat_addClamps (a b : UInt16) :
    (addClamps a b).toNat = min (a.toNat + b.toNat) 65535 := by
  unfold addClamps
  rw [UInt16.toNat_ofNat']
  exact Nat.mod_eq_of_lt (by omega)

theorem addClamps_eq_zero {a b : UInt16} : addClamps a b = 0 ↔ a = 0 ∧ b = 0 := by
  rw [← UInt16.toNat_inj, ← UInt16.toNat_inj, ← UInt16.toNat_inj, toNat_addClamps]
  simp only [UInt16.toNat_zero]
  omega

/-- A result is free of clamps if it was computed from values without clamps and is a
    number of the datapath. -/
theorem clamps_store_eq_zero {x : Fixed} {exact : Int} {inherited : UInt16} :
    (x.store exact inherited).clamps = 0 ↔ x.clamps = 0 ∧ inherited = 0 ∧ InDatapath exact := by
  have hlast : (if InDatapath exact then (0 : UInt16) else 1) = 0 ↔ InDatapath exact := by
    by_cases h : InDatapath exact <;> simp [h]
  show addClamps (addClamps x.clamps inherited) _ = 0 ↔ _
  rw [addClamps_eq_zero, addClamps_eq_zero, hlast, and_assoc]

/-! ## What an operation keeps -/

@[simp] theorem saturating_withoutClamps (x : Fixed) :
    x.withoutClamps.saturating = x.saturating := rfl

@[simp] theorem clamps_withoutClamps (x : Fixed) : x.withoutClamps.clamps = 0 := rfl

/-! ## Where a result lies -/

/-- A result within the datapath is exact in both modes. -/
theorem bounded_of_inDatapath (mode : Bool) {exact : Int} (h : InDatapath exact) :
    bounded mode exact = Int32.ofInt exact := by
  cases mode with
  | true => simp only [bounded, if_true, clampInt_eq_self h.1 h.2]
  | false =>
    -- The bounds of the container are further away.
    obtain ⟨hlo, hhi⟩ := inDatapath_iff.mp h
    have hlo' : -2147483648 ≤ exact := by omega
    have hhi' : exact ≤ 2147483647 := by omega
    simp only [bounded, Bool.false_eq_true, if_false, clampInt_eq_self hlo' hhi']

/-- A saturating result lies in the datapath, whatever was computed. -/
theorem inDatapath_store {x : Fixed} (h : x.saturating = true) (exact : Int)
    (inherited : UInt16) : InDatapath (x.store exact inherited).raw.toInt := by
  have hclamped := inDatapath_clampInt exact
  show InDatapath (bounded x.saturating exact).toInt
  rw [h, bounded, if_pos rfl, toInt_ofInt_of_inDatapath hclamped]
  exact hclamped

theorem inDatapath_add {x : Fixed} (h : x.saturating = true) (y : Fixed) :
    InDatapath (x.add y).raw.toInt :=
  inDatapath_store h _ _

theorem inDatapath_mul {x : Fixed} (h : x.saturating = true) (y : Fixed) :
    InDatapath (x.mul y).raw.toInt :=
  inDatapath_store h _ _

theorem inDatapath_abs {x : Fixed} (h : x.saturating = true) : InDatapath x.abs.raw.toInt :=
  inDatapath_store h _ _

theorem inDatapath_mapBits (x : Fixed) (f : UInt32 → UInt32) :
    InDatapath (x.mapBits f).raw.toInt :=
  inDatapath_signExtend _

/-- The larger of two numbers of the datapath is one. -/
theorem inDatapath_larger {x y : Fixed} (hx : InDatapath x.raw.toInt)
    (hy : InDatapath y.raw.toInt) : InDatapath (x.larger y).raw.toInt := by
  unfold larger
  split
  · exact hy
  · exact hx

/-! ## Delay memory words -/

/-- A word has the bits of the number that it is read as. -/
theorem ofInt_toInt_eq_toUInt32 (v : Int32) : UInt32.ofInt v.toInt = v.toUInt32 := by
  have hlt := v.toBitVec.isLt
  have hmod : (v.toInt % 4294967296).toNat = v.toBitVec.toNat := by
    rw [toInt_eq_toNat_cond]
    split <;> omega
  show UInt32.ofNat (v.toInt % 4294967296).toNat = _
  rw [hmod]
  exact UInt32.ofNat_toNat (x := v.toUInt32)

/-- A delay memory word is the two's complement reading of the low 24 bits. -/
theorem toSample_fst (x : Fixed) : x.toSample.1 = signExtend x.raw.toUInt32 24 := by
  have hunits : UInt32.ofInt (x.raw.toInt >>> QFormat.sample.shift) = x.raw.toUInt32 := by
    show UInt32.ofInt (x.raw.toInt >>> (0 : Nat)) = _
    rw [Int.shiftRight_zero, ofInt_toInt_eq_toUInt32]
  show signExtend (UInt32.ofInt (x.raw.toInt >>> QFormat.sample.shift) &&&
    lowMask QFormat.sample.width) 24 = _
  rw [hunits]
  -- The mask keeps the bits that the two's complement reading looks at.
  unfold signExtend
  congr 2
  apply BitVec.eq_of_getLsbD_eq
  intro i hi
  have hmask : (lowMask QFormat.sample.width).toBitVec.getLsbD i = true := by
    have hwidth : i < min QFormat.sample.width 32 := hi
    show ((BitVec.allOnes (min QFormat.sample.width 32)).setWidth 32).getLsbD i = true
    rw [BitVec.getLsbD_setWidth, BitVec.getLsbD_allOnes, decide_eq_true hwidth,
      decide_eq_true (show i < 32 by omega)]
    rfl
  simp only [BitVec.getLsbD_setWidth, UInt32.toBitVec_and, BitVec.getLsbD_and, hmask,
    Bool.and_true]

theorem inDatapath_toSample (x : Fixed) : InDatapath x.toSample.1.toInt := by
  rw [toSample_fst]
  exact inDatapath_signExtend _

/-- What fits a delay memory word are the numbers of the datapath. -/
theorem toSample_snd (x : Fixed) : x.toSample.2 = !decide (InDatapath x.raw.toInt) := by
  have hhalf : ((1 : Int) <<< (QFormat.sample.width - 1)) = 8388608 := by decide
  have hunits : x.raw.toInt >>> QFormat.sample.shift = x.raw.toInt := Int.shiftRight_zero _
  show (!decide (-((1 : Int) <<< (QFormat.sample.width - 1)) ≤
    x.raw.toInt >>> QFormat.sample.shift ∧ _ < (1 : Int) <<< (QFormat.sample.width - 1))) = _
  rw [hhalf, hunits]
  refine congrArg (!·) (decide_eq_decide.mpr ?_)
  rw [inDatapath_iff]
  omega

/-! ## One computation in two modes -/

/-- Two values of one format that are the same number without clamps, unless both carry
    a clamp. Their modes may differ. -/
def Coincide (x y : Fixed) : Prop :=
  x.format = y.format ∧
    ((x.clamps = 0 ∧ y.clamps = 0 ∧ x.raw = y.raw) ∨ (x.clamps ≠ 0 ∧ y.clamps ≠ 0))

namespace Coincide

variable {x y a b : Fixed}

theorem clamps_eq_zero_iff (h : Coincide x y) : x.clamps = 0 ↔ y.clamps = 0 := by
  obtain ⟨-, ⟨hx, hy, -⟩ | ⟨hx, hy⟩⟩ := h
  · exact ⟨fun _ => hy, fun _ => hx⟩
  · exact ⟨fun h => absurd h hx, fun h => absurd h hy⟩

theorem raw_eq (h : Coincide x y) (hx : x.clamps = 0) : x.raw = y.raw := by
  obtain ⟨-, ⟨-, -, hraw⟩ | ⟨hne, -⟩⟩ := h
  · exact hraw
  · exact absurd hx hne

/-- An operation keeps the coincidence if its exact result is a function of the numbers
    it is given and it inherits the clamps of its operand. -/
theorem store (h : Coincide x y) {e e' : Int} {i i' : UInt16} (hi : i = 0 ↔ i' = 0)
    (he : x.clamps = 0 → i = 0 → e = e') : Coincide (x.store e i) (y.store e' i') := by
  refine ⟨h.1, ?_⟩
  by_cases hclean : (x.store e i).clamps = 0
  · -- Both sides compute the same exact result, which neither mode has to bound.
    obtain ⟨hx, hi0, hin⟩ := clamps_store_eq_zero.mp hclean
    have hee := he hx hi0
    have hin' : InDatapath e' := hee ▸ hin
    refine Or.inl ⟨hclean, ?_, ?_⟩
    · exact clamps_store_eq_zero.mpr ⟨h.clamps_eq_zero_iff.mp hx, hi.mp hi0, hin'⟩
    · show bounded x.saturating e = bounded y.saturating e'
      rw [bounded_of_inDatapath _ hin, bounded_of_inDatapath _ hin', hee]
  · -- Had only one side clamped, the other would have computed the same from the same.
    refine Or.inr ⟨hclean, fun hclean' => hclean ?_⟩
    obtain ⟨hy, hi0', hin'⟩ := clamps_store_eq_zero.mp hclean'
    have hx := h.clamps_eq_zero_iff.mpr hy
    have hi0 := hi.mpr hi0'
    exact clamps_store_eq_zero.mpr ⟨hx, hi0, he hx hi0 ▸ hin'⟩

theorem add (h : Coincide x y) (hab : Coincide a b) : Coincide (x.add a) (y.add b) :=
  h.store hab.clamps_eq_zero_iff fun hx ha => by rw [h.raw_eq hx, hab.raw_eq ha]

theorem sub (h : Coincide x y) (hab : Coincide a b) : Coincide (x.sub a) (y.sub b) :=
  h.store hab.clamps_eq_zero_iff fun hx ha => by rw [h.raw_eq hx, hab.raw_eq ha]

theorem mul (h : Coincide x y) (hab : Coincide a b) : Coincide (x.mul a) (y.mul b) :=
  h.store hab.clamps_eq_zero_iff fun hx ha => by rw [h.raw_eq hx, hab.raw_eq ha]

theorem abs (h : Coincide x y) : Coincide x.abs y.abs :=
  h.store Iff.rfl fun hx _ => by rw [h.raw_eq hx]

theorem mapBits (h : Coincide x y) (f : UInt32 → UInt32) :
    Coincide (x.mapBits f) (y.mapBits f) := by
  obtain ⟨hfmt, ⟨hx, hy, hraw⟩ | hne⟩ := h
  · exact ⟨hfmt, .inl ⟨hx, hy, by simp only [Fixed.mapBits, hraw]⟩⟩
  · exact ⟨hfmt, .inr hne⟩

theorem withSaturating (h : Coincide x y) (mode mode' : Bool) :
    Coincide (x.withSaturating mode) (y.withSaturating mode') := h

/-- The count may be taken where there is nothing to count. -/
theorem withoutClamps (h : Coincide x y) (hx : x.clamps = 0) :
    Coincide x.withoutClamps y.withoutClamps :=
  ⟨h.1, .inl ⟨rfl, rfl, h.raw_eq hx⟩⟩

theorem larger (h : Coincide x y) (hab : Coincide a b) (hx : x.clamps = 0)
    (ha : a.clamps = 0) : Coincide (x.larger a) (y.larger b) := by
  unfold Fixed.larger
  rw [h.raw_eq hx, hab.raw_eq ha]
  split
  · exact hab
  · exact h

end Coincide
end Fixed
end EffectsDsp
