/-
  EffectsDsp.Bits

  Bit fields of 32-bit words: the mask of the lowest bits, and the two's
  complement reading of a field.
-/

namespace EffectsDsp

/-- The word whose lowest `width` bits are set; every bit from a width of 32 on. -/
def lowMask (width : Nat) : UInt32 :=
  UInt32.ofBitVec ((BitVec.allOnes (min width 32)).setWidth 32)

/-- The lowest `width` bits of `bits` read as a two's complement number. A field
    without bits is zero, and no field is wider than the word. -/
def signExtend (bits : UInt32) (width : Nat) : Int32 :=
  Int32.ofBitVec ((bits.toBitVec.setWidth (min width 32)).signExtend 32)

/-- `v` brought into the range from `lo` to `hi`. -/
def clampInt (lo hi v : Int) : Int :=
  max lo (min v hi)

theorem clampInt_eq_self {lo hi v : Int} (hlo : lo ≤ v) (hhi : v ≤ hi) :
    clampInt lo hi v = v := by
  unfold clampInt; omega

theorem le_clampInt (lo hi v : Int) : lo ≤ clampInt lo hi v := by
  unfold clampInt; omega

theorem clampInt_le {lo hi : Int} (h : lo ≤ hi) (v : Int) : clampInt lo hi v ≤ hi := by
  unfold clampInt; omega

end EffectsDsp
