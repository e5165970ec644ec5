/-
  EffectsDsp.Fixed.Layout

  How formats and fixed-point values are stored.
-/

import EffectsDsp.Fixed.Basic
import EffectsDsp.Layout.Basic

namespace EffectsDsp

/-- A format is kept as its two bit counts; counts that no format has read as the
    internal format. -/
def QFormat.coding : Coding (UInt8 × UInt8) QFormat where
  encode fmt := (UInt8.ofNat fmt.intBits, UInt8.ofNat fmt.fracBits)
  decode counts := (ofBits? counts.1.toNat counts.2.toNat).getD internal
  decode_encode fmt := by
    have := fmt.intBits_le
    have := fmt.fracBits_le
    have hi : (UInt8.ofNat fmt.intBits).toNat = fmt.intBits := by simp; omega
    have hf : (UInt8.ofNat fmt.fracBits).toNat = fmt.fracBits := by simp; omega
    simp only [hi, hf, ofBits?_self, Option.getD_some]

def QFormat.layout : Layout QFormat :=
  .view (.whole (.pair (.scalar .u8) (.scalar .u8)) (0, 0)) coding

namespace Fixed

/-- A value is kept as its four fields. -/
def coding : Coding (Int32 × QFormat × Bool × UInt16) Fixed where
  encode x := (x.raw, x.format, x.saturating, x.clamps)
  decode := fun (raw, format, saturating, clamps) => { raw, format, saturating, clamps }
  decode_encode _ := rfl

def layout : Layout Fixed :=
  .view (.pair (.scalar .i32) (.pair QFormat.layout (.pair (.scalar .bool) (.scalar .u16))))
    coding

end Fixed
end EffectsDsp
