/-
  EffectsDsp.QFormat

  Signed binary fixed-point formats. A format counts the bits before and after the
  binary point; the sign bit is not counted. Every format fits into the internal
  one, which has eight integer and 23 fraction bits.
-/

namespace EffectsDsp

/-- A signed fixed-point format that the internal format can represent. -/
structure QFormat where
  intBits : Nat
  fracBits : Nat
  intBits_le : intBits ≤ 8 := by decide
  fracBits_le : fracBits ≤ 23 := by decide
  deriving DecidableEq, Repr

namespace QFormat

/-- The internal format of every value. -/
def internal : QFormat := ⟨8, 23, by decide, by decide⟩

/-- Delay memory words and 24-bit register contents. -/
def sample : QFormat := ⟨0, 23, by decide, by decide⟩

/-- The 16-bit coefficients of the register instructions. -/
def coefficient16 : QFormat := ⟨1, 14, by decide, by decide⟩

/-- The 11-bit coefficients of the delay memory instructions. -/
def coefficient11 : QFormat := ⟨1, 9, by decide, by decide⟩

/-- The 11-bit offset of a plain scale-and-offset instruction. -/
def unitOffset : QFormat := ⟨0, 10, by decide, by decide⟩

/-- The 11-bit offset of the logarithm and exponential instructions. -/
def wideOffset : QFormat := ⟨4, 6, by decide, by decide⟩

/-- Ramp rates and the 16-bit offset of an oscillator-driven scale. -/
def fraction16 : QFormat := ⟨0, 15, by decide, by decide⟩

instance : Inhabited QFormat := ⟨internal⟩

/-- The format with the given bit counts, if the internal one can represent it. -/
def ofBits? (intBits fracBits : Nat) : Option QFormat :=
  if h : intBits ≤ 8 ∧ fracBits ≤ 23 then some ⟨intBits, fracBits, h.1, h.2⟩ else none

/-- The number of bits of a value in this format, the sign bit included. -/
def width (fmt : QFormat) : Nat :=
  1 + fmt.intBits + fmt.fracBits

/-- How far a value in this format is moved left to stand in the internal one. -/
def shift (fmt : QFormat) : Nat :=
  23 - fmt.fracBits

/-- The written form: `S8.23`, or `S.23` for a format without integer bits. -/
def text (fmt : QFormat) : String :=
  if fmt.intBits = 0 then "S." ++ toString fmt.fracBits
  else "S" ++ toString fmt.intBits ++ "." ++ toString fmt.fracBits

theorem width_add_shift (fmt : QFormat) : fmt.width + fmt.shift = 24 + fmt.intBits := by
  have := fmt.fracBits_le
  simp only [width, shift]; omega

theorem width_le (fmt : QFormat) : fmt.width ≤ 32 := by
  have := fmt.intBits_le
  have := fmt.fracBits_le
  simp only [width]; omega

theorem ofBits?_self (fmt : QFormat) : ofBits? fmt.intBits fmt.fracBits = some fmt := by
  simp [ofBits?, fmt.intBits_le, fmt.fracBits_le]

end QFormat
end EffectsDsp
