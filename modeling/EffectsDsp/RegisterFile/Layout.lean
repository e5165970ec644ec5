/-
  EffectsDsp.RegisterFile.Layout

  How registers are stored: a tag for the kind of each slot, and its content.
-/

import EffectsDsp.Fixed.Layout
import EffectsDsp.RegisterFile.Basic

namespace EffectsDsp

/-- A slot is a parameter or a value. -/
def Register.coding : Coding (Int32 ⊕ Fixed) Register where
  encode
    | .config v => .inl v
    | .audio v => .inr v
  decode
    | .inl v => .config v
    | .inr v => .audio v
  decode_encode r := by cases r <;> rfl

def Register.layout : Layout Register :=
  .view (.either (.scalar .i32) 0 Fixed.layout .zero) coding

def RegisterFile.coding : Coding (Vector Register 64) RegisterFile where
  encode := slots
  decode := RegisterFile.mk
  decode_encode _ := rfl

def RegisterFile.layout : Layout RegisterFile :=
  .view (.array 64 Register.layout) coding

end EffectsDsp
