/-
  EffectsDsp.Fixed.Text

  The written form of a fixed-point value: six decimal places of the exact value,
  then the declared format and the bit pattern in it.
-/

import EffectsDsp.Fixed.Basic
import EffectsDsp.Numeral

namespace EffectsDsp.Fixed

/-- The bit pattern has one hexadecimal digit for every four bits of the format. -/
def text (x : Fixed) : String :=
  let bits := Numeral.hex ((x.format.width + 3) / 4) (x.toQ x.format).1.toNat
  Numeral.decimal 6 x.raw.toInt 8388608 ++ " (" ++ x.format.text ++ " " ++ bits ++ ")"

end EffectsDsp.Fixed
