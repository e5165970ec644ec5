/-
  EffectsDsp.Numeral

  Written numbers: hexadecimal words with a fixed number of digits, and exact
  quotients in decimal with a fixed number of places.
-/

namespace EffectsDsp.Numeral

/-- `text` behind as many zeros as it needs to be `width` characters long. -/
def padZeros (width : Nat) (text : String) : String :=
  "".pushn '0' (width - text.length) ++ text

/-- `n` in lower-case hexadecimal behind `0x`, with at least `digits` digits. -/
def hex (digits n : Nat) : String :=
  "0x" ++ padZeros digits (String.ofList (Nat.toDigits 16 n))

/-- The integer nearest to `num / den`; of two equally near ones the even one. -/
def roundHalfEven (num den : Nat) : Nat :=
  let whole := num / den
  let rest := num % den
  if 2 * rest < den then whole
  else if den < 2 * rest then whole + 1
  else whole + whole % 2

/-- The quotient `num / den` with `places` decimal places. A negative number keeps
    its sign even where every digit written is zero. -/
def decimal (places : Nat) (num : Int) (den : Nat) : String :=
  let scale := Nat.pow 10 places
  let units := roundHalfEven (num.natAbs * scale) den
  let sign := if num < 0 then "-" else ""
  sign ++ toString (units / scale) ++ "." ++ padZeros places (toString (units % scale))

end EffectsDsp.Numeral
