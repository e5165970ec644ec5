/-
  EffectsDsp.Toml.Literal

  Written numbers and dates. Digits may be grouped by single underscores, and a
  decimal number has no leading zeros. A floating-point number must be finite in
  binary64, an integer must fit 64 bits.
-/

namespace EffectsDsp.Toml.Literal

/-! ## Digits -/

/-- The value of a digit in the given base. -/
def digit? (base : Nat) (c : Char) : Option Nat :=
  let value :=
    if c.isDigit then c.toNat - '0'.toNat
    else if 'a' ≤ c && c ≤ 'z' then c.toNat - 'a'.toNat + 10
    else if 'A' ≤ c && c ≤ 'Z' then c.toNat - 'A'.toNat + 10
    else base
  if value < base then some value else none

/-- Digits at the front of a text, read so far. -/
structure Digits where
  value : Nat
  /-- The number of digits. -/
  count : Nat
  /-- The first digit is a zero. -/
  leadingZero : Bool
  /-- An underscore stands at the end. -/
  openGroup : Bool

/-- Extends digits by those at the front of a text. None if a zero leads where none may,
    or if an underscore does not stand between digits. -/
def Digits.extend? (base : Nat) (leadingZeros : Bool) (d : Digits) :
    List Char → Option (Digits × List Char)
  | [] => if d.count = 0 ∨ d.openGroup then none else some (d, [])
  | c :: cs =>
    match digit? base c with
    | some v =>
      if d.leadingZero ∧ ¬ leadingZeros then none
      else
        extend? base leadingZeros
          { value := d.value * base + v
            count := d.count + 1
            leadingZero := if d.count = 0 then v == 0 else d.leadingZero
            openGroup := false }
          cs
    | none =>
      if c = '_' ∧ d.count ≠ 0 ∧ ¬ d.openGroup then
        extend? base leadingZeros { d with openGroup := true } cs
      else if d.count = 0 ∨ d.openGroup then none
      else some (d, c :: cs)

/-- The digits at the front of a text. -/
def digits? (base : Nat) (leadingZeros : Bool) (cs : List Char) :
    Option (Digits × List Char) :=
  Digits.extend? base leadingZeros ⟨0, 0, false, false⟩ cs

/-- A sign at the front of a text, and the rest. -/
def sign : List Char → Bool × List Char
  | '-' :: cs => (true, cs)
  | '+' :: cs => (false, cs)
  | cs => (false, cs)

/-! ## Numbers -/

/-- The integer that the whole text writes in the given base. Only decimal numbers have
    a sign and no leading zeros. -/
def integer? (base : Nat) (cs : List Char) : Option Int := do
  let (negative, cs) := if base = 10 then sign cs else (false, cs)
  let (d, rest) ← digits? base (base ≠ 10) cs
  let value : Int := if negative then -d.value else d.value
  if rest.isEmpty ∧ Int64.minValue.toInt ≤ value ∧ value ≤ Int64.maxValue.toInt then
    some value
  else none

/-- The number `value * 10 ^ exponent` is too large for binary64: it lies at least half
    a unit beyond the largest finite number. -/
def overflows (value : Nat) (exponent : Int) : Bool :=
  let magnitude := (Nat.toDigits 10 value).length + exponent
  if value = 0 ∨ magnitude < 309 then false
  else if 309 < magnitude then true
  else
    ((1 <<< 1024) - (1 <<< 970)) * Nat.pow 10 (-exponent).toNat ≤
      value * Nat.pow 10 exponent.toNat

/-- The parts of a floating-point number before its exponent is read. -/
structure Mantissa where
  value : Nat
  /-- The number of digits behind the point. -/
  places : Nat
  /-- What follows the digits. -/
  rest : List Char

/-- The digits of a floating-point number, of which `fraction` is what follows the
    point, if there is one. -/
def mantissa? (whole : List Char) (fraction : Option (List Char)) : Option Mantissa := do
  let (_, cs) := sign whole
  let (d, rest) ← digits? 10 false cs
  match fraction with
  | none => some ⟨d.value, 0, rest⟩
  | some fraction =>
    if rest.isEmpty then
      let (f, rest) ← digits? 10 true fraction
      some ⟨d.value * Nat.pow 10 f.count + f.value, f.count, rest⟩
    else none

/-- The exponent that the whole text writes. -/
def exponent? (signed : Bool) (cs : List Char) : Option Int := do
  let (negative, cs) := if signed then sign cs else (false, cs)
  let (d, rest) ← digits? 10 true cs
  if rest.isEmpty then some (if negative then -d.value else d.value) else none

/-- The number with the given exponent is finite. -/
def Mantissa.isFinite (m : Mantissa) (exponent : Int) : Bool :=
  !overflows m.value (exponent - m.places)

/-! ## Dates -/

/-- The number that two digits at the front of a text write. -/
def twoDigits? : List Char → Option (Nat × List Char)
  | a :: b :: cs => do
    let a ← digit? 10 a
    let b ← digit? 10 b
    some (10 * a + b, cs)
  | _ => none

/-- The text behind the character `c`. -/
def expect? (c : Char) : List Char → Option (List Char)
  | d :: cs => if d = c then some cs else none
  | [] => none

/-- The text behind a year, a month and a day. -/
def date? (cs : List Char) : Option (List Char) := do
  let (_, cs) ← twoDigits? cs
  let (_, cs) ← twoDigits? cs
  let (month, cs) ← twoDigits? (← expect? '-' cs)
  let (day, cs) ← twoDigits? (← expect? '-' cs)
  if 1 ≤ month ∧ month ≤ 12 ∧ 1 ≤ day ∧ day ≤ 31 then some cs else none

/-- The text behind an hour, a minute and a second, which may have a fraction. -/
def time? (cs : List Char) : Option (List Char) := do
  let (hour, cs) ← twoDigits? cs
  let (minute, cs) ← twoDigits? (← expect? ':' cs)
  let (second, cs) ← twoDigits? (← expect? ':' cs)
  let cs ←
    match cs with
    | '.' :: fraction =>
      let rest := fraction.dropWhile Char.isDigit
      if rest.length < fraction.length then some rest else none
    | cs => some cs
  if hour ≤ 24 ∧ minute ≤ 59 ∧ second ≤ 59 then some cs else none

/-- The text ends here, or with a distance from universal time. -/
def isOffset : List Char → Bool
  | [] => true
  | ['Z'] | ['z'] => true
  | c :: cs =>
    (c == '+' || c == '-') &&
      match twoDigits? cs with
      | some (_, ':' :: rest) =>
        match twoDigits? rest with
        | some (_, []) => true
        | _ => false
      | _ => false

/-- The whole text writes a date, a time of day, or both with an optional distance from
    universal time. -/
def isDatetime (cs : List Char) : Bool :=
  if cs[2]? = some ':' then
    time? cs == some []
  else
    match date? cs with
    | none => false
    | some [] => true
    | some (c :: rest) =>
      (c == 'T' || c == 't' || c == ' ') &&
        match time? rest with
        | some rest => isOffset rest
        | none => false

end EffectsDsp.Toml.Literal
