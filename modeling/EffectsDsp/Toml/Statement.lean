/-
  EffectsDsp.Toml.Statement

  The lines of a TOML text: keys with values, and headers of tables.
-/

import EffectsDsp.Toml.Literal
import EffectsDsp.Toml.Token
import EffectsDsp.Toml.Value

namespace EffectsDsp.Toml

/-- A header with the entries below it. -/
structure Section where
  header : List String
  /-- The header adds an element to an array of tables. -/
  element : Bool
  entries : List (String × Value)
  deriving Repr

namespace Statement

/-! ## Blanks and line ends -/

/-- The tokens behind a blank, if there is one. -/
def skipBlank : List Token → List Token
  | .blank _ :: ts => ts
  | ts => ts

/-- The tokens behind blanks, comments and line ends. -/
def skipLines : List Token → List Token
  | .blank _ :: ts | .comment :: ts | .newline :: ts => skipLines ts
  | ts => ts

/-- The tokens behind the end of a line, where a blank and a comment may stand. -/
def endOfLine? (ts : List Token) : Option (List Token) :=
  let ts :=
    match skipBlank ts with
    | .comment :: ts => ts
    | ts => ts
  match ts with
  | [] => some []
  | .newline :: ts => some ts
  | _ => none

/-- The tokens behind the token `t`. -/
def expect? (t : Token) : List Token → Option (List Token)
  | u :: ts => if u = t then some ts else none
  | [] => none

/-! ## Keys -/

/-- One key, bare or as a string of one line. -/
def simpleKey? : List Token → Option (String × List Token)
  | .bare text :: ts => some (text, ts)
  | .quoted text false :: ts => some (text, ts)
  | _ => none

/-- The keys of a dotted key, behind the first one. -/
def moreKeys? : Nat → List Token → Option (List String × List Token)
  | 0, _ => none
  | fuel + 1, ts =>
    match skipBlank ts with
    | .period :: ts => do
      let (key, ts) ← simpleKey? (skipBlank ts)
      let (keys, ts) ← moreKeys? fuel ts
      some (key :: keys, ts)
    | ts => some ([], ts)

/-- A key, whose parts are separated by points, and the tokens behind it and a blank. -/
def key? (ts : List Token) : Option (List String × List Token) := do
  let (key, ts) ← simpleKey? ts
  let (keys, ts) ← moreKeys? (ts.length + 1) ts
  some (key :: keys, ts)

/-- Adds a value under a dotted key. None if the key leads through a value that is not
    a table made by dotted keys. -/
def insertAt : List String → Value → List (String × Value) → Option (List (String × Value))
  | [], _, _ => none
  | [key], v, entries => some (entries ++ [(key, v)])
  | key :: path, v, entries =>
    match entries.span (·.1 != key) with
    | (before, (_, .table true inner) :: behind) => do
      let inner ← insertAt path v inner
      some (before ++ (key, .table true inner) :: behind)
    | (_, _ :: _) => none
    | (before, []) => do
      let inner ← insertAt path v []
      some (before ++ [(key, .table true inner)])

/-! ## Numbers and dates -/

/-- The text of a token that can be part of a date. -/
def dateText : Token → String
  | .bare text | .blank text => text
  | .colon => ":"
  | .period => "."
  | .plus => "+"
  | _ => ""

/-- A bare word with the mark in front of it, if the mark is there. -/
def marked? (mark : Token) : List Token → Option (List Token × List Token)
  | t :: ts =>
    if t = mark then
      match ts with
      | .bare text :: ts => some ([mark, .bare text], ts)
      | _ => none
    else some ([], t :: ts)
  | [] => some ([], [])

/-- The rest of a date whose first word was read: an hour behind a single space, and
    then minutes, seconds, a fraction and a distance from universal time. -/
def dateRest? (ts : List Token) : Option (List Token × List Token) := do
  let (hour, ts) : List Token × List Token :=
    match ts with
    | .blank " " :: .bare text :: ts => ([.blank " ", .bare text], ts)
    | ts => ([], ts)
  match ts with
  | .colon :: .bare minute :: .colon :: .bare second :: ts => do
    let (fraction, ts) ← marked? .period ts
    let (east, ts) ← marked? .plus ts
    let (minutes, ts) ← marked? .colon ts
    some (hour ++ [.colon, .bare minute, .colon, .bare second] ++ fraction ++ east ++ minutes,
      ts)
  | .colon :: _ => none
  | ts => some (hour, ts)

/-- The text of a date that starts with the word `first`. Whether there is such a date is
    asked only where the value is needed. -/
def datetime? (first : String) (ts : List Token) : Option (Value × List Token) := do
  let (parts, ts) ← dateRest? ts
  some (.datetime (first ++ String.join (parts.map dateText)), ts)

/-- A floating-point number with the word `whole` in front of the point. -/
def float? (whole : String) (fraction : Option String) (ts : List Token) :
    Option (Value × List Token) := do
  let m ← Literal.mantissa? whole.toList (fraction.map String.toList)
  let literal := match fraction with
    | some text => whole ++ "." ++ text
    | none => whole
  match m.rest with
  | [] => if m.isFinite 0 then some (.float literal, ts) else none
  | [e] =>
    if e = 'e' ∨ e = 'E' then
      -- The word ends behind the mark where a plus sign stands before the exponent.
      let ts := match ts with
        | .plus :: ts => ts
        | ts => ts
      match ts with
      | .bare text :: ts => do
        let exponent ← Literal.exponent? false text.toList
        if m.isFinite exponent then some (.float (literal ++ text), ts) else none
      | _ => none
    else none
  | e :: digits =>
    if e = 'e' ∨ e = 'E' then do
      let exponent ← Literal.exponent? true digits
      if m.isFinite exponent then some (.float literal, ts) else none
    else none

/-- A number that starts with the word `text`. -/
def number? (text : String) (ts : List Token) : Option (Value × List Token) :=
  let cs := text.toList
  let integer (base : Nat) (cs : List Char) :=
    (Literal.integer? base cs).map fun n => (Value.integer n, ts)
  match cs with
  | '0' :: 'x' :: digits => integer 16 digits
  | '0' :: 'o' :: digits => integer 8 digits
  | '0' :: 'b' :: digits => integer 2 digits
  | cs =>
    if cs.contains 'e' ∨ cs.contains 'E' then float? text none ts
    else
      match ts with
      | .period :: .bare fraction :: ts => float? text (some fraction) ts
      | .period :: _ => none
      | ts =>
        if text ∈ ["inf", "-inf", "nan", "-nan"] then some (.float text, ts)
        else integer 10 cs

/-- The word is the beginning of a date: it holds the `T` between date and time, or a
    dash that is neither a sign nor that of an exponent. -/
def startsDate (cs : List Char) : Bool :=
  let dashed (mark : Char) := (cs.zip cs.tail).contains (mark, '-')
  cs.contains 'T' || cs.contains 't' ||
    (cs.tail.contains '-' && !dashed 'e' && !dashed 'E')

/-- A number or date that starts with the word `text`. -/
def numberOrDate? (text : String) (ts : List Token) : Option (Value × List Token) :=
  if startsDate text.toList then datetime? text ts
  else
    match ts with
    | .colon :: _ => datetime? text ts
    | ts => number? text ts

/-- The value that starts with a bare word. -/
def bareValue? (text : String) (ts : List Token) : Option (Value × List Token) :=
  match text with
  | "true" => some (.boolean true, ts)
  | "false" => some (.boolean false, ts)
  | "inf" | "nan" => numberOrDate? text ts
  | _ =>
    match text.toList with
    | c :: _ => if c = '-' ∨ c.isDigit then numberOrDate? text ts else none
    | [] => none

/-! ## Values -/

mutual

/-- A value and the tokens behind it. -/
def value? : Nat → List Token → Option (Value × List Token)
  | 0, _ => none
  | fuel + 1, ts =>
    match ts with
    | .quoted text _ :: ts => some (.string text, ts)
    | .bare text :: ts => bareValue? text ts
    | .plus :: .bare text :: ts => number? text ts
    | .leftBracket :: ts => do
      let (elements, ts) ← elements? fuel ts
      some (.array elements, ts)
    | .leftBrace :: ts =>
      match skipBlank ts with
      | .rightBrace :: ts => some (.table false [], ts)
      | ts => do
        let (entries, ts) ← entries? fuel [] ts
        some (.table false entries, ts)
    | _ => none

/-- The elements of an array up to its closing bracket. A comma may follow the last
    one, and lines may end anywhere between elements. -/
def elements? : Nat → List Token → Option (List Value × List Token)
  | 0, _ => none
  | fuel + 1, ts =>
    match skipLines ts with
    | .rightBracket :: ts => some ([], ts)
    | ts => do
      let (v, ts) ← value? fuel ts
      match skipLines ts with
      | .comma :: ts => do
        let (vs, ts) ← elements? fuel ts
        some (v :: vs, ts)
      | .rightBracket :: ts => some ([v], ts)
      | _ => none

/-- The entries of an inline table up to its closing brace, behind those read so far. -/
def entries? : Nat → List (String × Value) → List Token →
    Option (List (String × Value) × List Token)
  | 0, _, _ => none
  | fuel + 1, entries, ts => do
    let (path, ts) ← key? ts
    let ts ← expect? .equals ts
    let (v, ts) ← value? fuel (skipBlank ts)
    let entries ← insertAt path v entries
    match skipBlank ts with
    | .rightBrace :: ts => some (entries, ts)
    | .comma :: ts => entries? fuel entries (skipBlank ts)
    | _ => none

end

/-! ## Lines -/

/-- A key with its value, which take the whole line. -/
def keyValue? (ts : List Token) : Option ((List String × Value) × List Token) := do
  let (path, ts) ← key? ts
  let ts ← expect? .equals ts
  let (v, ts) ← value? (ts.length + 1) (skipBlank ts)
  let ts ← endOfLine? ts
  some ((path, v), ts)

/-- A header behind its first bracket, which takes the whole line. -/
def header? (ts : List Token) : Option (Section × List Token) := do
  let (element, ts) :=
    match ts with
    | .leftBracket :: ts => (true, ts)
    | ts => (false, ts)
  let (path, ts) ← key? (skipBlank ts)
  let ts ← expect? .rightBracket ts
  let ts ← if element then expect? .rightBracket ts else some ts
  let ts ← endOfLine? ts
  some ({ header := path, element, entries := [] }, ts)

/-- The sections of a text, where `current` is the one that entries belong to. -/
def sections? : Nat → Section → List Token → Option (List Section)
  | 0, _, _ => none
  | fuel + 1, current, ts =>
    match skipLines ts with
    | [] => some [current]
    | .leftBracket :: ts => do
      let (next, ts) ← header? ts
      let behind ← sections? fuel next ts
      some (current :: behind)
    | ts => do
      let ((path, v), ts) ← keyValue? ts
      let entries ← insertAt path v current.entries
      sections? fuel { current with entries } ts

end Statement

/-- The sections of a text, the first of which has no header. -/
def Section.ofText? (text : String) : Option (List Section) := do
  let ts ← Token.ofText? text
  Statement.sections? (ts.length + 1) { header := [], element := false, entries := [] } ts

end EffectsDsp.Toml
