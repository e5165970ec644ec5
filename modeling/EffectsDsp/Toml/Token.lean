/-
  EffectsDsp.Toml.Token

  The tokens of a TOML text. Blanks are tokens too, as numbers and dates may not
  contain any. Comments and strings are read whole.
-/

namespace EffectsDsp.Toml

inductive Token where
  /-- Spaces and tabs. -/
  | blank (text : String)
  | newline
  | comment
  | equals
  | period
  | comma
  | colon
  | plus
  | leftBrace
  | rightBrace
  | leftBracket
  | rightBracket
  /-- Letters, digits, dashes and underscores. -/
  | bare (text : String)
  | quoted (text : String) (multiline : Bool)
  deriving DecidableEq, Repr

namespace Token

/-! ## Characters -/

/-- A line end may be preceded by a carriage return. -/
def foldLineEnds : List Char → List Char
  | '\r' :: '\n' :: cs => '\n' :: foldLineEnds cs
  | c :: cs => c :: foldLineEnds cs
  | [] => []

def isBlank (c : Char) : Bool :=
  c == ' ' || c == '\t'

def isBare (c : Char) : Bool :=
  c.isAlphanum || c == '-' || c == '_'

/-- The character may stand in a comment. -/
def inComment (c : Char) : Bool :=
  c == '\t' || ' ' ≤ c

/-- The character may stand for itself in a string. -/
def inString (c : Char) : Bool :=
  c == '\t' || (' ' ≤ c && c != '\x7f')

/-! ## Strings -/

/-- The value of a hexadecimal digit. -/
def hexValue? (c : Char) : Option Nat :=
  if c.isDigit then some (c.toNat - '0'.toNat)
  else if 'a' ≤ c && c ≤ 'f' then some (c.toNat - 'a'.toNat + 10)
  else if 'A' ≤ c && c ≤ 'F' then some (c.toNat - 'A'.toNat + 10)
  else none

/-- The character with the code that `digits` hexadecimal digits write. -/
def codePoint? (digits : Nat) (cs : List Char) : Option (Char × List Char) := do
  let written ← (cs.take digits).mapM hexValue?
  if written.length = digits then
    let code := written.foldl (16 * · + ·) 0
    if code.isValidChar then some (Char.ofNat code, cs.drop digits) else none
  else none

/-- What an escape in a basic string stands for, read behind the backslash. In a string
    of several lines a backslash at the end of a line hides the blanks up to the next
    text. -/
def escape? (multiline : Bool) : List Char → Option (List Char × List Char)
  | '"' :: cs => some (['"'], cs)
  | '\\' :: cs => some (['\\'], cs)
  | 'b' :: cs => some (['\x08'], cs)
  | 'f' :: cs => some (['\x0c'], cs)
  | 'n' :: cs => some (['\n'], cs)
  | 'r' :: cs => some (['\r'], cs)
  | 't' :: cs => some (['\t'], cs)
  | 'u' :: cs => (codePoint? 4 cs).map fun (c, cs) => ([c], cs)
  | 'U' :: cs => (codePoint? 8 cs).map fun (c, cs) => ([c], cs)
  | cs =>
    match multiline, cs.dropWhile isBlank with
    | true, '\n' :: rest => some ([], rest.dropWhile fun c => isBlank c || c == '\n')
    | _, _ => none

/-- How many marks stand at the front, up to five. -/
def marks (mark : Char) (cs : List Char) : Nat :=
  ((cs.take 5).takeWhile (· == mark)).length

/-- The rest of a string and what follows it. `text` holds what was read before, the
    last character first. Three marks end a string of several lines; up to two more in
    front of them belong to it. -/
def body? (mark : Char) (multiline : Bool) : Nat → List Char → List Char →
    Option (String × List Char)
  | 0, _, _ => none
  | _, _, [] => none
  | fuel + 1, text, c :: cs =>
    if c = mark then
      if multiline then
        let run := marks mark (c :: cs)
        if run < 3 then body? mark multiline fuel (c :: text) cs
        else
          let kept := List.replicate (run - 3) mark
          some (String.ofList (text.reverse ++ kept), (c :: cs).drop run)
      else some (String.ofList text.reverse, cs)
    else if c = '\n' then
      if multiline then body? mark multiline fuel (c :: text) cs else none
    else if c = '\\' ∧ mark = '"' then
      match escape? multiline cs with
      | some (meant, rest) => body? mark multiline fuel (meant.reverse ++ text) rest
      | none => none
    else if inString c then body? mark multiline fuel (c :: text) cs
    else none

/-- The string behind an opening mark. A line end right behind three marks is not part
    of the string. -/
def string? (mark : Char) (cs : List Char) : Option (Token × List Char) :=
  match marks mark (cs.take 2), cs with
  | 0, cs => (body? mark false (cs.length + 1) [] cs).map fun (s, cs) => (quoted s false, cs)
  | 1, cs => some (quoted "" false, cs.drop 1)
  | _, cs =>
    let cs := cs.drop 2
    let start := if cs.head? = some '\n' then cs.drop 1 else cs
    (body? mark true (start.length + 1) [] start).map fun (s, cs) => (quoted s true, cs)

/-! ## Tokens -/

/-- The first token and the text behind it. -/
def next? : List Char → Option (Token × List Char)
  | [] => none
  | '\n' :: cs => some (newline, cs)
  | '#' :: cs => some (comment, cs.dropWhile inComment)
  | '=' :: cs => some (equals, cs)
  | '.' :: cs => some (period, cs)
  | ',' :: cs => some (comma, cs)
  | ':' :: cs => some (colon, cs)
  | '+' :: cs => some (plus, cs)
  | '\x7b' :: cs => some (leftBrace, cs)
  | '\x7d' :: cs => some (rightBrace, cs)
  | '[' :: cs => some (leftBracket, cs)
  | ']' :: cs => some (rightBracket, cs)
  | '\'' :: cs => string? '\'' cs
  | '"' :: cs => string? '"' cs
  | c :: cs =>
    if isBlank c then
      some (blank (String.ofList ((c :: cs).takeWhile isBlank)), cs.dropWhile isBlank)
    else if isBare c then
      some (bare (String.ofList ((c :: cs).takeWhile isBare)), cs.dropWhile isBare)
    else none

/-- All tokens of a text, of which each takes at least one character. -/
def scan? : Nat → List Char → Option (List Token)
  | _, [] => some []
  | 0, _ => none
  | fuel + 1, cs => do
    let (token, rest) ← next? cs
    let tokens ← scan? fuel rest
    some (token :: tokens)

/-- The tokens of a text; a byte order mark in front is not part of it. None if a
    character or a string does not belong into such a text. -/
def ofText? (text : String) : Option (List Token) :=
  let cs := foldLineEnds text.toList
  let cs := if cs.head? = some '\ufeff' then cs.drop 1 else cs
  scan? cs.length cs

end Token
end EffectsDsp.Toml
