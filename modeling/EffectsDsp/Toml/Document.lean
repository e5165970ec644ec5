/-
  EffectsDsp.Toml.Document

  The table that a TOML text writes. Sections with a common header prefix share a
  table. A table below the top has each key once; at the top the last writing of a key
  counts.

  A table may also stand for a date: its first key says so, and the value of this key is
  the date. Nothing else of such a table is looked at. The sections below it are taken
  up where it left them, by the next element of an array or else as another value for
  the key of the table.
-/

import EffectsDsp.Toml.Statement

namespace EffectsDsp.Toml

/-! ## Values -/

namespace Value

/-- The first key of a table that stands for a date. -/
def dateKey : String := "$__toml_private_datetime"

/-- What is written for the date that a table with these entries stands for, if it stands
    for one. -/
def writtenDate? : List (String × Value) → Option Value
  | (key, v) :: _ => if key = dateKey then some v else none
  | [] => none

/-- The date with the given text, if there is such a date. -/
def ofDateText? (text : String) : Option Value :=
  if Literal.isDatetime text.toList then some (.datetime text) else none

/-- The date that is written as a string. -/
def ofWrittenDate? : Value → Option Value
  | .string text => ofDateText? text
  | _ => none

/-- The table of resolved entries, each of which has a key of its own. -/
def ofFields? (fields : List (String × Value)) : Option Value :=
  if (writtenDate? fields).isNone ∧ distinctKeys fields then some (.table false fields)
  else none

mutual

/-- The value that is meant by a written one. None if there is no such date, or if a table
    has a key twice. -/
def resolve? : Value → Option Value
  | .datetime text => ofDateText? text
  | .array elements => (resolveAll? elements).map .array
  | .table _ entries =>
    match writtenDate? entries with
    | some v => ofWrittenDate? v
    | none => (resolveEntries? entries).bind ofFields?
  | v => some v

/-- The values that are meant by written ones. -/
def resolveAll? : List Value → Option (List Value)
  | [] => some []
  | v :: vs => do
    let v ← v.resolve?
    let vs ← resolveAll? vs
    some (v :: vs)

/-- The entries with the values that are meant. -/
def resolveEntries? : List (String × Value) → Option (List (String × Value))
  | [] => some []
  | (key, v) :: entries => do
    let v ← v.resolve?
    let entries ← resolveEntries? entries
    some ((key, v) :: entries)

end

end Value

/-! ## Sections -/

namespace Section

/-- The section below one more key. -/
def below (key : String) (s : Section) : Section :=
  { s with header := key :: s.header }

/-- The section without the first key of its header, if that is `key`. -/
def under? (key : String) (s : Section) : Option Section :=
  match s.header with
  | first :: header => if first = key then some { s with header } else none
  | [] => none

end Section

namespace Document

/-- Cuts a list before every section that adds an element to the array at hand. -/
def cutElements : List Section → List (List Section)
  | [] => []
  | s :: sections =>
    match cutElements sections with
    | [] => [[s]]
    | part :: parts =>
      if (part.head?.map fun t => t.element && t.header.isEmpty) = some true then
        [s] :: part :: parts
      else (s :: part) :: parts

/-- The shorter of two headers, the first one where both have one length. -/
def shorter (seen? : Option (List String)) (header : List String) : List String :=
  match seen? with
  | some seen => if header.length < seen.length then header else seen
  | none => header

mutual

/-- The value of sections whose common header prefix is left out: an array if the first
    one adds an element. The sections that are not part of the value come with it. -/
def value? : Nat → List Section → Option (Value × List Section)
  | 0, _ | _, [] => none
  | fuel + 1, first :: rest =>
    if first.header = [] then
      if first.element then do
        let (elements, left) ← elements? fuel [] (cutElements (first :: rest))
        some (.array elements, left)
      else table? fuel first rest
    else do
      let fields ← fields? fuel none (first :: rest)
      some (← Value.ofFields? fields, [])

/-- The table of its own section and of those below it, or the date that it stands for. -/
def table? : Nat → Section → List Section → Option (Value × List Section)
  | 0, _, _ => none
  | fuel + 1, own, sections =>
    match Value.writtenDate? own.entries with
    | some v => do some (← Value.ofWrittenDate? v, sections)
    | none => do
      let entries ← Value.resolveEntries? own.entries
      let fields ← fields? fuel (some own.header) sections
      some (← Value.ofFields? (entries ++ fields), [])

/-- The tables of an array, each from the sections that start with its own, and from those
    that the tables before left. -/
def elements? : Nat → List Section → List (List Section) →
    Option (List Value × List Section)
  | 0, _, _ | _, _, [] :: _ => none
  | _, left, [] => some ([], left)
  | fuel + 1, left, (own :: part) :: parts => do
    let (table, left) ← table? fuel own (left ++ part)
    let (tables, left) ← elements? fuel left parts
    some (table :: tables, left)

/-- The fields that sections give a table, in order. Of the sections seen so far the first
    with the shortest header is `seen?`, which no other section may repeat. -/
def fields? : Nat → Option (List String) → List Section → Option (List (String × Value))
  | 0, _, _ => none
  | _, _, [] => some []
  | fuel + 1, seen?, s :: sections =>
    if seen? = some s.header then none
    else
      match s.header with
      | [] =>
        if s.element then none
        else do
          let entries ← Value.resolveEntries? s.entries
          let fields ← fields? fuel (some []) sections
          some (entries ++ fields)
      | key :: header => do
        let mine := { s with header } :: sections.filterMap (·.under? key)
        let others := sections.filter (·.header.head? ≠ some key)
        let (v, left) ← value? fuel mine
        let fields ←
          fields? fuel (some (shorter seen? s.header)) (left.map (·.below key) ++ others)
        some ((key, v) :: fields)

end

/-- More than the steps that reading the sections takes. -/
def bound (sections : List Section) : Nat :=
  sections.foldl (fun n s => n + 4 * s.header.length + 4) 4

/-- The table of all sections of a text. The first section counts only if it has entries,
    for it has no header. -/
def ofSections? (sections : List Section) : Option Table := do
  let written := sections.filter fun s => !s.header.isEmpty || !s.entries.isEmpty
  let fields ← fields? (bound written) none written
  some (Table.ofEntries fields)

end Document

/-- The table that a text writes. -/
def Table.ofText? (text : String) : Option Table := do
  Document.ofSections? (← Section.ofText? text)

end EffectsDsp.Toml
