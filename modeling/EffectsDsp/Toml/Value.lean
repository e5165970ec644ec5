/-
  EffectsDsp.Toml.Value

  TOML values and tables. Floating-point numbers and dates are kept as they are
  written, and so are values that no table can hold: dates that the calendar does not
  have and tables with a key twice.
-/

namespace EffectsDsp.Toml

inductive Value where
  | string (text : String)
  | integer (n : Int)
  | float (literal : String)
  | boolean (b : Bool)
  | datetime (literal : String)
  | array (elements : List Value)
  /-- Keys with their values in the order of the text. A table made by dotted keys can
      be extended by others. -/
  | table (dotted : Bool) (entries : List (String × Value))
  deriving Repr

instance : Inhabited Value := ⟨.table false []⟩

namespace Value

/-- The name of the type of a value. -/
def typeName : Value → String
  | string _ => "string"
  | integer _ => "integer"
  | float _ => "float"
  | boolean _ => "boolean"
  | datetime _ => "datetime"
  | array _ => "array"
  | table .. => "table"

/-- No key occurs twice among the entries. -/
def distinctKeys : List (String × Value) → Bool
  | [] => true
  | (key, _) :: entries => !entries.any (·.1 == key) && distinctKeys entries

end Value

/-- Entries in ascending order of their keys, each key once. -/
abbrev Table := List (String × Value)

namespace Table

/-- The table in which `key` has the value `v`. -/
def insert (key : String) (v : Value) : Table → Table
  | [] => [(key, v)]
  | (k, w) :: table =>
    if key < k then (key, v) :: (k, w) :: table
    else if key = k then (key, v) :: table
    else (k, w) :: insert key v table

/-- The table of entries in order; of entries with one key the last counts. -/
def ofEntries (entries : List (String × Value)) : Table :=
  entries.foldl (fun table entry => insert entry.1 entry.2 table) []

end Table
end EffectsDsp.Toml
