/-
  EffectsDsp.Settings.Reading

  Settings from the table of a configuration text. Every entry must be a known setting
  of the right type within its range; a setting without an entry has its default. The
  entries are taken in ascending order of their keys, and the first fault counts.
-/

import EffectsDsp.Settings.Basic
import EffectsDsp.Toml.Document

namespace EffectsDsp

/-- Why settings are refused. -/
inductive SettingsError where
  /-- The file cannot be read, for the given reason. -/
  | unreadable (reason : String)
  /-- The text writes no table. -/
  | notToml
  | wrongType (expected got : String)
  | unknownField (key : String)
  | outOfRange (field : String) (value min max : Int)
  deriving DecidableEq, Repr

/-- The text of an error. What is wrong with a text that writes no table is not told. -/
def SettingsError.message : SettingsError → String
  | unreadable reason => "unable to read config file (" ++ reason ++ ")"
  | notToml => "config file parsing error"
  | wrongType expected got => "expected type \x60" ++ expected ++ "\x60, got \x60" ++ got ++ "\x60"
  | unknownField key => "unknown field \x60" ++ key ++ "\x60"
  | outOfRange field value min max =>
    "value " ++ toString value ++ " for field \x60" ++ field ++ "\x60 is not within " ++
      toString min ++ "..=" ++ toString max

namespace Settings

/-- The integer that a value is, if it lies within the range of a field. -/
def ranged (field : String) (v : Toml.Value) (min max : Int) : Except SettingsError Int :=
  match v with
  | .integer n =>
    if min ≤ n ∧ n ≤ max then .ok n else .error (.outOfRange field n min max)
  | v => .error (.wrongType "Integer" v.typeName)

/-- The truth value that a value is. -/
def truth (v : Toml.Value) : Except SettingsError Bool :=
  match v with
  | .boolean b => .ok b
  | v => .error (.wrongType "Boolean" v.typeName)

/-- Takes one entry of the table. -/
def take (s : Settings) (key : String) (v : Toml.Value) : Except SettingsError Settings :=
  match key with
  | "delay-size" =>
    (ranged "delay-size" v 1 32768).map fun n => { s with delaySize := n.toNat }
  | "saturate" =>
    (truth v).map fun b => { s with saturate := b }
  | "max-program-len" =>
    (ranged "max-program-len" v 1 1024).map fun n => { s with maxProgramLength := n.toNat }
  | "max-steps-per-sample" =>
    (ranged "max-steps-per-sample" v 1 4294967295).map fun n =>
      { s with maxStepsPerSample := n.toNat }
  | "sample-rate" =>
    (ranged "sample-rate" v 1 4294967295).map fun n => { s with sampleRate := n.toNat }
  | key => .error (.unknownField key)

/-- Takes all entries of a table in order. -/
def takeAll (s : Settings) : Toml.Table → Except SettingsError Settings
  | [] => .ok s
  | (key, v) :: table =>
    match s.take key v with
    | .ok s => s.takeAll table
    | .error e => .error e

/-- The settings in a table. -/
def ofTable (table : Toml.Table) : Except SettingsError Settings :=
  takeAll {} table

/-- The settings in a text. -/
def ofText (text : String) : Except SettingsError Settings :=
  match Toml.Table.ofText? text with
  | some table => ofTable table
  | none => .error .notToml

end Settings
end EffectsDsp
