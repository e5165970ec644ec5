/-
  EffectsDsp.Proofs.Configuration

  Which tables are settings, and which settings they are. `Setting.Admits` says what one setting
  can be, and `Refused` what is wrong with an entry that is none. An entry is either valid or
  refused, and this does not depend on the settings read before. So the entries of a table can be
  looked at one by one: those in front of the first one that is refused are valid, and the error
  is its own.
-/

import EffectsDsp.Settings.Reading
import EffectsDsp.Proofs.Tables

namespace EffectsDsp

open Toml (Table Value keyBytes)

/-! ## Settings -/

/-- A setting that a table can name. -/
inductive Setting where
  | delaySize
  | saturate
  | maxProgramLength
  | maxStepsPerSample
  | sampleRate
  deriving DecidableEq, Repr

namespace Setting

def key : Setting → String
  | delaySize => "delay-size"
  | saturate => "saturate"
  | maxProgramLength => "max-program-len"
  | maxStepsPerSample => "max-steps-per-sample"
  | sampleRate => "sample-rate"

/-- The largest number that the setting can be, where one is the smallest. None if the setting is
    a truth value. -/
def max? : Setting → Option Int
  | delaySize => some 32768
  | saturate => none
  | maxProgramLength => some 1024
  | maxStepsPerSample | sampleRate => some 4294967295

/-- What the setting is among others, as it would be written. -/
def shown (f : Setting) (s : Settings) : Value :=
  match f with
  | delaySize => .integer s.delaySize
  | saturate => .boolean s.saturate
  | maxProgramLength => .integer s.maxProgramLength
  | maxStepsPerSample => .integer s.maxStepsPerSample
  | sampleRate => .integer s.sampleRate

/-- The setting can be the value. -/
def Admits (f : Setting) (v : Value) : Prop :=
  match f.max? with
  | none => ∃ b, v = .boolean b
  | some max => ∃ n, v = .integer n ∧ 1 ≤ n ∧ n ≤ max

theorem key_injective {f g : Setting} (h : f.key = g.key) : f = g := by
  cases f <;> cases g <;> first | rfl | simp [key] at h

/-- Every default passes its own check. -/
theorem admits_default (f : Setting) : f.Admits (f.shown {}) := by
  cases f with
  | saturate => exact ⟨true, rfl⟩
  | delaySize => exact ⟨32768, rfl, by decide, by decide⟩
  | maxProgramLength => exact ⟨128, rfl, by decide, by decide⟩
  | maxStepsPerSample => exact ⟨1024, rfl, by decide, by decide⟩
  | sampleRate => exact ⟨32768, rfl, by decide, by decide⟩

/-- A word of 32 bits, or of more, holds every number that a setting can be. -/
theorem Admits.fits {f : Setting} {n : Int} (h : f.Admits (.integer n)) {width : Nat}
    (hwidth : 32 ≤ width) : ((BitVec.ofInt width n).toNat : Int) = n := by
  have hbounds : 0 ≤ n ∧ n < 4294967296 := by
    cases f with
    | saturate =>
      obtain ⟨b, hb⟩ := h
      cases hb
    | delaySize | maxProgramLength | maxStepsPerSample | sampleRate =>
      obtain ⟨m, hm, hlo, hhi⟩ := h
      obtain rfl := Value.integer.inj hm
      omega
  have hpow : (2 : Nat) ^ 32 ≤ 2 ^ width := Nat.pow_le_pow_right (by decide) hwidth
  rw [BitVec.toNat_ofInt, Int.emod_eq_of_lt hbounds.1 (by omega)]
  exact Int.toNat_of_nonneg hbounds.1

end Setting

namespace Settings

variable {key : String} {v : Value} {e : SettingsError} {s s' : Settings} {f : Setting}
  {table : Table}

/-! ## One entry -/

/-- The key is that of a setting, which can be the value. -/
def Valid (key : String) (v : Value) : Prop :=
  ∃ f : Setting, f.key = key ∧ f.Admits v

/-- What is wrong with an entry. A value of the wrong type has no range. -/
inductive Refused (key : String) (v : Value) : SettingsError → Prop
  | unknownField (hunknown : ∀ f : Setting, f.key ≠ key) : Refused key v (.unknownField key)
  | notBoolean {f : Setting} (hkey : f.key = key) (hmax : f.max? = none)
      (htype : ∀ b, v ≠ .boolean b) : Refused key v (.wrongType "Boolean" v.typeName)
  | notInteger {f : Setting} {max : Int} (hkey : f.key = key) (hmax : f.max? = some max)
      (htype : ∀ n, v ≠ .integer n) : Refused key v (.wrongType "Integer" v.typeName)
  | outOfRange {f : Setting} {max n : Int} (hkey : f.key = key) (hmax : f.max? = some max)
      (hv : v = .integer n) (hrange : n < 1 ∨ max < n) : Refused key v (.outOfRange key n 1 max)

theorem valid_or_refused (key : String) (v : Value) : Valid key v ∨ ∃ e, Refused key v e := by
  by_cases hunknown : ∀ f : Setting, f.key ≠ key
  · exact .inr ⟨_, .unknownField hunknown⟩
  · obtain ⟨f, hkey⟩ := Classical.not_forall_not.mp hunknown
    cases hmax : f.max? with
    | none =>
      by_cases htype : ∃ b, v = .boolean b
      · exact .inl ⟨f, hkey, by rw [Setting.Admits, hmax]; exact htype⟩
      · exact .inr ⟨_, .notBoolean hkey hmax fun b hb => htype ⟨b, hb⟩⟩
    | some max =>
      by_cases htype : ∃ n, v = .integer n
      · obtain ⟨n, hn⟩ := htype
        by_cases hrange : 1 ≤ n ∧ n ≤ max
        · exact .inl ⟨f, hkey, by rw [Setting.Admits, hmax]; exact ⟨n, hn, hrange⟩⟩
        · exact .inr ⟨_, .outOfRange hkey hmax hn (by omega)⟩
      · exact .inr ⟨_, .notInteger hkey hmax fun n hn => htype ⟨n, hn⟩⟩

/-- `s'` has the value for the setting, and otherwise what `s` has. -/
structure Stored (f : Setting) (v : Value) (s s' : Settings) : Prop where
  self : f.shown s' = v
  others : ∀ g, g ≠ f → g.shown s' = g.shown s

theorem take_of_admits (h : f.Admits v) (s : Settings) :
    ∃ s', s.take f.key v = .ok s' ∧ Stored f v s s' := by
  cases f with
  | saturate =>
    obtain ⟨b, rfl⟩ := h
    refine ⟨{ s with saturate := b }, rfl, rfl, fun g hg => ?_⟩
    cases g <;> first | rfl | exact absurd rfl hg
  | delaySize | maxProgramLength | maxStepsPerSample | sampleRate =>
    obtain ⟨n, rfl, hlo, hhi⟩ := h
    have hn : (n.toNat : Int) = n := Int.toNat_of_nonneg (by omega)
    refine ⟨_, by rw [Setting.key, take, ranged, if_pos ⟨hlo, hhi⟩]; rfl,
      congrArg Value.integer hn, fun g hg => ?_⟩
    cases g <;> first | rfl | exact absurd rfl hg

theorem truth_of_not_boolean (htype : ∀ b, v ≠ .boolean b) :
    truth v = .error (.wrongType "Boolean" v.typeName) := by
  cases v with
  | boolean b => exact absurd rfl (htype b)
  | string | integer | float | datetime | array | table => rfl

theorem ranged_of_not_integer (htype : ∀ n, v ≠ .integer n) (field : String) (min max : Int) :
    ranged field v min max = .error (.wrongType "Integer" v.typeName) := by
  cases v with
  | integer n => exact absurd rfl (htype n)
  | string | boolean | float | datetime | array | table => rfl

theorem take_of_refused (h : Refused key v e) (s : Settings) : s.take key v = .error e := by
  cases h with
  | unknownField hunknown =>
    rw [take]
    · exact fun h => hunknown .delaySize h.symm
    · exact fun h => hunknown .saturate h.symm
    · exact fun h => hunknown .maxProgramLength h.symm
    · exact fun h => hunknown .maxStepsPerSample h.symm
    · exact fun h => hunknown .sampleRate h.symm
  | @notBoolean f hkey hmax htype =>
    subst hkey
    cases f with
    | saturate => rw [Setting.key, take, truth_of_not_boolean htype]; rfl
    | delaySize | maxProgramLength | maxStepsPerSample | sampleRate => cases hmax
  | @notInteger f max hkey hmax htype =>
    subst hkey
    cases f with
    | saturate => cases hmax
    | delaySize | maxProgramLength | maxStepsPerSample | sampleRate =>
      rw [Setting.key, take, ranged_of_not_integer htype]
      rfl
  | @outOfRange f max n hkey hmax hv hrange =>
    subst hkey hv
    cases f with
    | saturate => cases hmax
    | delaySize | maxProgramLength | maxStepsPerSample | sampleRate =>
      obtain rfl := Option.some.inj hmax
      rw [Setting.key, take, ranged, if_neg (by omega)]
      rfl

/-! ## All entries -/

/-- A table of valid entries names some settings, each of them once. -/
theorem takeAll_of_valid (hvalid : ∀ entry ∈ table, Valid entry.1 entry.2)
    (hkeys : (table.map Prod.fst).Nodup) (s : Settings) :
    ∃ s', s.takeAll table = .ok s' ∧
      ∀ f : Setting, f.shown s' = (table.lookup f.key).getD (f.shown s) := by
  induction table generalizing s with
  | nil => exact ⟨s, rfl, fun f => rfl⟩
  | cons entry table ih =>
    obtain ⟨key, v⟩ := entry
    obtain ⟨f, rfl, hadmits⟩ := hvalid (key, v) List.mem_cons_self
    obtain ⟨hnew, hrest⟩ := List.nodup_cons.mp hkeys
    obtain ⟨next, htake, hstored⟩ := take_of_admits hadmits s
    obtain ⟨s', hall, hshown⟩ :=
      ih (fun entry hentry => hvalid entry (List.mem_cons_of_mem _ hentry)) hrest next
    refine ⟨s', by rw [takeAll, htake]; exact hall, fun g => ?_⟩
    rw [hshown g, List.lookup_cons]
    by_cases hg : g = f
    · subst hg
      -- No other entry is for this setting.
      have hnone : table.lookup g.key = none := by
        rw [List.lookup_eq_none_iff]
        intro entry hentry
        exact bne_iff_ne.mpr fun hkey =>
          hnew (List.mem_map.mpr ⟨entry, hentry, hkey.symm⟩)
      rw [hnone, beq_self_eq_true]
      exact hstored.self
    · have hkey : (g.key == f.key) = false :=
        beq_eq_false_iff_ne.mpr fun h => hg (Setting.key_injective h)
      rw [hkey, hstored.others g hg]

/-- The first entry that is refused decides. -/
theorem takeAll_of_refused {before after : Table}
    (hvalid : ∀ entry ∈ before, Valid entry.1 entry.2) (h : Refused key v e) (s : Settings) :
    s.takeAll (before ++ (key, v) :: after) = .error e := by
  induction before generalizing s with
  | nil => rw [List.nil_append, takeAll, take_of_refused h]
  | cons entry before ih =>
    obtain ⟨k, w⟩ := entry
    obtain ⟨f, rfl, hadmits⟩ := hvalid (k, w) List.mem_cons_self
    obtain ⟨next, htake, -⟩ := take_of_admits hadmits s
    rw [List.cons_append, takeAll, htake]
    exact ih (fun entry hentry => hvalid entry (List.mem_cons_of_mem _ hentry)) next

theorem all_valid_or_first_refused (table : Table) :
    (∀ entry ∈ table, Valid entry.1 entry.2) ∨
      ∃ before key v after e, table = before ++ (key, v) :: after ∧
        (∀ entry ∈ before, Valid entry.1 entry.2) ∧ Refused key v e := by
  induction table with
  | nil => exact .inl fun entry hentry => absurd hentry List.not_mem_nil
  | cons entry table ih =>
    obtain hfirst | ⟨e, he⟩ := valid_or_refused entry.1 entry.2
    · obtain hall | ⟨before, key, v, after, e, rfl, hbefore, he⟩ := ih
      · exact .inl (List.forall_mem_cons.mpr ⟨hfirst, hall⟩)
      · exact .inr ⟨entry :: before, key, v, after, e, rfl,
          List.forall_mem_cons.mpr ⟨hfirst, hbefore⟩, he⟩
    · exact .inr ⟨[], entry.1, entry.2, table, e, rfl,
        fun entry hentry => absurd hentry List.not_mem_nil, he⟩

/-! ## Tables -/

theorem valid_of_ofTable (h : ofTable table = .ok s) :
    ∀ entry ∈ table, Valid entry.1 entry.2 := by
  obtain hall | ⟨before, key, v, after, e, rfl, hbefore, he⟩ := all_valid_or_first_refused table
  · exact hall
  · have herror : ofTable (before ++ (key, v) :: after) = .error e :=
      takeAll_of_refused hbefore he {}
    cases h.symm.trans herror

theorem shown_of_ofTable (hascending : table.Ascending) (h : ofTable table = .ok s)
    (f : Setting) : f.shown s = (table.lookup f.key).getD (f.shown {}) := by
  obtain ⟨s', hs', hshown⟩ := takeAll_of_valid (valid_of_ofTable h) hascending.nodup {}
  obtain rfl := Except.ok.inj (h.symm.trans hs')
  exact hshown f

theorem admits_of_ofTable (hascending : table.Ascending) (h : ofTable table = .ok s)
    (f : Setting) : f.Admits (f.shown s) := by
  rw [shown_of_ofTable hascending h f]
  cases hlookup : table.lookup f.key with
  | none => exact f.admits_default
  | some v =>
    obtain ⟨before, after, rfl, -⟩ := List.lookup_eq_some_iff.mp hlookup
    obtain ⟨g, hg, hadmits⟩ := valid_of_ofTable h (f.key, v)
      (List.mem_append_right before List.mem_cons_self)
    rwa [Setting.key_injective hg] at hadmits

/-- The error is that of the smallest key with an entry that is refused. -/
theorem ofTable_eq_error_iff (hascending : table.Ascending) :
    ofTable table = .error e ↔ ∃ entry ∈ table, Refused entry.1 entry.2 e ∧
      ∀ other ∈ table, keyBytes other.1 < keyBytes entry.1 → Valid other.1 other.2 := by
  constructor
  · intro h
    obtain hall | ⟨before, key, v, after, e', rfl, hbefore, he⟩ := all_valid_or_first_refused table
    · obtain ⟨s, hs, -⟩ := takeAll_of_valid hall hascending.nodup {}
      cases h.symm.trans hs
    · obtain rfl := Except.error.inj (h.symm.trans (takeAll_of_refused hbefore he {}))
      refine ⟨(key, v), List.mem_append_right before List.mem_cons_self, he, ?_⟩
      obtain ⟨-, hbehind, -⟩ := List.pairwise_append.mp hascending
      intro other hother hless
      obtain hother | hother := List.mem_append.mp hother
      · exact hbefore other hother
      -- The entry itself is not smaller, and those behind it are larger.
      · obtain rfl | hother := List.mem_cons.mp hother
        · exact absurd hless (List.lt_irrefl _)
        · have hmore := (List.pairwise_cons.mp hbehind).1 other hother
          exact absurd (List.lt_trans hless hmore) (List.lt_irrefl _)
  · rintro ⟨entry, hentry, hrefused, hsmaller⟩
    obtain ⟨before, after, rfl⟩ := List.append_of_mem hentry
    obtain ⟨-, -, hless⟩ := List.pairwise_append.mp hascending
    refine takeAll_of_refused (fun other hother => ?_) hrefused {}
    exact hsmaller other (List.mem_append_left _ hother)
      (hless other hother entry List.mem_cons_self)

/-- What a table comes to: settings, if all its entries are valid, and else the error of the
    smallest key with an entry that is refused. -/
structure Determined (table : Table) (outcome : Except SettingsError Settings) : Prop where
  accepted : (∃ s, outcome = .ok s) ↔ ∀ entry ∈ table, Valid entry.1 entry.2
  /-- What the table names is as it says, all else is as it is by default. -/
  shown : ∀ s, outcome = .ok s → ∀ f : Setting,
    f.shown s = (table.lookup f.key).getD (f.shown {})
  /-- No number changes when it becomes a word of 32 bits or more. -/
  fits : ∀ s, outcome = .ok s → ∀ (f : Setting) (n : Int), f.shown s = .integer n →
    ∀ width, 32 ≤ width → ((BitVec.ofInt width n).toNat : Int) = n
  refused : ∀ e, outcome = .error e ↔ ∃ entry ∈ table, Refused entry.1 entry.2 e ∧
    ∀ other ∈ table, keyBytes other.1 < keyBytes entry.1 → Valid other.1 other.2

theorem determined_ofTable (h : table.Ascending) : Determined table (ofTable table) where
  accepted := by
    refine ⟨fun ⟨s, hs⟩ => valid_of_ofTable hs, fun hall => ?_⟩
    obtain ⟨s, hs, -⟩ := takeAll_of_valid hall h.nodup {}
    exact ⟨s, hs⟩
  shown s hs := shown_of_ofTable h hs
  fits s hs f n hn width hwidth := by
    have hadmits := admits_of_ofTable h hs f
    rw [hn] at hadmits
    exact hadmits.fits hwidth
  refused e := ofTable_eq_error_iff h

/-- A configuration is read exactly if it is valid. For every table with ascending keys, and so
    for every text that writes one, the outcome is settings if each key is that of a setting and
    its value one that the setting can be; then all that is named has exactly its value, and all
    else its default. Otherwise the outcome is what is wrong with the smallest key that has an
    entry which is not valid, whatever the others are. In which order a text gives its fields does
    not matter. -/
theorem settings_of_valid_entries :
    (∀ table : Table, table.Ascending → Determined table (ofTable table)) ∧
      (∀ text table, Table.ofText? text = some table →
        table.Ascending ∧ Determined table (ofText text)) ∧
      ∀ text text' fields fields', Toml.Document.fieldsOf? text = some fields →
        Toml.Document.fieldsOf? text' = some fields' → fields.Perm fields' →
        (fields.map Prod.fst).Nodup → ofText text = ofText text' := by
  refine ⟨fun table => determined_ofTable, fun text table htext => ?_, ?_⟩
  · have hascending : table.Ascending := Table.ascending_of_ofText? htext
    rw [ofText, htext]
    exact ⟨hascending, determined_ofTable hascending⟩
  · intro text text' fields fields' htext htext' hperm hnodup
    rw [ofText, ofText, Table.ofText?_eq, Table.ofText?_eq, htext, htext', Option.map_some,
      Option.map_some, Table.ofEntries_perm hperm hnodup]

theorem fieldsOf?_saturate_first :
    Toml.Document.fieldsOf? "saturate=1\ndelay-size=0" =
      some [("saturate", .integer 1), ("delay-size", .integer 0)] := by
  have htokens : Toml.Token.ofText? "saturate=1\ndelay-size=0" =
      some [.bare "saturate", .equals, .bare "1", .newline, .bare "delay-size", .equals,
        .bare "0"] := by
    simp [Toml.Token.ofText?, Toml.Token.foldLineEnds, Toml.Token.scan?, Toml.Token.next?,
      Toml.Token.isBlank, Toml.Token.isBare, Char.isAlphanum]
  rw [Toml.Document.fieldsOf?, Toml.Section.ofText?, htokens]
  rfl

theorem fieldsOf?_saturate_last :
    Toml.Document.fieldsOf? "delay-size=0\nsaturate=1" =
      some [("delay-size", .integer 0), ("saturate", .integer 1)] := by
  have htokens : Toml.Token.ofText? "delay-size=0\nsaturate=1" =
      some [.bare "delay-size", .equals, .bare "0", .newline, .bare "saturate", .equals,
        .bare "1"] := by
    simp [Toml.Token.ofText?, Toml.Token.foldLineEnds, Toml.Token.scan?, Toml.Token.next?,
      Toml.Token.isBlank, Toml.Token.isBare, Char.isAlphanum]
  rw [Toml.Document.fieldsOf?, Toml.Section.ofText?, htokens]
  rfl

/-- The range of one setting and the type of another are wrong, and the key decides which of the
    two is told. -/
theorem settings_of_valid_entries_two_faults :
    ofTable [("delay-size", .integer 0), ("saturate", .integer 1)] =
        .error (.outOfRange "delay-size" 0 1 32768) ∧
      ofText "delay-size=0\nsaturate=1" = .error (.outOfRange "delay-size" 0 1 32768) ∧
      ofText "saturate=1\ndelay-size=0" = .error (.outOfRange "delay-size" 0 1 32768) := by
  obtain ⟨htables, htexts, horder⟩ := settings_of_valid_entries
  have htable : Table.ofText? "delay-size=0\nsaturate=1" =
      some [("delay-size", .integer 0), ("saturate", .integer 1)] := by
    rw [Table.ofText?_eq, fieldsOf?_saturate_last]
    rfl
  obtain ⟨hascending, hlast⟩ := htexts _ _ htable
  have hrefused : Refused "delay-size" (.integer 0) (.outOfRange "delay-size" 0 1 32768) :=
    .outOfRange (f := .delaySize) rfl rfl rfl (.inl (by decide))
  have hsmallest : ∃ entry ∈ ([("delay-size", .integer 0), ("saturate", .integer 1)] : Table),
      Refused entry.1 entry.2 (.outOfRange "delay-size" 0 1 32768) ∧
        ∀ other ∈ ([("delay-size", .integer 0), ("saturate", .integer 1)] : Table),
          keyBytes other.1 < keyBytes entry.1 → Valid other.1 other.2 := by
    refine ⟨_, List.mem_cons_self, hrefused, fun other hother hless => ?_⟩
    obtain rfl | hother := List.mem_cons.mp hother
    · exact absurd hless (List.lt_irrefl _)
    · obtain rfl := List.mem_singleton.mp hother
      exact absurd hless (by decide)
  have herror := (hlast.refused _).mpr hsmallest
  have hsame := horder _ _ _ _ fieldsOf?_saturate_first fieldsOf?_saturate_last (.swap ..)
    (by decide)
  exact ⟨((htables _ hascending).refused _).mpr hsmallest, herror, hsame.trans herror⟩

end Settings
end EffectsDsp
