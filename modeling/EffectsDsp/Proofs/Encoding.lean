/-
  EffectsDsp.Proofs.Encoding

  Which words are instructions, and what decoding keeps of them. A word is refused for its
  opcode, or for selector bits that no instruction with the opcode has. Of all others the
  operands tile the 27 bits behind the opcode, and `Operation.encode` puts them back: this is
  the word again, but for the bits of ignored fields.

  The mnemonic has two sources. The opcode selects a family (`ofWord?_eq_some_iff`), and the
  operands make of it an alias or a sub-command. `Mnemonic.Suits` says which operands each
  mnemonic has, so that opcode and operands together tell it (`mnemonic_eq_iff`).
-/

import EffectsDsp.Proofs.Fields

namespace EffectsDsp

/-! ## Families of instructions -/

namespace Mnemonic

/-- The mnemonic that the opcode selects before the operands are looked at. -/
def family : Mnemonic → Mnemonic
  | choSof | choRdal | choReserved => choRda
  | m => m.canonical

/-- The bits of a word that the instruction looks at: its opcode, and its fields but for those
    that are ignored. -/
def significant (m : Mnemonic) : UInt32 :=
  lowMask 5 ||| (Field.keptBits m.fields <<< UInt32.ofNat 5)

/-- The operands that an instruction with this mnemonic has, where its opcode leaves a choice. -/
def Suits (op : Operation) : Mnemonic → Prop
  | clr => op.bits .mask = 0
  | and => op.bits .mask ≠ 0
  | not => op.bits .mask = 0xffffff
  | xor => op.bits .mask ≠ 0xffffff
  | ldax | absa => op.bits .register = 0 ∧ op.bits .coefficient = 0
  | rdfx | maxx => ¬ (op.bits .register = 0 ∧ op.bits .coefficient = 0)
  | nop => op.bits .distance = 0 ∧ op.bits .flags = 0
  | skp => ¬ (op.bits .distance = 0 ∧ op.bits .flags = 0)
  | wlds => op.bits .selector = 0
  | wldr => op.bits .selector = 1
  | choRda => op.bits .subcommand = 0
  | choReserved => op.bits .subcommand = 1
  | choSof => op.bits .subcommand = 2
  | choRdal => op.bits .subcommand = 3
  | _ => True

/-- The fields of every instruction fill the word behind the opcode. -/
theorem end_fields (m : Mnemonic) : Field.start m.fields m.fields.length = 27 := by
  cases m <;> rfl

theorem end_fields_lt (m : Mnemonic) : Field.start m.fields m.fields.length < 32 := by
  rw [end_fields]
  decide

theorem opcode_family (m : Mnemonic) : m.family.opcode = m.opcode := by
  cases m <;> rfl

theorem load_of_opcode {m : Mnemonic} (h : m.opcode = 0x12) : m = wlds ∨ m = wldr := by
  cases m with
  | wlds => exact .inl rfl
  | wldr => exact .inr rfl
  | _ => exact absurd h (by decide)

/-- No field is empty, so that each starts before the word ends. -/
theorem start_fields_lt (m : Mnemonic) :
    ∀ i < m.fields.length, Field.start m.fields i < 27 := by
  cases m <;> decide

variable {word : UInt32}

theorem toNat_opcode_lt (word : UInt32) : (word &&& 0x1f).toNat < 32 := by
  rw [UInt32.toNat_and]
  exact Nat.lt_succ_of_le Nat.and_le_right

theorem ofWord?_eq_none_iff : ofWord? word = none ↔ 0x14 < word &&& 0x1f := by
  have hlt := toNat_opcode_lt word
  have hlast : (0x14 : UInt32).toNat = 20 := rfl
  rw [UInt32.lt_iff_toNat_lt, hlast]
  unfold ofWord?
  split <;> grind

/-- What a word selects has its opcode. -/
theorem opcode_of_ofWord {m : Mnemonic} (h : ofWord? word = some m) :
    word &&& 0x1f = m.opcode := by
  rw [← UInt32.toNat_inj]
  unfold ofWord? at h
  split at h
  case h_19 hopcode => split at h <;> cases h <;> exact hopcode
  all_goals
    cases h
    try assumption

/-- The opcode of a mnemonic selects its family. The two oscillator loads share one, and are
    told apart by the highest bits. -/
theorem ofWord?_of_opcode {m : Mnemonic} (h : word &&& 0x1f = m.opcode) :
    ofWord? word =
      some (if m.opcode = 0x12 then if word >>> 30 = 0 then wlds else wldr else m.family) := by
  unfold ofWord?
  rw [congrArg UInt32.toNat h]
  cases m <;> rfl

theorem ofWord?_eq_some_iff {m : Mnemonic} :
    ofWord? word = some m ↔ m.family = m ∧ word &&& 0x1f = m.opcode ∧
      (m = wlds → word >>> 30 = 0) ∧ (m = wldr → word >>> 30 ≠ 0) := by
  constructor
  · intro h
    have hopcode := opcode_of_ofWord h
    have hselected := Option.some.inj (h.symm.trans (ofWord?_of_opcode hopcode))
    split at hselected
    · split at hselected
      · next hload =>
        subst hselected
        exact ⟨rfl, hopcode, fun _ => hload, fun h => Mnemonic.noConfusion h⟩
      · next hload =>
        subst hselected
        exact ⟨rfl, hopcode, fun h => Mnemonic.noConfusion h, fun _ => hload⟩
    · next hother =>
      refine ⟨hselected.symm, hopcode, ?_, ?_⟩ <;>
      · rintro rfl
        exact absurd rfl hother
  · rintro ⟨hm, hopcode, hwlds, hwldr⟩
    rw [ofWord?_of_opcode hopcode]
    cases m with
    | wlds => exact congrArg some (if_pos (hwlds rfl))
    | wldr => exact congrArg some (if_neg (hwldr rfl))
    | ldax | absa | clr | not | nop | choSof | choRdal | choReserved => cases hm
    | _ => rfl

end Mnemonic

/-! ## Constant bits -/

namespace Operand

/-- A field of constant bits keeps what it has to be. -/
theorem bits_of_constant {fields : List Field} {bits : UInt32} {operands : List Operand}
    (h : cut? fields bits = some operands) {a : Operand} (ha : a ∈ operands) {expected : UInt32}
    (hkind : a.kind = .constant expected) : a.bits = expected := by
  induction fields generalizing bits operands with
  | nil =>
    obtain rfl := Option.some.inj h
    cases ha
  | cons f fields ih =>
    obtain ⟨kept, others, hkept, hothers, rfl⟩ := cut?_cons_eq_some.mp h
    obtain rfl | ha := List.mem_cons.mp ha
    · have hexpected := accept?_isSome_iff.mp ⟨kept, hkept⟩ expected hkind
      have hmask : f.keptMask = lowMask f.width := by
        have hcounts : f.kind ≠ .ignored := fun hignored => by
          rw [hignored] at hkind
          cases hkind
        exact if_neg hcounts
      show kept = expected
      rw [accept?_eq hkept, hmask, hexpected]
    · exact ih hothers ha

/-- The operand with a role is the field with this role. -/
theorem find?_of_cut {fields : List Field} {bits : UInt32} {operands : List Operand}
    (h : cut? fields bits = some operands) {role : Role} {f : Field}
    (hf : fields.find? (·.role == role) = some f) :
    ∃ a, operands.find? (·.role == role) = some a ∧ a ∈ operands ∧ a.toField = f := by
  rw [← map_toField_of_cut h, List.find?_map] at hf
  obtain ⟨a, ha, rfl⟩ := Option.map_eq_some_iff.mp hf
  exact ⟨a, ha, List.mem_of_find?_eq_some ha, rfl⟩

end Operand

/-! ## Words that are instructions -/

/-- The word has an opcode, and selector bits that fit it: the highest two bits of an
    oscillator load tell the sines from the ramps, and JAM has bit 7 set. -/
def IsInstruction (word : UInt32) : Prop :=
  word &&& 0x1f ≤ 0x14 ∧ (word &&& 0x1f = 0x12 → word >>> 30 = 0 ∨ word >>> 30 = 1) ∧
    (word &&& 0x1f = 0x13 → bitAt word 7 = true)

theorem lowMask_five : lowMask 5 = 0x1f := by
  decide

/-- The fields start at bit 5. -/
theorem bitAt_shiftRight_five (word : UInt32) (i : Nat) :
    bitAt (word >>> 5) i = bitAt word (5 + i) :=
  bitAt_shiftRight word (by decide) i

theorem bitAt_shiftRight_thirty (word : UInt32) (i : Nat) :
    bitAt (word >>> 30) i = bitAt word (30 + i) :=
  bitAt_shiftRight word (by decide) i

theorem and_lowMask_one {word : UInt32} : word &&& lowMask 1 = 1 ↔ bitAt word 0 = true := by
  constructor
  · intro h
    have hbit := congrArg (bitAt · 0) h
    rw [bitAt_and, bitAt_lowMask 1 (by decide), decide_eq_true (by decide), Bool.and_true] at hbit
    exact hbit
  · intro h
    refine eq_of_bitAt fun i hi => ?_
    rw [bitAt_and, bitAt_lowMask 1 hi]
    have hone : bitAt 1 i = decide (i < 1) := (bitAt_lowMask 1 hi)
    by_cases hi0 : i = 0
    · subst hi0
      simp [h, hone]
    · simp [hone, hi0]

/-- The two highest bits are all that is left behind the others. -/
theorem shiftRight_and_lowMask_two (word : UInt32) :
    word >>> UInt32.ofNat 30 &&& lowMask 2 = word >>> 30 := by
  refine eq_of_bitAt fun i hi => ?_
  rw [bitAt_and, bitAt_shiftRight _ (by decide), bitAt_lowMask 2 hi, bitAt_shiftRight_thirty]
  by_cases hin : i < 2
  · simp [hin]
  · rw [bitAt_of_le word (by omega), Bool.false_and]

theorem shiftRight_five (word : UInt32) {k : Nat} (h : 5 + k < 32) :
    (word >>> 5) >>> UInt32.ofNat k = word >>> UInt32.ofNat (5 + k) :=
  Operand.shiftRight_shiftRight word h

/-- The instructions with constant bits are the two oscillator loads and JAM. -/
theorem Mnemonic.constant_cases {m : Mnemonic} {i : Nat} {f : Field} {expected : UInt32}
    (hf : m.fields[i]? = some f) (hkind : f.kind = .constant expected) :
    (m = wlds ∧ i = 3 ∧ f.width = 2 ∧ expected = 0) ∨
      (m = wldr ∧ i = 4 ∧ f.width = 2 ∧ expected = 1) ∨
        (m = jam ∧ i = 2 ∧ f.width = 1 ∧ expected = 1) := by
  -- The longest instructions have five fields.
  cases m <;> rcases i with _ | _ | _ | _ | _ | i <;> cases hf <;> cases hkind <;> decide

/-- The fields of a family take a word if its constant bits are in place. -/
theorem exists_cut_iff_of_family {word : UInt32} {family : Mnemonic}
    (hfamily : Mnemonic.ofWord? word = some family) :
    (∃ operands, Operand.cut? family.fields (word >>> 5) = some operands) ↔
      (family = .wldr → word >>> 30 = 1) ∧ (family = .jam → bitAt word 7 = true) := by
  have hload : (word >>> 5) >>> UInt32.ofNat 25 &&& lowMask 2 = word >>> 30 := by
    rw [shiftRight_five word (by decide), shiftRight_and_lowMask_two word]
  have hjam : (word >>> 5) >>> UInt32.ofNat 2 &&& lowMask 1 = 1 ↔ bitAt word 7 = true := by
    rw [and_lowMask_one, shiftRight_five word (by decide), bitAt_shiftRight word (by decide)]
  rw [Operand.exists_cut_iff _ family.end_fields_lt]
  constructor
  · intro h
    constructor
    · rintro rfl
      rw [← hload]
      exact h 4 ⟨.selector, 2, .constant 1⟩ 1 rfl rfl
    · rintro rfl
      exact hjam.mp (h 2 ⟨.selector, 1, .constant 1⟩ 1 rfl rfl)
  · rintro ⟨hwldr, hset⟩ i f expected hf hkind
    obtain ⟨rfl, rfl, hwidth, rfl⟩ | ⟨rfl, rfl, hwidth, rfl⟩ | ⟨rfl, rfl, hwidth, rfl⟩ :=
      Mnemonic.constant_cases hf hkind
    · rw [hwidth]
      exact hload.trans ((Mnemonic.ofWord?_eq_some_iff.mp hfamily).2.2.1 rfl)
    · rw [hwidth]
      exact hload.trans (hwldr rfl)
    · rw [hwidth]
      exact hjam.mpr (hset rfl)

namespace Operation

variable {word word' : UInt32} {op op' : Operation}

theorem decode_of_ofWord_none (h : Mnemonic.ofWord? word = none) :
    decode word = .error (.unknownOpcode word) := by
  simp only [decode, h]

theorem decode_of_refused {family : Mnemonic} (hfamily : Mnemonic.ofWord? word = some family)
    (h : ¬ ∃ operands, Operand.cut? family.fields (word >>> 5) = some operands) :
    decode word = .error (.badSelector word family) := by
  have hnone : Operand.cut? family.fields (word >>> 5) = none :=
    Option.eq_none_iff_forall_ne_some.mpr fun operands hcut => h ⟨operands, hcut⟩
  simp only [decode, hfamily, hnone]

/-- A word is decoded if its opcode selects a family and the constant bits of this are there. -/
theorem exists_decode_iff_family :
    (∃ op, decode word = .ok op) ↔ ∃ family, Mnemonic.ofWord? word = some family ∧
      (family = .wldr → word >>> 30 = 1) ∧ (family = .jam → bitAt word 7 = true) := by
  constructor
  · rintro ⟨op, h⟩
    obtain ⟨family, operands, hfamily, hcut, -⟩ := decode_eq_ok_iff.mp h
    exact ⟨family, hfamily, (exists_cut_iff_of_family hfamily).mp ⟨operands, hcut⟩⟩
  · rintro ⟨family, hfamily, hconstant⟩
    obtain ⟨operands, hcut⟩ := (exists_cut_iff_of_family hfamily).mpr hconstant
    exact ⟨_, decode_eq_ok_iff.mpr ⟨family, operands, hfamily, hcut, rfl⟩⟩

theorem exists_decode_iff : (∃ op, decode word = .ok op) ↔ IsInstruction word := by
  rw [exists_decode_iff_family]
  constructor
  · rintro ⟨family, hfamily, hwldr, hjam⟩
    -- Two loads have one opcode, so the opcode leaves their family open.
    have hselected : ∀ m : Mnemonic, word &&& 0x1f = m.opcode →
        family = if m.opcode = 0x12 then if word >>> 30 = 0 then .wlds else .wldr
          else m.family := fun m hm =>
      Option.some.inj (hfamily.symm.trans (Mnemonic.ofWord?_of_opcode hm))
    refine ⟨?_, fun hload => ?_, fun hjump => hjam (hselected .jam hjump)⟩
    · rw [← UInt32.not_lt, ← Mnemonic.ofWord?_eq_none_iff, hfamily]
      exact Option.some_ne_none family
    · by_cases hsine : word >>> 30 = 0
      · exact .inl hsine
      · have hramp := (hselected .wldr hload).trans ((if_pos rfl).trans (if_neg hsine))
        exact .inr (hwldr hramp)
  · rintro ⟨hopcode, hload, hjump⟩
    have hsome : Mnemonic.ofWord? word ≠ none := fun hnone =>
      UInt32.not_lt.mpr hopcode (Mnemonic.ofWord?_eq_none_iff.mp hnone)
    obtain ⟨family, hfamily⟩ := Option.ne_none_iff_exists'.mp hsome
    obtain ⟨-, hword, -, hramp⟩ := Mnemonic.ofWord?_eq_some_iff.mp hfamily
    refine ⟨family, hfamily, ?_, ?_⟩
    · rintro rfl
      exact (hload hword).resolve_left (hramp rfl)
    · rintro rfl
      exact hjump hword

/-- A word that is no instruction is refused for its opcode or, if it has one, for the selector
    bits of a ramp load or of JAM. -/
theorem decode_of_not_isInstruction (h : ¬ IsInstruction word) :
    decode word = .error (if 0x14 < word &&& 0x1f then .unknownOpcode word
      else .badSelector word (if word &&& 0x1f = 0x12 then .wldr else .jam)) := by
  by_cases hopcode : 0x14 < word &&& 0x1f
  · rw [if_pos hopcode]
    exact decode_of_ofWord_none (Mnemonic.ofWord?_eq_none_iff.mpr hopcode)
  · rw [if_neg hopcode]
    have hsome : Mnemonic.ofWord? word ≠ none := fun hnone =>
      hopcode (Mnemonic.ofWord?_eq_none_iff.mp hnone)
    obtain ⟨family, hfamily⟩ := Option.ne_none_iff_exists'.mp hsome
    have hrefused : ¬ ∃ operands, Operand.cut? family.fields (word >>> 5) = some operands := by
      intro hcut
      have hconstant := (exists_cut_iff_of_family hfamily).mp hcut
      exact h (exists_decode_iff.mp (exists_decode_iff_family.mpr ⟨family, hfamily, hconstant⟩))
    rw [decode_of_refused hfamily hrefused]
    -- No other family has constant bits.
    rw [exists_cut_iff_of_family hfamily, Classical.not_and_iff_not_or_not] at hrefused
    have hword := Mnemonic.opcode_of_ofWord hfamily
    obtain hwldr | hjam := hrefused
    · obtain ⟨rfl, -⟩ := Classical.not_imp.mp hwldr
      rw [hword]
      rfl
    · obtain ⟨rfl, -⟩ := Classical.not_imp.mp hjam
      rw [hword]
      rfl

/-! ## The mnemonic -/

/-- What the operands of a family make of it is the mnemonic that they suit. -/
theorem resolved_of_suits {m : Mnemonic} (hfamily : op.mnemonic = m.family) (h : m.Suits op) :
    op.resolved = m := by
  unfold resolved
  rw [hfamily]
  -- An alias is the positive case of the test, and what it is an alias of the negative one.
  cases m with
  | and | rdfx | maxx | skp => exact if_neg h
  | xor => exact if_neg h
  | clr | not | ldax | absa | nop => exact if_pos h
  | choRda | choSof | choRdal | choReserved =>
    have hbits : op.bits .subcommand = _ := h
    simp only [Mnemonic.family, Mnemonic.canonical, hbits]
    rfl
  | _ => rfl

/-- A field with a constant is an operand with this value. -/
theorem bits_of_constant {family : Mnemonic} {operands : List Operand}
    (hcut : Operand.cut? family.fields (word >>> 5) = some operands) {role : Role} {f : Field}
    (hf : family.fields.find? (·.role == role) = some f) {expected : UInt32}
    (hkind : f.kind = .constant expected) : bits ⟨family, operands, word⟩ role = expected := by
  obtain ⟨a, ha, hmem, rfl⟩ := Operand.find?_of_cut hcut hf
  unfold bits operand?
  simp only [ha]
  exact Operand.bits_of_constant hcut hmem hkind

/-- A sub-command is one of four. -/
theorem subcommand_cases {operands : List Operand}
    (hcut : Operand.cut? Mnemonic.choRda.fields (word >>> 5) = some operands) :
    ∃ n < 4, bits ⟨.choRda, operands, word⟩ .subcommand = UInt32.ofNat n := by
  have hf : Mnemonic.choRda.fields.find? (·.role == .subcommand) =
      some ⟨.subcommand, 2, .unsigned⟩ := rfl
  obtain ⟨a, ha, hmem, hfield⟩ := Operand.find?_of_cut hcut hf
  obtain ⟨-, hfits⟩ := Operand.of_mem_cut hcut hmem
  have hwidth : a.width = 2 := congrArg Field.width hfield
  have hbits : bits ⟨.choRda, operands, word⟩ .subcommand = a.bits := by
    unfold bits operand?
    simp only [ha]
  refine ⟨a.bits.toNat, ?_, by rw [hbits, UInt32.ofNat_toNat]⟩
  rw [← hfits, hwidth, UInt32.toNat_and]
  exact Nat.lt_succ_of_le Nat.and_le_right

/-- Operands suit the mnemonic that they make of a family. -/
theorem suits_resolved {family : Mnemonic} {operands : List Operand}
    (hfamily : Mnemonic.ofWord? word = some family)
    (hcut : Operand.cut? family.fields (word >>> 5) = some operands) :
    (resolved ⟨family, operands, word⟩).Suits ⟨family, operands, word⟩ := by
  have hself := (Mnemonic.ofWord?_eq_some_iff.mp hfamily).1
  unfold resolved
  cases family with
  | and | xor | rdfx | maxx | skp =>
    dsimp only
    split
    · next h => exact h
    · next h => exact h
  | wlds => exact bits_of_constant hcut rfl rfl
  | wldr => exact bits_of_constant hcut rfl rfl
  | choRda =>
    obtain ⟨n, hn, hbits⟩ := subcommand_cases hcut
    dsimp only
    rw [hbits]
    match n, hn, hbits with
    | 0, _, hbits | 1, _, hbits | 2, _, hbits | 3, _, hbits => exact hbits
  | ldax | absa | clr | not | nop | choSof | choRdal | choReserved => cases hself
  | _ => trivial

theorem family_resolved (op : Operation) : op.resolved.family = op.mnemonic.family := by
  unfold resolved
  cases op.mnemonic with
  | and | xor | rdfx | maxx | skp | choRda => dsimp only; split <;> rfl
  | _ => rfl

/-- A mnemonic with the opcode of the word that suits the operands is of the family of the
    word. -/
theorem family_eq_of_suits {family m : Mnemonic} {operands : List Operand}
    (hfamily : Mnemonic.ofWord? word = some family)
    (hcut : Operand.cut? family.fields (word >>> 5) = some operands)
    (hopcode : word &&& 0x1f = m.opcode) (h : m.Suits ⟨family, operands, word⟩) :
    family = m.family := by
  have hselected := Option.some.inj (hfamily.symm.trans (Mnemonic.ofWord?_of_opcode hopcode))
  split at hselected
  · next hload =>
    -- Both loads have the opcode, and only the selector bits tell one from the other.
    split at hselected
    · subst hselected
      obtain rfl | rfl := Mnemonic.load_of_opcode hload
      · rfl
      · have hsine : bits ⟨.wlds, operands, word⟩ .selector = 0 := bits_of_constant hcut rfl rfl
        exact absurd (hsine.symm.trans h) (by decide)
    · subst hselected
      obtain rfl | rfl := Mnemonic.load_of_opcode hload
      · have hramp : bits ⟨.wldr, operands, word⟩ .selector = 1 := bits_of_constant hcut rfl rfl
        exact absurd (hramp.symm.trans h) (by decide)
      · rfl
  · exact hselected

/-- The mnemonic of a decoded word is the one that has its opcode and suits its operands. -/
theorem mnemonic_eq_iff (h : decode word = .ok op) (m : Mnemonic) :
    op.mnemonic = m ↔ word &&& 0x1f = m.opcode ∧ m.Suits op := by
  obtain ⟨family, operands, hfamily, hcut, rfl⟩ := decode_eq_ok_iff.mp h
  constructor
  · rintro rfl
    refine ⟨?_, suits_resolved hfamily hcut⟩
    rw [Mnemonic.opcode_of_ofWord hfamily, ← Mnemonic.opcode_family (resolved _), family_resolved,
      Mnemonic.opcode_family]
  · rintro ⟨hopcode, hsuits⟩
    exact resolved_of_suits (family_eq_of_suits hfamily hcut hopcode hsuits) hsuits

/-! ## The bits that decoding keeps -/

/-- The place of the lowest bit of operand `i` in the word. -/
def place (op : Operation) (i : Nat) : Nat :=
  5 + Field.start (op.operands.map (·.toField)) i

/-- The operands stand side by side from bit 5 to the end of the word. Each has the bits of the
    word at its place, or none if it is ignored, and exactly these count for the instruction,
    along with the opcode. -/
structure Tiles (op : Operation) (word : UInt32) : Prop where
  opcode : op.mnemonic.opcode = word &&& 0x1f
  covers : ∀ b, 5 ≤ b → b < 32 →
    ∃! i, i < op.operands.length ∧ op.place i ≤ b ∧ b < op.place (i + 1)
  within : ∀ i, op.place i ≤ 32
  bits : ∀ i a, op.operands[i]? = some a →
    a.bits = if a.kind = .ignored then 0
      else (word >>> UInt32.ofNat (op.place i)) &&& lowMask a.width
  significantOpcode : ∀ b < 5, bitAt op.mnemonic.significant b = true
  significant : ∀ i a, op.operands[i]? = some a → ∀ b, op.place i ≤ b → b < op.place (i + 1) →
    bitAt op.mnemonic.significant b = decide (a.kind ≠ .ignored)

/-- The bits of the opcode count, and from there on those of the fields. -/
theorem bitAt_significant (m : Mnemonic) {b : Nat} (h : b < 32) :
    bitAt m.significant b =
      if b < 5 then true else bitAt (Field.keptBits m.fields) (b - 5) := by
  rw [Mnemonic.significant, bitAt_or, bitAt_lowMask 5 h, bitAt_shiftLeft _ (by decide)]
  by_cases hlow : b < 5 <;> simp [hlow, h]

/-- The operands of a decoded word are cut by the fields of its mnemonic. -/
theorem cut_of_decode (h : decode word = .ok op) :
    Operand.cut? op.mnemonic.fields (word >>> 5) = some op.operands := by
  obtain ⟨family, operands, -, hcut, rfl⟩ := decode_eq_ok_iff.mp h
  dsimp only
  rw [fields_resolved]
  exact hcut

theorem tiles_of_decode (h : decode word = .ok op) : op.Tiles word := by
  have hcut := cut_of_decode h
  -- The operands have the widths of the template's fields, so the places are those of the fields.
  have hfields := Operand.map_toField_of_cut hcut
  have hlength : op.operands.length = op.mnemonic.fields.length := by
    rw [← hfields, List.length_map]
  have hend := op.mnemonic.end_fields
  have hplace : ∀ i, op.place i = 5 + Field.start op.mnemonic.fields i := fun i => by
    rw [place, hfields]
  have hwithin : ∀ i, op.place i ≤ 32 := fun i => by
    have hle := Field.start_le_end op.mnemonic.fields i
    rw [hplace]
    omega
  refine ⟨((mnemonic_eq_iff h op.mnemonic).mp rfl).1.symm, ?_, hwithin, ?_, ?_, ?_⟩
  · intro b hlo hhi
    have hin : b - 5 < Field.start op.mnemonic.fields op.mnemonic.fields.length := by omega
    obtain ⟨i, ⟨hi, hilo, hihi⟩, honly⟩ := Field.existsUnique_field op.mnemonic.fields hin
    simp only [hlength, hplace]
    refine ⟨i, ⟨hi, by omega, by omega⟩, ?_⟩
    rintro k ⟨hk, hklo, hkhi⟩
    exact honly k ⟨hk, by omega, by omega⟩
  · intro i a ha
    have hi : i < op.mnemonic.fields.length := hlength ▸ (List.getElem?_eq_some_iff.mp ha).1
    have hstart := op.mnemonic.start_fields_lt i hi
    rw [Operand.bits_of_cut op.mnemonic.end_fields_lt hcut ha, shiftRight_five word (by omega),
      hplace, Field.keptMask]
    split
    · exact UInt32.and_zero
    · rfl
  · intro b hb
    rw [bitAt_significant _ (by omega), if_pos hb]
  · intro i a ha b hlo hhi
    have hb : b < 32 := Nat.lt_of_lt_of_le hhi (hwithin _)
    have hf : op.mnemonic.fields[i]? = some a.toField := by
      rw [← hfields, List.getElem?_map, ha]
      rfl
    rw [hplace] at hlo hhi
    rw [bitAt_significant _ hb, if_neg (by omega)]
    exact Field.bitAt_keptBits op.mnemonic.end_fields_lt hf (by omega) (by omega)

/-- Encoding gives the word back without the bits of ignored fields. -/
theorem encode_of_decode (h : decode word = .ok op) :
    op.encode = word &&& op.mnemonic.significant := by
  have hopcode := ((mnemonic_eq_iff h op.mnemonic).mp rfl).1
  have hup : ∀ bits : UInt32, bits <<< 5 = bits <<< UInt32.ofNat 5 := fun _ => rfl
  rw [encode, ← hopcode, ← lowMask_five, hup,
    Operand.join_cut op.mnemonic.end_fields_lt (cut_of_decode h)]
  -- The opcode has the bits below bit 5 and the joined operands those above.
  refine eq_of_bitAt fun i hi => ?_
  rw [bitAt_or, bitAt_and, bitAt_lowMask 5 hi, bitAt_shiftLeft _ (by decide), bitAt_and,
    bitAt_shiftRight_five, bitAt_and, bitAt_significant _ hi]
  by_cases hlow : i < 5
  · simp [hlow]
  · have hback : 5 + (i - 5) = i := by omega
    simp [hlow, hi, hback]

/-- The highest two bits count for an oscillator load. -/
theorem significant_of_load {m : Mnemonic} (h : m = .wlds ∨ m = .wldr) :
    bitAt m.significant 30 = true ∧ bitAt m.significant 31 = true := by
  obtain rfl | rfl := h <;> decide

/-- A family selects every word that agrees with one of its own on the significant bits. -/
theorem ofWord?_congr {family : Mnemonic} (h : Mnemonic.ofWord? word = some family)
    (hagree : ∀ b < 32, bitAt family.significant b = true → bitAt word' b = bitAt word b) :
    Mnemonic.ofWord? word' = some family := by
  obtain ⟨hself, hopcode, hwlds, hwldr⟩ := Mnemonic.ofWord?_eq_some_iff.mp h
  have hlow : word' &&& 0x1f = word &&& 0x1f := by
    rw [← lowMask_five]
    refine eq_of_bitAt fun i hi => ?_
    rw [bitAt_and, bitAt_and, bitAt_lowMask 5 hi]
    by_cases hin : i < 5
    · rw [hagree i hi (by rw [bitAt_significant _ hi, if_pos hin])]
    · rw [decide_eq_false hin, Bool.and_false, Bool.and_false]
  have hhigh : family = .wlds ∨ family = .wldr → word' >>> 30 = word >>> 30 := by
    intro hload
    obtain ⟨hlast, hfirst⟩ := significant_of_load hload
    refine eq_of_bitAt fun i _ => ?_
    rw [bitAt_shiftRight_thirty, bitAt_shiftRight_thirty]
    match i with
    | 0 => exact hagree 30 (by decide) hlast
    | 1 => exact hagree 31 (by decide) hfirst
    | i + 2 => rw [bitAt_of_le word' (by omega), bitAt_of_le word (by omega)]
  refine Mnemonic.ofWord?_eq_some_iff.mpr ⟨hself, hlow.trans hopcode, fun hm => ?_, fun hm => ?_⟩
  · rw [hhigh (.inl hm)]
    exact hwlds hm
  · rw [hhigh (.inr hm)]
    exact hwldr hm

/-- A word that agrees on the significant bits of a decoded one is decoded to the same. -/
theorem decode_congr (h : decode word = .ok op)
    (hagree : word' &&& op.mnemonic.significant = word &&& op.mnemonic.significant) :
    decode word' = .ok { op with word := word' } := by
  have hbit : ∀ b < 32, bitAt op.mnemonic.significant b = true → bitAt word' b = bitAt word b := by
    intro b _ hsignificant
    have hb := congrArg (bitAt · b) hagree
    rw [bitAt_and, bitAt_and, hsignificant, Bool.and_true, Bool.and_true] at hb
    exact hb
  have hkept : (word' >>> 5) &&& Field.keptBits op.mnemonic.fields =
      (word >>> 5) &&& Field.keptBits op.mnemonic.fields := by
    refine eq_of_bitAt fun i _ => ?_
    rw [bitAt_and, bitAt_and, bitAt_shiftRight_five, bitAt_shiftRight_five]
    by_cases hin : 5 + i < 32
    · have hfield := bitAt_significant op.mnemonic hin
      rw [if_neg (by omega), Nat.add_sub_cancel_left] at hfield
      cases hcounts : bitAt (Field.keptBits op.mnemonic.fields) i with
      | false => rw [Bool.and_false, Bool.and_false]
      | true => rw [hbit (5 + i) hin (hfield.trans hcounts)]
    · rw [bitAt_of_le word' (by omega), bitAt_of_le word (by omega)]
  -- Both the family and the operands are functions of the significant bits, and they are all
  -- that the mnemonic is made of.
  obtain ⟨family, operands, hfamily, hcut, rfl⟩ := decode_eq_ok_iff.mp h
  dsimp only at hbit hkept
  rw [fields_resolved] at hkept
  have hsignificant : (resolved ⟨family, operands, word⟩).significant = family.significant := by
    rw [Mnemonic.significant, fields_resolved, Mnemonic.significant]
  rw [hsignificant] at hbit
  refine decode_eq_ok_iff.mpr ⟨family, operands, ofWord?_congr hfamily hbit, ?_, rfl⟩
  rw [Operand.cut?_congr family.end_fields_lt hkept]
  exact hcut

end Operation
end EffectsDsp
