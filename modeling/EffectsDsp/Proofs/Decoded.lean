/-
  EffectsDsp.Proofs.Decoded

  What is known of an operation that a word encodes: its operands are fields of its
  instruction, also where the mnemonic is an alias, and none has bits beyond its field. So
  some things that an operation could ask for no word does: LDAX loads the first register
  only, and WLDS names a sine.
-/

import EffectsDsp.Proofs.Session

namespace EffectsDsp

/-! ## Operands -/

/-- A field keeps no bit that it was not given. -/
theorem Field.accept?_fits {f : Field} {bits kept : UInt32}
    (h : f.accept? (bits &&& lowMask f.width) = some kept) : kept &&& lowMask f.width = kept := by
  have hgiven : bits &&& lowMask f.width &&& lowMask f.width = bits &&& lowMask f.width := by
    rw [UInt32.and_assoc, UInt32.and_self]
  unfold Field.accept? at h
  split at h
  · obtain rfl := Option.some.inj h
    exact UInt32.zero_and
  · split at h
    · obtain rfl := Option.some.inj h
      exact hgiven
    · cases h
  · obtain rfl := Option.some.inj h
    exact hgiven

/-- The operands cut from a word are its fields, with bits that fit them. -/
theorem Operand.of_mem_cut {fields : List Field} {bits : UInt32} {operands : List Operand}
    (h : Operand.cut? fields bits = some operands) {a : Operand} (ha : a ∈ operands) :
    a.toField ∈ fields ∧ a.bits &&& lowMask a.width = a.bits := by
  induction fields generalizing bits operands with
  | nil =>
    obtain rfl := Option.some.inj h
    cases ha
  | cons f fields ih =>
    unfold Operand.cut? at h
    obtain ⟨kept, hkept, h⟩ := Option.bind_eq_some_iff.mp h
    obtain ⟨others, hothers, h⟩ := Option.bind_eq_some_iff.mp h
    obtain rfl := Option.some.inj h
    obtain rfl | ha := List.mem_cons.mp ha
    · exact ⟨List.mem_cons_self, Field.accept?_fits hkept⟩
    · obtain ⟨hfield, hfits⟩ := ih hothers ha
      exact ⟨List.mem_cons_of_mem _ hfield, hfits⟩

namespace Operation

/-- An alias has the fields of the instruction that it spells. -/
theorem fields_resolved (op : Operation) : op.resolved.fields = op.mnemonic.fields := by
  unfold resolved
  cases op.mnemonic with
  | and | xor | rdfx | maxx | skp | choRda => dsimp only; split <;> rfl
  | _ => rfl

/-- A word that is decoded gives the operands of the instruction that its opcode selects, and
    the mnemonic that they make of it. -/
theorem decode_eq_ok_iff {word : UInt32} {op : Operation} :
    decode word = .ok op ↔
      ∃ family operands, Mnemonic.ofWord? word = some family ∧
        Operand.cut? family.fields (word >>> 5) = some operands ∧
        op = { mnemonic := resolved ⟨family, operands, word⟩, operands, word } := by
  constructor
  · intro h
    unfold decode at h
    split at h
    · cases h
    · next family hfamily =>
      split at h
      · cases h
      · next operands hcut =>
        exact ⟨family, operands, hfamily, hcut, (Except.ok.inj h).symm⟩
  · rintro ⟨family, operands, hfamily, hcut, rfl⟩
    simp only [decode, hfamily, hcut]

theorem IsDecoded.exists_family {op : Operation} (h : op.IsDecoded) :
    ∃ word family operands, Mnemonic.ofWord? word = some family ∧
      Operand.cut? family.fields (word >>> 5) = some operands ∧
      op = { mnemonic := resolved ⟨family, operands, word⟩, operands, word } := by
  obtain ⟨word, hdecode⟩ := h
  exact ⟨word, decode_eq_ok_iff.mp hdecode⟩

/-- Every operand of a decoded operation is a field of its instruction. -/
theorem IsDecoded.of_mem_operands {op : Operation} (h : op.IsDecoded) {a : Operand}
    (ha : a ∈ op.operands) :
    a.toField ∈ op.mnemonic.fields ∧ a.bits &&& lowMask a.width = a.bits := by
  obtain ⟨word, family, operands, -, hcut, rfl⟩ := h.exists_family
  dsimp only
  rw [fields_resolved]
  exact Operand.of_mem_cut hcut ha

/-- An operand that is looked for by its role has it. -/
theorem role_of_operand? {op : Operation} {role : Role} {a : Operand}
    (h : op.operand? role = some a) : a.role = role := by
  unfold operand? at h
  have hfound := List.find?_some h
  exact eq_of_beq hfound

/-- The bits with a role fit the field that has this role in the instruction. -/
theorem IsDecoded.bits_fit {op : Operation} (h : op.IsDecoded) {role : Role} {width : Nat}
    (hwidth : ∀ f ∈ op.mnemonic.fields, f.role = role → f.width = width) :
    op.bits role &&& lowMask width = op.bits role := by
  unfold bits
  cases hfind : op.operand? role with
  | none => exact UInt32.zero_and
  | some a =>
    obtain ⟨hfield, hfits⟩ := h.of_mem_operands (List.mem_of_find?_eq_some hfind)
    rw [hwidth a.toField hfield (role_of_operand? hfind)] at hfits
    exact hfits

theorem IsDecoded.toNat_bits_le {op : Operation} (h : op.IsDecoded) {role : Role} {width : Nat}
    (hwidth : ∀ f ∈ op.mnemonic.fields, f.role = role → f.width = width) :
    (op.bits role).toNat ≤ (lowMask width).toNat := by
  rw [← h.bits_fit hwidth, UInt32.toNat_and]
  exact Nat.and_le_right

/-! ## Operands that no word has -/

/-- No opcode selects LDAX: it is told by the operands of RDFX. -/
theorem ofWord?_ne_ldax (word : UInt32) : Mnemonic.ofWord? word ≠ some .ldax := by
  unfold Mnemonic.ofWord?
  split
  all_goals first
    | (split <;> simp)
    | simp

/-- A decoded LDAX loads the first register. -/
theorem IsDecoded.register_of_ldax {op : Operation} (h : op.IsDecoded)
    (hldax : op.mnemonic = .ldax) : op.bits .register = 0 := by
  obtain ⟨word, family, operands, hfamily, -, rfl⟩ := h.exists_family
  cases family with
  | ldax => exact absurd hfamily (ofWord?_ne_ldax word)
  | rdfx =>
    simp only [resolved] at hldax
    split at hldax
    · next hzero => exact hzero.1
    · cases hldax
  | and | xor | maxx | skp | choRda =>
    simp only [resolved] at hldax
    split at hldax <;> cases hldax
  | _ => cases hldax

/-- A decoded WLDS names a sine oscillator. -/
theorem IsDecoded.isRamp_of_wlds {op : Operation} (h : op.IsDecoded)
    (hwlds : op.mnemonic = .wlds) : (LfoSelect.ofBits (op.bits .oscillator)).isRamp = false := by
  have hfit : op.bits .oscillator &&& lowMask 1 = op.bits .oscillator := by
    apply h.bits_fit
    rw [hwlds]
    decide
  have hvalue : (op.bits .oscillator &&& 3).toNat = (op.bits .oscillator).toNat % 2 := by
    have hmask : lowMask 1 &&& 3 = 1 := by decide
    rw [← hfit, UInt32.and_assoc, hmask, UInt32.toNat_and, hfit]
    exact Nat.and_one_is_mod _
  unfold LfoSelect.ofBits
  rw [hvalue]
  obtain hzero | hone := Nat.mod_two_eq_zero_or_one (op.bits .oscillator).toNat
  · rw [hzero]
    rfl
  · rw [hone]
    rfl

end Operation
end EffectsDsp
