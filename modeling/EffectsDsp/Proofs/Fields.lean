/-
  EffectsDsp.Proofs.Fields

  Fields that stand side by side. `Operand.cut?` takes the bits of a word apart and
  `Operand.join` puts operands together again. What is lost between the two are the bits of
  the fields that are ignored: `Field.keptBits` has all others, and cutting looks at nothing
  else (`cut?_congr`), so that joining gives back the word on these bits (`join_cut`).

  The proofs go by single bits. Cutting the first field moves the others down by its width
  and joining moves them up again, which is an induction on the fields.
-/

import Mathlib.Logic.ExistsUnique
import EffectsDsp.Proofs.Decoded

namespace EffectsDsp

/-! ## Bits of a word -/

/-- Bit `i` of a word; bit zero is the lowest. -/
def bitAt (word : UInt32) (i : Nat) : Bool :=
  word.toBitVec.getLsbD i

theorem eq_of_bitAt {a b : UInt32} (h : ∀ i < 32, bitAt a i = bitAt b i) : a = b :=
  UInt32.eq_of_toBitVec_eq (BitVec.eq_of_getLsbD_eq h)

theorem bitAt_of_le (word : UInt32) {i : Nat} (h : 32 ≤ i) : bitAt word i = false :=
  BitVec.getLsbD_of_ge _ _ h

@[simp] theorem bitAt_zero (i : Nat) : bitAt 0 i = false :=
  BitVec.getLsbD_zero

@[simp] theorem bitAt_and (a b : UInt32) (i : Nat) :
    bitAt (a &&& b) i = (bitAt a i && bitAt b i) :=
  BitVec.getLsbD_and

@[simp] theorem bitAt_or (a b : UInt32) (i : Nat) :
    bitAt (a ||| b) i = (bitAt a i || bitAt b i) :=
  BitVec.getLsbD_or

/-- A shift by less than the width of a word is one by its number. -/
theorem toNat_toBitVec_mod {n : Nat} (h : n < 32) :
    ((UInt32.ofNat n).toBitVec % 32).toNat = n := by
  show (n % 2 ^ 32) % 32 = n
  omega

theorem bitAt_shiftRight (word : UInt32) {n : Nat} (h : n < 32) (i : Nat) :
    bitAt (word >>> UInt32.ofNat n) i = bitAt word (n + i) := by
  unfold bitAt
  rw [UInt32.toBitVec_shiftRight, BitVec.ushiftRight_eq', toNat_toBitVec_mod h,
    BitVec.getLsbD_ushiftRight]

theorem bitAt_shiftLeft (word : UInt32) {n : Nat} (h : n < 32) (i : Nat) :
    bitAt (word <<< UInt32.ofNat n) i =
      (decide (i < 32) && !decide (i < n) && bitAt word (i - n)) := by
  unfold bitAt
  rw [UInt32.toBitVec_shiftLeft, BitVec.shiftLeft_eq', toNat_toBitVec_mod h,
    BitVec.getLsbD_shiftLeft]

theorem bitAt_lowMask (n : Nat) {i : Nat} (h : i < 32) : bitAt (lowMask n) i = decide (i < n) := by
  show ((BitVec.allOnes (min n 32)).setWidth 32).getLsbD i = _
  rw [BitVec.getLsbD_setWidth, BitVec.getLsbD_allOnes, decide_eq_true h, Bool.true_and]
  exact decide_eq_decide.mpr (by omega)

/-! ## Bits that count -/

namespace Field

/-- The bits of a field that count, moved down to bit zero. -/
def keptMask (f : Field) : UInt32 :=
  if f.kind = .ignored then 0 else lowMask f.width

/-- The bits that count in fields side by side, the first in the lowest bits. -/
def keptBits : List Field → UInt32
  | [] => 0
  | f :: fields => f.keptMask ||| (keptBits fields <<< UInt32.ofNat f.width)

/-- The place of the lowest bit of field `i`, where the first field starts at zero. -/
def start : List Field → Nat → Nat
  | f :: fields, i + 1 => f.width + start fields i
  | _, _ => 0

theorem start_zero (fields : List Field) : start fields 0 = 0 := by
  cases fields <;> rfl

theorem start_cons_succ (f : Field) (fields : List Field) (i : Nat) :
    start (f :: fields) (i + 1) = f.width + start fields i :=
  rfl

/-- The first of several fields that end within a word is narrower than it, and so do the
    others end within it. -/
theorem end_cons {f : Field} {fields : List Field}
    (hend : start (f :: fields) (f :: fields).length < 32) :
    f.width < 32 ∧ start fields fields.length < 32 := by
  rw [List.length_cons, start_cons_succ] at hend
  omega

theorem start_le_end (fields : List Field) (i : Nat) :
    start fields i ≤ start fields fields.length := by
  induction fields generalizing i with
  | nil => exact Nat.le_of_eq (by simp only [start])
  | cons f fields ih =>
    cases i with
    | zero => exact Nat.zero_le _
    | succ i =>
      rw [List.length_cons, start_cons_succ, start_cons_succ]
      exact Nat.add_le_add_left (ih i) _

theorem bitAt_keptMask (f : Field) {i : Nat} (h : i < 32) :
    bitAt f.keptMask i = (decide (f.kind ≠ .ignored) && decide (i < f.width)) := by
  unfold keptMask
  by_cases hkind : f.kind = .ignored
  · simp [hkind]
  · simp [hkind, bitAt_lowMask f.width h]

theorem bitAt_keptBits_cons {f : Field} (hwidth : f.width < 32) (fields : List Field) {i : Nat}
    (h : i < 32) :
    bitAt (keptBits (f :: fields)) i =
      if i < f.width then decide (f.kind ≠ .ignored)
      else bitAt (keptBits fields) (i - f.width) := by
  rw [keptBits, bitAt_or, bitAt_keptMask f h, bitAt_shiftLeft _ hwidth]
  by_cases hlow : i < f.width <;> simp [hlow, h]

/-- A bit of a field counts unless the field is ignored. -/
theorem bitAt_keptBits {fields : List Field} (hend : start fields fields.length < 32) {i : Nat}
    {f : Field} (hf : fields[i]? = some f) {place : Nat} (hlo : start fields i ≤ place)
    (hhi : place < start fields (i + 1)) :
    bitAt (keptBits fields) place = decide (f.kind ≠ .ignored) := by
  induction fields generalizing i place with
  | nil => cases hf
  | cons first fields ih =>
    obtain ⟨hwidth, hothers⟩ := end_cons hend
    have hin := start_le_end (first :: fields) (i + 1)
    rw [bitAt_keptBits_cons hwidth fields (by omega)]
    rw [start_cons_succ] at hhi
    -- A place behind the first field is one of the others, moved down by its width.
    cases i with
    | zero =>
      obtain rfl : first = f := Option.some.inj hf
      rw [start_zero, Nat.add_zero] at hhi
      rw [if_pos hhi]
    | succ i =>
      rw [start_cons_succ] at hlo
      rw [if_neg (by omega)]
      exact ih hothers hf (by omega) (by omega)

/-- Every place belongs to one of the fields, and to one only. -/
theorem existsUnique_field (fields : List Field) {place : Nat}
    (h : place < start fields fields.length) :
    ∃! i, i < fields.length ∧ start fields i ≤ place ∧ place < start fields (i + 1) := by
  induction fields generalizing place with
  | nil => cases h
  | cons f fields ih =>
    rw [List.length_cons, start_cons_succ] at h
    by_cases hfirst : place < f.width
    · refine ⟨0, ⟨Nat.succ_pos _, Nat.zero_le _, ?_⟩, ?_⟩
      · rw [start_cons_succ]
        omega
      · rintro (_ | i) ⟨-, hlo, -⟩
        · rfl
        · rw [start_cons_succ] at hlo
          omega
    · have hbehind : place - f.width < start fields fields.length := by omega
      obtain ⟨i, ⟨hi, hlo, hhi⟩, honly⟩ := ih hbehind
      refine ⟨i + 1, ⟨Nat.succ_lt_succ hi, ?_, ?_⟩, ?_⟩
      · rw [start_cons_succ]
        omega
      · rw [start_cons_succ]
        omega
      · rintro (_ | k) ⟨hk, hklo, hkhi⟩
        · rw [start_cons_succ, start_zero] at hkhi
          omega
        · rw [start_cons_succ] at hklo hkhi
          rw [honly k ⟨Nat.lt_of_succ_lt_succ hk, by omega, by omega⟩]

end Field

/-! ## Cutting and joining -/

namespace Operand

open EffectsDsp.Field (keptBits start)

variable {fields : List Field} {bits bits' : UInt32} {operands : List Operand}

/-- Cutting is cutting the first field and then the others. -/
theorem cut?_cons_eq_some {f : Field} :
    cut? (f :: fields) bits = some operands ↔
      ∃ kept others, f.accept? (bits &&& lowMask f.width) = some kept ∧
        cut? fields (bits >>> UInt32.ofNat f.width) = some others ∧
        operands = { f with bits := kept } :: others := by
  constructor
  · intro h
    obtain ⟨kept, hkept, h⟩ := Option.bind_eq_some_iff.mp h
    obtain ⟨others, hothers, h⟩ := Option.bind_eq_some_iff.mp h
    exact ⟨kept, others, hkept, hothers, (Option.some.inj h).symm⟩
  · rintro ⟨kept, others, hkept, hothers, rfl⟩
    exact Option.bind_eq_some_iff.mpr
      ⟨kept, hkept, Option.bind_eq_some_iff.mpr ⟨others, hothers, rfl⟩⟩

/-- The operands that are cut are the fields. -/
theorem map_toField_of_cut (h : cut? fields bits = some operands) :
    operands.map (·.toField) = fields := by
  induction fields generalizing bits operands with
  | nil =>
    obtain rfl := Option.some.inj h
    rfl
  | cons f fields ih =>
    obtain ⟨kept, others, -, hothers, rfl⟩ := cut?_cons_eq_some.mp h
    rw [List.map_cons, ih hothers]

/-- What a field keeps are those of its bits that count. -/
theorem accept?_eq {f : Field} {kept : UInt32}
    (h : f.accept? (bits &&& lowMask f.width) = some kept) : kept = bits &&& f.keptMask := by
  unfold Field.accept? at h
  unfold Field.keptMask
  split at h
  · next hkind =>
    obtain rfl := Option.some.inj h
    rw [if_pos hkind, UInt32.and_zero]
  · next expected hkind =>
    have hcounts : f.kind ≠ .ignored := by
      rw [hkind]
      exact FieldKind.noConfusion
    split at h
    · rw [if_neg hcounts, Option.some.inj h]
    · cases h
  · next hcounts _ => rw [if_neg hcounts, Option.some.inj h]

/-- A field refuses bits that differ from the constant that it has to be. -/
theorem accept?_isSome_iff {f : Field} :
    (∃ kept, f.accept? bits = some kept) ↔ ∀ expected, f.kind = .constant expected →
      bits = expected := by
  unfold Field.accept?
  cases hkind : f.kind with
  | constant expected =>
    by_cases hbits : bits = expected
    · simp [hbits]
    · simp [hbits]
  | _ => simp

/-- Whether a field takes its bits, and what it keeps of them, depends on those only that
    count. -/
theorem accept?_congr {f : Field} (h : bits &&& f.keptMask = bits' &&& f.keptMask) :
    f.accept? (bits &&& lowMask f.width) = f.accept? (bits' &&& lowMask f.width) := by
  unfold Field.keptMask at h
  by_cases hkind : f.kind = .ignored
  · unfold Field.accept?
    rw [hkind]
  · rw [if_neg hkind] at h
    rw [h]

/-- Words that agree on the bits that count agree on those of the first field and, moved down,
    on those of the others. -/
theorem and_keptBits_cons {f : Field} (hwidth : f.width < 32)
    (h : bits &&& keptBits (f :: fields) = bits' &&& keptBits (f :: fields)) :
    bits &&& f.keptMask = bits' &&& f.keptMask ∧
      (bits >>> UInt32.ofNat f.width) &&& keptBits fields =
        (bits' >>> UInt32.ofNat f.width) &&& keptBits fields := by
  -- Each bit of the words counts in one of the two: the low ones in the first field.
  have hbit : ∀ i < 32, (bitAt bits i && bitAt (keptBits (f :: fields)) i) =
      (bitAt bits' i && bitAt (keptBits (f :: fields)) i) := fun i _ => by
    rw [← bitAt_and, h, bitAt_and]
  constructor
  · refine eq_of_bitAt fun i hi => ?_
    have hbits := hbit i hi
    rw [Field.bitAt_keptBits_cons hwidth fields hi] at hbits
    rw [bitAt_and, bitAt_and, Field.bitAt_keptMask f hi]
    by_cases hlow : i < f.width
    · rw [if_pos hlow] at hbits
      rw [decide_eq_true hlow, Bool.and_true, hbits]
    · rw [decide_eq_false hlow, Bool.and_false, Bool.and_false, Bool.and_false]
  · refine eq_of_bitAt fun i hi => ?_
    rw [bitAt_and, bitAt_and, bitAt_shiftRight _ hwidth, bitAt_shiftRight _ hwidth]
    by_cases hin : f.width + i < 32
    · have hbits := hbit (f.width + i) hin
      rw [Field.bitAt_keptBits_cons hwidth fields hin, if_neg (by omega),
        Nat.add_sub_cancel_left] at hbits
      exact hbits
    · rw [bitAt_of_le bits (by omega), bitAt_of_le bits' (by omega)]

/-- Cutting looks at the bits that count only. -/
theorem cut?_congr (hend : start fields fields.length < 32)
    (h : bits &&& keptBits fields = bits' &&& keptBits fields) :
    cut? fields bits = cut? fields bits' := by
  induction fields generalizing bits bits' with
  | nil => rfl
  | cons f fields ih =>
    obtain ⟨hwidth, hend⟩ := Field.end_cons hend
    obtain ⟨hfirst, hothers⟩ := and_keptBits_cons hwidth h
    unfold cut?
    rw [accept?_congr hfirst, ih hend hothers]

/-- Operands that are joined are the bits they were cut from, as far as these count. -/
theorem join_cut (hend : start fields fields.length < 32)
    (h : cut? fields bits = some operands) : join operands = bits &&& keptBits fields := by
  induction fields generalizing bits operands with
  | nil =>
    obtain rfl := Option.some.inj h
    exact UInt32.and_zero.symm
  | cons f fields ih =>
    obtain ⟨kept, others, hkept, hothers, rfl⟩ := cut?_cons_eq_some.mp h
    obtain ⟨hwidth, hend⟩ := Field.end_cons hend
    refine eq_of_bitAt fun i hi => ?_
    rw [join, ih hend hothers, accept?_eq hkept, bitAt_and,
      Field.bitAt_keptBits_cons hwidth fields hi, bitAt_or, bitAt_and, bitAt_and,
      Field.bitAt_keptMask f hi, bitAt_lowMask _ hi, bitAt_shiftLeft _ hwidth, bitAt_and,
      bitAt_shiftRight _ hwidth]
    by_cases hlow : i < f.width
    · simp [hlow]
    · have hback : f.width + (i - f.width) = i := by omega
      simp [hlow, hi, hback]

/-- Moving down twice is moving down by the sum. -/
theorem shiftRight_shiftRight (word : UInt32) {n k : Nat} (h : n + k < 32) :
    (word >>> UInt32.ofNat n) >>> UInt32.ofNat k = word >>> UInt32.ofNat (n + k) := by
  refine eq_of_bitAt fun i _ => ?_
  rw [bitAt_shiftRight _ (by omega), bitAt_shiftRight _ (by omega), bitAt_shiftRight _ h,
    Nat.add_assoc]

/-- Operand `i` has the bits from the start of its field on, unless they are ignored. -/
theorem bits_of_cut (hend : start fields fields.length < 32)
    (h : cut? fields bits = some operands) {i : Nat} {a : Operand} (ha : operands[i]? = some a) :
    a.bits = (bits >>> UInt32.ofNat (start fields i)) &&& a.keptMask := by
  induction fields generalizing bits operands i with
  | nil =>
    obtain rfl := Option.some.inj h
    cases ha
  | cons f fields ih =>
    obtain ⟨kept, others, hkept, hothers, rfl⟩ := cut?_cons_eq_some.mp h
    cases i with
    | zero =>
      obtain rfl := Option.some.inj ha
      have hstart : bits >>> UInt32.ofNat (start (f :: fields) 0) = bits := UInt32.shiftRight_zero
      rw [hstart]
      exact accept?_eq hkept
    | succ i =>
      have hstart := Field.start_le_end (f :: fields) (i + 1)
      rw [Field.start_cons_succ] at hstart ⊢
      rw [ih (Field.end_cons hend).2 hothers ha, shiftRight_shiftRight _ (by omega)]

/-- Only a field of constant bits refuses what it is given. -/
theorem exists_cut_iff (bits : UInt32) (hend : start fields fields.length < 32) :
    (∃ operands, cut? fields bits = some operands) ↔
      ∀ i f expected, fields[i]? = some f → f.kind = .constant expected →
        (bits >>> UInt32.ofNat (start fields i)) &&& lowMask f.width = expected := by
  induction fields generalizing bits with
  | nil =>
    refine ⟨fun _ i f expected hf => ?_, fun _ => ⟨[], rfl⟩⟩
    cases hf
  | cons f fields ih =>
    have hfirst : bits >>> UInt32.ofNat (start (f :: fields) 0) = bits := UInt32.shiftRight_zero
    -- The other fields see what is left of the bits behind the first.
    have hothers : ∀ i, (bits >>> UInt32.ofNat f.width) >>> UInt32.ofNat (start fields i) =
        bits >>> UInt32.ofNat (start (f :: fields) (i + 1)) := fun i => by
      have hstart := Field.start_le_end (f :: fields) (i + 1)
      rw [Field.start_cons_succ] at hstart ⊢
      exact shiftRight_shiftRight _ (by omega)
    have htail := ih (bits >>> UInt32.ofNat f.width) (Field.end_cons hend).2
    constructor
    · rintro ⟨operands, h⟩ i g expected hg hkind
      obtain ⟨kept, others, hkept, hcut, -⟩ := cut?_cons_eq_some.mp h
      cases i with
      | zero =>
        obtain rfl : f = g := Option.some.inj hg
        rw [hfirst]
        exact (accept?_isSome_iff.mp ⟨kept, hkept⟩) expected hkind
      | succ i =>
        rw [← hothers]
        exact htail.mp ⟨others, hcut⟩ i g expected hg hkind
    · intro h
      have haccept : ∃ kept, f.accept? (bits &&& lowMask f.width) = some kept := by
        refine accept?_isSome_iff.mpr fun expected hkind => ?_
        rw [← hfirst]
        exact h 0 f expected rfl hkind
      obtain ⟨kept, hkept⟩ := haccept
      obtain ⟨others, hcut⟩ := htail.mpr fun i g expected hg hkind => by
        rw [hothers]
        exact h (i + 1) g expected hg hkind
      exact ⟨_, cut?_cons_eq_some.mpr ⟨kept, others, hkept, hcut, rfl⟩⟩

end Operand
end EffectsDsp
