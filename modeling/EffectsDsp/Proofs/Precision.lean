/-
  EffectsDsp.Proofs.Precision

  Comparison at reduced precision. Two values agree at a precision if they are the same number
  of its units, rounded down, so that agreement is an equivalence at each precision and is
  passed on to all coarser ones: there the units are made of those of the finer one.

  Export rounds down to the same units and keeps as many bits as its format has. Values that fit
  a format are told apart by their patterns exactly if they differ in units
  (`toQ_fst_eq_iff_of_fits`). With all integer bits there is nothing that does not fit, and
  agreement is equality of patterns: `agreesAt_iff_toQ`.

  Values that declare several precisions agree at the coarser of two. That is no equivalence: a
  coarse value agrees with two fine ones that differ. A chain is passed on where no value in it
  is coarser than both its ends (`agrees_trans`), so among values of one format.
-/

import EffectsDsp.Proofs.Export

namespace EffectsDsp

/-- The format with this many fraction bits and all integer bits of the internal one. -/
def QFormat.widest (fracBits : Nat) (h : fracBits ≤ 23) : QFormat :=
  ⟨8, fracBits, internal.intBits_le, h⟩

namespace Fixed

variable {x y z : Fixed} {fmt : QFormat} {f g : Nat}

/-! ## Agreement at one precision -/

theorem agreesAt_iff : x.agreesAt y f = true ↔
    x.raw.toInt >>> (23 - f) = y.raw.toInt >>> (23 - f) := by
  unfold agreesAt
  exact beq_iff_eq

/-- Agreement at a precision is equality of the numbers of its units. -/
theorem agreesAt_equivalence (f : Nat) : Equivalence fun x y : Fixed => x.agreesAt y f = true where
  refl _ := agreesAt_iff.mpr rfl
  symm h := agreesAt_iff.mpr (agreesAt_iff.mp h).symm
  trans h h' := agreesAt_iff.mpr ((agreesAt_iff.mp h).trans (agreesAt_iff.mp h'))

theorem agreesAt_comm (x y : Fixed) (f : Nat) : x.agreesAt y f = y.agreesAt x f := by
  rw [Bool.eq_iff_iff]
  exact ⟨(agreesAt_equivalence f).symm, (agreesAt_equivalence f).symm⟩

/-- Agreement is passed on to every coarser precision. -/
theorem agreesAt_of_le (h : x.agreesAt y f = true) (hle : g ≤ f) : x.agreesAt y g = true := by
  -- A coarser unit drops more bits: first those of the finer one, then the others.
  have hdropped : 23 - g = (23 - f) + ((23 - g) - (23 - f)) := by omega
  rw [agreesAt_iff] at h ⊢
  rw [hdropped, Int.shiftRight_add, Int.shiftRight_add, h]

/-- Beyond the precision of the container there is nothing to drop. -/
theorem agreesAt_iff_raw_eq (h : 23 ≤ f) : x.agreesAt y f = true ↔ x.raw = y.raw := by
  have hdropped : 23 - f = 0 := by omega
  rw [agreesAt_iff, hdropped, Int.shiftRight_zero, Int.shiftRight_zero, Int32.toInt_inj]

/-! ## Export -/

/-- The units that are compared at the precision of a format are those that are exported. -/
theorem agreesAt_iff_unitsIn :
    x.agreesAt y fmt.fracBits = true ↔ x.unitsIn fmt = y.unitsIn fmt := by
  rw [agreesAt_iff, ← shiftRight_eq_unitsIn, ← shiftRight_eq_unitsIn]
  rfl

/-- The patterns of values that fit a format tell their numbers of units. -/
theorem toQ_fst_eq_iff_of_fits (hx : (x.toQ fmt).2 = false) (hy : (y.toQ fmt).2 = false) :
    (x.toQ fmt).1 = (y.toQ fmt).1 ↔ x.unitsIn fmt = y.unitsIn fmt := by
  have hunit : (2 : Int) ^ fmt.shift ≠ 0 := (Int.pow_pos (by decide)).ne'
  constructor
  · intro hbits
    -- Import gives both numbers back, and so from one pattern the same number.
    have hnumbers : x.truncated fmt = y.truncated fmt := by
      rw [← ofQ_toQ_of_fits hx, ← ofQ_toQ_of_fits hy, hbits]
    rw [← unitsIn_mul, ← unitsIn_mul] at hnumbers
    exact Int.eq_of_mul_eq_mul_right hunit hnumbers
  · intro hunits
    have hbits : ((x.toQ fmt).1.toNat : Int) = (y.toQ fmt).1.toNat := by
      rw [toNat_toQ, toNat_toQ, hunits]
    exact UInt32.toNat_inj.mp (Int.ofNat_inj.mp hbits)

/-- The bits above and below the unit are all bits of the container but the sign. -/
theorem bounds_unitsIn_widest (x : Fixed) (h : f ≤ 23) :
    -2 ^ (8 + f) ≤ x.unitsIn (.widest f h) ∧ x.unitsIn (.widest f h) < 2 ^ (8 + f) := by
  have hlo := x.raw.le_toInt
  have hhi := x.raw.toInt_lt
  have hunit : (0 : Int) < 2 ^ (23 - f) := Int.pow_pos (by decide)
  have hrange : (2 : Int) ^ (8 + f) * 2 ^ (23 - f) = 2147483648 := by
    have hsum : 8 + f + (23 - f) = 31 := by omega
    rw [← pow_add, hsum]
    rfl
  constructor
  · apply (Int.le_ediv_iff_mul_le hunit).mpr
    rw [Int.neg_mul, hrange]
    exact hlo
  · apply (Int.ediv_lt_iff_lt_mul hunit).mpr
    rw [hrange]
    exact hhi

/-- Every number of the container fits a format with all integer bits. -/
theorem toQ_snd_widest (x : Fixed) (h : f ≤ 23) : (x.toQ (.widest f h)).2 = false := by
  rw [toQ_snd, Bool.not_eq_false', decide_eq_true_eq]
  exact bounds_unitsIn_widest x h

/-- Values agree at a precision if they have one pattern there, with all integer bits in it. -/
theorem agreesAt_iff_toQ (h : f ≤ 23) : x.agreesAt y f = true ↔
    (x.toQ (.widest f h)).1 = (y.toQ (.widest f h)).1 := by
  rw [toQ_fst_eq_iff_of_fits (toQ_snd_widest x h) (toQ_snd_widest y h), ← agreesAt_iff_unitsIn]
  rfl

/-! ## Agreement at the declared precisions -/

theorem agrees_refl (x : Fixed) : x.agrees x = true :=
  (agreesAt_equivalence _).refl x

theorem agrees_comm (x y : Fixed) : x.agrees y = y.agrees x := by
  unfold agrees
  rw [agreesAt_comm, Nat.min_comm]

/-- Agreement is passed on by a value that is not coarser than both others. -/
theorem agrees_trans (hxy : x.agrees y = true) (hyz : y.agrees z = true)
    (hmiddle : min x.format.fracBits z.format.fracBits ≤ y.format.fracBits) :
    x.agrees z = true := by
  -- Both agreements are at a precision that is at least as fine as the one asked for.
  have hfirst : x.agreesAt y (min x.format.fracBits z.format.fracBits) = true :=
    agreesAt_of_le hxy (by omega)
  have hsecond : y.agreesAt z (min x.format.fracBits z.format.fracBits) = true :=
    agreesAt_of_le hyz (by omega)
  exact (agreesAt_equivalence _).trans hfirst hsecond

theorem agrees_trans_of_format_eq (hxy : x.agrees y = true) (hyz : y.agrees z = true)
    (hformat : x.format = y.format) : x.agrees z = true := by
  apply agrees_trans hxy hyz
  rw [hformat]
  exact Nat.min_le_left _ _

/-- A coarse value agrees with two fine ones that do not agree with each other. -/
example : (ofRaw 1).agrees ((ofRaw 0).withFormat .unitOffset) = true ∧
    ((ofRaw 0).withFormat .unitOffset).agrees (ofRaw 2) = true ∧
    (ofRaw 1).agrees (ofRaw 2) = false := by decide

/-- Comparison at reduced precision is comparison of what is exported. At every precision of the
    container two values agree exactly if they export to one pattern of the format with all
    integer bits, and neither overflows; at a finer one exactly if they are the same number. What
    agrees at a precision does so at all that are coarser. Comparison at the declared precisions
    is therefore reflexive and symmetric, and transitive among values of one format, and values
    that are equal for it agree at all precisions that are coarser than one of theirs. -/
theorem agreement_is_equality_of_exports :
    (∀ (x y : Fixed) (f : Nat) (h : f ≤ 23),
        x.agreesAt y f = true ↔
          (x.toQ (.widest f h)).1 = (y.toQ (.widest f h)).1 ∧
            (x.toQ (.widest f h)).2 = false ∧ (y.toQ (.widest f h)).2 = false) ∧
      (∀ (x y : Fixed) (f : Nat), 23 < f → (x.agreesAt y f = true ↔ x.raw = y.raw)) ∧
      (∀ (x y : Fixed) (f g : Nat), x.agreesAt y f = true → g ≤ f → x.agreesAt y g = true) ∧
      (∀ x : Fixed, x.agrees x = true) ∧
      (∀ x y : Fixed, x.agrees y = true → y.agrees x = true) ∧
      (∀ x y z : Fixed, x.format = y.format → y.format = z.format →
        x.agrees y = true → y.agrees z = true → x.agrees z = true) ∧
      ∀ (x y : Fixed) (g : Nat), x.agrees y = true →
        g ≤ min x.format.fracBits y.format.fracBits → x.agreesAt y g = true := by
  refine ⟨?_, ?_, fun x y f g => agreesAt_of_le, agrees_refl, ?_, ?_, ?_⟩
  · intro x y f h
    rw [agreesAt_iff_toQ h]
    exact ⟨fun hbits => ⟨hbits, toQ_snd_widest x h, toQ_snd_widest y h⟩, And.left⟩
  · intro x y f h
    exact agreesAt_iff_raw_eq (Nat.le_of_lt h)
  · intro x y h
    rw [agrees_comm]
    exact h
  · intro x y z hxy _ h h'
    exact agrees_trans_of_format_eq h h' hxy
  · intro x y g h hle
    exact agreesAt_of_le h hle

/-- A number that is declared to have ten fraction bits, whatever bits it has. -/
def tenBits (raw : Int32) : Fixed :=
  (ofRaw raw).withFormat .unitOffset

/-- Numbers below zero are rounded down, and those of the first unit of ten bits below zero agree
    there, where all of them are exported as minus one, and so at three bits. -/
theorem agreement_is_equality_of_exports_below_zero :
    ((tenBits (-1)).format = (tenBits (-8192)).format ∧
        (tenBits (-8192)).format = (tenBits (-5)).format ∧
        3 ≤ min (tenBits (-1)).format.fracBits (tenBits (-8192)).format.fracBits) ∧
      (tenBits (-1)).agreesAt (tenBits (-8192)) 10 = true ∧
      (tenBits (-1)).agreesAt (tenBits (-8192)) 4 = true ∧
      ¬ (tenBits (-1)).agreesAt (tenBits (-8192)) 24 = true ∧
      (tenBits (-1)).agrees (tenBits (-5)) = true ∧
      (tenBits (-1)).agreesAt (tenBits (-8192)) 3 = true := by
  have hformat : ∀ a b, (tenBits a).format = (tenBits b).format := fun _ _ => rfl
  obtain ⟨hexport, hraw, hcoarser, -, hsymm, htrans, hdeclared⟩ := agreement_is_equality_of_exports
  have hten : (tenBits (-1)).agreesAt (tenBits (-8192)) 10 = true :=
    (hexport _ _ 10 (by decide)).mpr (by decide)
  have hother : (tenBits (-5)).agrees (tenBits (-8192)) = true :=
    (hexport _ _ 10 (by decide)).mpr (by decide)
  have hdiffer : ¬ (tenBits (-1)).agreesAt (tenBits (-8192)) 24 = true := by
    rw [hraw _ _ 24 (by decide)]
    decide
  refine ⟨⟨hformat _ _, hformat _ _, by decide⟩, hten, hcoarser _ _ 10 4 hten (by decide),
    hdiffer, ?_, ?_⟩
  · exact htrans _ _ _ (hformat _ _) (hformat _ _) hten (hsymm _ _ hother)
  · exact hdeclared _ _ 3 hten (by decide)

end Fixed
end EffectsDsp
