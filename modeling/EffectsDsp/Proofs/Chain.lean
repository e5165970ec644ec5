/-
  EffectsDsp.Proofs.Chain

  Operations on a fixed-point value, one after the other. Each computes the exact result from the
  number that the ones before it left, in 64 bits that are enough for any operands, and keeps the
  nearest number of the range: that of the datapath or, for a value that does not saturate, of
  the container.

  `numberAfter` and `results` say this on integers, apart from values and their counts. A value
  follows them from any number, mode and count on (`chained_performAll`): operands bring their
  clamps, results outside the datapath add one each in both modes, and the count stops at its
  width. As a count that has stopped stays where it is, it does not matter when it stopped.
-/

import Mathlib.Algebra.GroupWithZero.Nat
import EffectsDsp.Proofs.ClampCount

namespace EffectsDsp

/-! ## 64-bit words -/

theorem natAbs_toInt_le (v : Int32) : v.toInt.natAbs ≤ 2147483648 := by
  have hlo := v.le_toInt
  have hhi := v.toInt_lt
  omega

/-- The product of two 32-bit words has at most 63 bits. -/
theorem toInt_mul_toInt64 (v w : Int32) : (v.toInt64 * w.toInt64).toInt = v.toInt * w.toInt := by
  have hproduct : (v.toInt * w.toInt).natAbs ≤ 4611686018427387904 := by
    rw [Int.natAbs_mul]
    exact Nat.mul_le_mul (natAbs_toInt_le v) (natAbs_toInt_le w)
  rw [Int64.toInt_mul, Int32.toInt_toInt64, Int32.toInt_toInt64]
  apply Int.bmod_eq_of_le <;> omega

theorem toInt_add_toInt64 (v w : Int32) : (v.toInt64 + w.toInt64).toInt = v.toInt + w.toInt := by
  have hv := natAbs_toInt_le v
  have hw := natAbs_toInt_le w
  rw [Int64.toInt_add, Int32.toInt_toInt64, Int32.toInt_toInt64]
  apply Int.bmod_eq_of_le <;> omega

theorem toInt_sub_toInt64 (v w : Int32) : (v.toInt64 - w.toInt64).toInt = v.toInt - w.toInt := by
  have hv := natAbs_toInt_le v
  have hw := natAbs_toInt_le w
  rw [Int64.toInt_sub, Int32.toInt_toInt64, Int32.toInt_toInt64]
  apply Int.bmod_eq_of_le <;> omega

/-- The magnitude of the smallest 32-bit number is one of 64 bits. -/
theorem toInt_abs_toInt64 (v : Int32) :
    (if v.toInt64 < 0 then -v.toInt64 else v.toInt64).toInt = v.toInt.natAbs := by
  have hv := natAbs_toInt_le v
  have hnegative : v.toInt64 < 0 ↔ v.toInt < 0 := by
    rw [Int64.lt_iff_toInt_lt, Int32.toInt_toInt64, Int64.toInt_zero]
  by_cases h : v.toInt64 < 0
  · have hlt := hnegative.mp h
    rw [if_pos h, Int64.toInt_neg, Int32.toInt_toInt64, Int.bmod_eq_of_le] <;> omega
  · have hge := mt hnegative.mpr h
    rw [if_neg h, Int32.toInt_toInt64]
    omega

namespace Fixed

/-! ## Operations -/

/-- An operation on a value, with its operand. -/
inductive Arith where
  | add (y : Fixed)
  | sub (y : Fixed)
  | mul (y : Fixed)
  | abs

namespace Arith

/-- What the operation makes of a value. -/
def perform : Arith → Fixed → Fixed
  | add y, x => x.add y
  | sub y, x => x.sub y
  | mul y, x => x.mul y
  | abs, x => x.abs

/-- The clamps behind the operand. -/
def inherited : Arith → UInt16
  | add y | sub y | mul y => y.clamps
  | abs => 0

/-- The sum, difference, product or magnitude of the numbers. -/
def unrounded : Arith → Int → Int
  | add y, v => v + y.raw.toInt
  | sub y, v => v - y.raw.toInt
  | mul y, v => v * y.raw.toInt
  | abs, v => v.natAbs

/-- The exact result. A product of two numbers of units of 2^-23 has as many more bits below the
    unit, and is rounded down. -/
def exact (op : Arith) (v : Int) : Int :=
  match op with
  | mul _ => (op.unrounded v).fdiv 8388608
  | _ => op.unrounded v

/-- The sum, difference, product or magnitude in 64-bit words, which go around. -/
def word : Arith → Int32 → Int64
  | add y, v => v.toInt64 + y.raw.toInt64
  | sub y, v => v.toInt64 - y.raw.toInt64
  | mul y, v => v.toInt64 * y.raw.toInt64
  | abs, v => if v.toInt64 < 0 then -v.toInt64 else v.toInt64

/-- 64 bits are enough for any operands. -/
theorem toInt_word (op : Arith) (v : Int32) : (op.word v).toInt = op.unrounded v.toInt := by
  cases op with
  | add y => exact toInt_add_toInt64 v y.raw
  | sub y => exact toInt_sub_toInt64 v y.raw
  | mul y => exact toInt_mul_toInt64 v y.raw
  | abs => exact toInt_abs_toInt64 v

/-- Every operation stores its exact result, with the clamps of its operand. -/
theorem perform_eq (op : Arith) (x : Fixed) :
    op.perform x = x.store (op.exact x.raw.toInt) op.inherited := by
  cases op with
  | mul y =>
    have hshift : (x.raw.toInt * y.raw.toInt) >>> (23 : Nat) =
        (x.raw.toInt * y.raw.toInt).fdiv 8388608 := by
      rw [Int.shiftRight_eq_div_pow, Int.fdiv_eq_ediv_of_nonneg _ (by decide)]
      rfl
    exact congrArg (x.store · y.clamps) hshift
  | add y | sub y | abs => rfl

theorem toInt_perform (op : Arith) (x : Fixed) :
    (op.perform x).raw.toInt = Computation.kept x.saturating (op.exact x.raw.toInt) := by
  rw [perform_eq]
  exact toInt_bounded x.saturating _

theorem toNat_clamps_perform (op : Arith) (x : Fixed) :
    (op.perform x).clamps.toNat =
      min 65535 (x.clamps.toNat + op.inherited.toNat +
        if InDatapath (op.exact x.raw.toInt) then 0 else 1) := by
  have hlast : (if InDatapath (op.exact x.raw.toInt) then (0 : UInt16) else 1).toNat =
      if InDatapath (op.exact x.raw.toInt) then 0 else 1 := by
    split <;> rfl
  rw [perform_eq]
  show (addClamps (addClamps x.clamps op.inherited) _).toNat = _
  rw [toNat_addClamps, toNat_addClamps, hlast]
  omega

@[simp] theorem format_perform (op : Arith) (x : Fixed) : (op.perform x).format = x.format := by
  rw [perform_eq]
  rfl

@[simp] theorem saturating_perform (op : Arith) (x : Fixed) :
    (op.perform x).saturating = x.saturating := by
  rw [perform_eq]
  rfl

/-- No operation looks at the count of its receiver but to go on from there. -/
theorem perform_withClamps (op : Arith) (x : Fixed) (clamps : UInt16) :
    ∃ clamps', op.perform { x with clamps } = { op.perform x with clamps := clamps' } := by
  rw [perform_eq, perform_eq]
  exact ⟨_, rfl⟩

end Arith

/-! ## Chains -/

/-- All operations, the first one first. -/
def performAll (ops : List Arith) (x : Fixed) : Fixed :=
  ops.foldl (fun x op => op.perform x) x

theorem performAll_append (ops more : List Arith) (x : Fixed) :
    performAll (ops ++ more) x = performAll more (performAll ops x) :=
  List.foldl_append

/-- The number after all operations, for a receiver of the given mode with the number `v`. -/
def numberAfter (saturating : Bool) (v : Int) (ops : List Arith) : Int :=
  ops.foldl (fun v op => Computation.kept saturating (op.exact v)) v

/-- The exact results of all operations, each from the number that is kept of the one before. -/
def results (saturating : Bool) : Int → List Arith → List Int
  | _, [] => []
  | v, op :: ops =>
    op.exact v :: results saturating (Computation.kept saturating (op.exact v)) ops

/-- The clamps behind all operands and those that the operations make themselves, for a receiver
    of the given mode with the number `v`. -/
def clampsOf (saturating : Bool) (v : Int) (ops : List Arith) : Nat :=
  (ops.map fun op => op.inherited.toNat).sum +
    (results saturating v ops).countP fun exact => ¬ InDatapath exact

theorem clampsOf_cons (saturating : Bool) (v : Int) (op : Arith) (ops : List Arith) :
    clampsOf saturating v (op :: ops) =
      op.inherited.toNat + (if InDatapath (op.exact v) then 0 else 1) +
        clampsOf saturating (Computation.kept saturating (op.exact v)) ops := by
  have hcount := List.countP_cons (p := fun exact => decide ¬ InDatapath exact)
    (a := op.exact v) (l := results saturating (Computation.kept saturating (op.exact v)) ops)
  have hlast : (if decide (¬ InDatapath (op.exact v)) = true then 1 else 0) =
      if InDatapath (op.exact v) then 0 else 1 := by
    by_cases h : InDatapath (op.exact v) <;> simp [h]
  rw [hlast] at hcount
  simp only [clampsOf, results, List.map_cons, List.sum_cons, hcount]
  omega

/-- `y` is what the operations make of `x`. -/
structure Chained (ops : List Arith) (x y : Fixed) : Prop where
  number : y.raw.toInt = numberAfter x.saturating x.raw.toInt ops
  clamps : y.clamps.toNat =
    min 65535 (x.clamps.toNat + clampsOf x.saturating x.raw.toInt ops)
  format : y.format = x.format
  saturating : y.saturating = x.saturating

/-- The first operation comes before all others. -/
theorem Chained.cons {op : Arith} {ops : List Arith} {x y : Fixed}
    (h : Chained ops (op.perform x) y) : Chained (op :: ops) x y where
  number := by
    rw [h.number, op.saturating_perform, op.toInt_perform]
    rfl
  clamps := by
    rw [h.clamps, op.saturating_perform, op.toInt_perform, op.toNat_clamps_perform, clampsOf_cons]
    -- A count that stops at its width stays there.
    omega
  format := h.format.trans (op.format_perform x)
  saturating := h.saturating.trans (op.saturating_perform x)

theorem chained_performAll (ops : List Arith) (x : Fixed) : Chained ops x (performAll ops x) := by
  induction ops generalizing x with
  | nil =>
    have hfits := x.clamps.toNat_lt
    refine ⟨rfl, ?_, rfl, rfl⟩
    simp only [performAll, List.foldl_nil, clampsOf, results, List.map_nil, List.sum_nil,
      List.countP_nil]
    omega
  | cons op ops ih => exact (ih (op.perform x)).cons

/-- Numbers do not depend on counts. -/
theorem performAll_withClamps (ops : List Arith) (x : Fixed) (clamps : UInt16) :
    ∃ clamps', performAll ops { x with clamps } =
      { performAll ops x with clamps := clamps' } := by
  induction ops generalizing x clamps with
  | nil => exact ⟨clamps, rfl⟩
  | cons op ops ih =>
    obtain ⟨next, hnext⟩ := op.perform_withClamps x clamps
    obtain ⟨last, hlast⟩ := ih (op.perform x) next
    refine ⟨last, ?_⟩
    rw [← hnext] at hlast
    exact hlast

/-- Chained operations are exact, then clamped, and every clamp is counted. From any value on, each
    operation keeps the number of the range that is nearest to its exact result, and the word
    that this is computed in does not overflow. The count is that of the value, of all operands
    and of the results outside the datapath, up to the width of counts. Format and mode stay.
    When the count is taken, further operations make the same numbers as they would have done,
    and their count starts again at zero. -/
theorem chain_exact_then_clamped (ops : List Arith) (x : Fixed) :
    Chained ops x (performAll ops x) ∧
      (∀ op : Arith, (op.word (performAll ops x).raw).toInt =
        op.unrounded (performAll ops x).raw.toInt) ∧
      (performAll ops x).withoutClamps.clamps = 0 ∧
      ∀ more : List Arith, ∃ clamps : UInt16,
        performAll more (performAll ops x).withoutClamps =
          { performAll (ops ++ more) x with clamps } ∧
        clamps.toNat =
          min 65535 (clampsOf x.saturating (numberAfter x.saturating x.raw.toInt ops) more) := by
  have hchained := chained_performAll ops x
  refine ⟨hchained, fun op => op.toInt_word _, rfl, fun more => ?_⟩
  obtain ⟨clamps, hmore⟩ := performAll_withClamps more (performAll ops x) 0
  refine ⟨clamps, ?_, ?_⟩
  · rw [performAll_append]
    exact hmore
  · have hrest := (chained_performAll more (performAll ops x).withoutClamps).clamps
    rw [show performAll more (performAll ops x).withoutClamps = _ from hmore] at hrest
    rw [← hchained.number, ← hchained.saturating]
    exact hrest.trans (congrArg (min 65535) (Nat.zero_add _))

/-- The largest product there is clamps to the container of a value that does not saturate, and
    then its magnitude is still outside the datapath. -/
example : performAll [.mul (ofRaw (-2147483648)), .abs]
    ((ofRaw (-2147483648)).withSaturating false) =
      { (ofRaw 2147483647).withSaturating false with clamps := 2 } := by decide

end Fixed
end EffectsDsp
