/-
  EffectsDsp.Oscillator.Bank

  The oscillator bank: two sine and two ramp oscillators, which all move once per
  sample.
-/

import EffectsDsp.Oscillator.Select
import EffectsDsp.Oscillator.Sine
import EffectsDsp.Oscillator.Ramp

namespace EffectsDsp

structure LfoBank where
  sine : Vector Sine 2
  ramp : Vector Ramp 2
  deriving DecidableEq, Repr

namespace LfoBank

def initial : LfoBank :=
  { sine := .replicate 2 .initial, ramp := .replicate 2 .initial }

instance : Inhabited LfoBank := ⟨initial⟩

/-- The sine oscillator with the number of `lfo`. -/
def sineOf (bank : LfoBank) (lfo : LfoSelect) : Sine :=
  bank.sine[lfo.unit]

/-- The ramp oscillator with the number of `lfo`. -/
def rampOf (bank : LfoBank) (lfo : LfoSelect) : Ramp :=
  bank.ramp[lfo.unit]

/-- Replaces one sine oscillator. -/
def setSine (bank : LfoBank) (unit : Fin 2) (s : Sine) : LfoBank :=
  { bank with sine := bank.sine.set unit s }

/-- Replaces one ramp oscillator. -/
def setRamp (bank : LfoBank) (unit : Fin 2) (r : Ramp) : LfoBank :=
  { bank with ramp := bank.ramp.set unit r }

/-- The value of a parameter of one oscillator. -/
def param (bank : LfoBank) (lfo : LfoSelect) (p : LfoParam) : Int32 :=
  match lfo.isRamp, p with
  | false, .rate => (bank.sineOf lfo).rate
  | false, .range => (bank.sineOf lfo).amplitude
  | true, .rate => (bank.rampOf lfo).rate
  | true, .range => (bank.rampOf lfo).amplitude

/-- Sets a parameter of one oscillator as near to `raw` as it can be, and tells
    whether it is another value. -/
def setParam (bank : LfoBank) (lfo : LfoSelect) (p : LfoParam) (raw : Int32) :
    LfoBank × Bool :=
  match lfo.isRamp, p with
  | false, .rate =>
    let (s, clamped) := (bank.sineOf lfo).setRate raw
    (bank.setSine lfo.unit s, clamped)
  | false, .range =>
    let (s, clamped) := (bank.sineOf lfo).setAmplitude raw
    (bank.setSine lfo.unit s, clamped)
  | true, .rate =>
    let (r, clamped) := (bank.rampOf lfo).setRate raw
    (bank.setRamp lfo.unit r, clamped)
  | true, .range =>
    let (r, clamped) := (bank.rampOf lfo).setAmplitude raw
    (bank.setRamp lfo.unit r, clamped)

/-- Moves all four oscillators by one sample. -/
def advance (bank : LfoBank) : LfoBank :=
  { sine := bank.sine.map Sine.advance, ramp := bank.ramp.map Ramp.advance }

/-! ## One oscillator at a time -/

@[simp] theorem sineOf_setSine_self (bank : LfoBank) (lfo : LfoSelect) (s : Sine) :
    (bank.setSine lfo.unit s).sineOf lfo = s := by
  simp [setSine, sineOf]

@[simp] theorem rampOf_setRamp_self (bank : LfoBank) (lfo : LfoSelect) (r : Ramp) :
    (bank.setRamp lfo.unit r).rampOf lfo = r := by
  simp [setRamp, rampOf]

/-- An oscillator that is replaced by itself stays as it is. -/
theorem setSine_self (bank : LfoBank) (lfo : LfoSelect) :
    bank.setSine lfo.unit (bank.sineOf lfo) = bank := by
  simp [setSine, sineOf]

theorem setRamp_self (bank : LfoBank) (lfo : LfoSelect) :
    bank.setRamp lfo.unit (bank.rampOf lfo) = bank := by
  simp [setRamp, rampOf]

/-- Names with one number name one sine. -/
theorem sineOf_congr (bank : LfoBank) {lfo other : LfoSelect} (h : lfo.unit = other.unit) :
    bank.sineOf lfo = bank.sineOf other := by
  simp only [sineOf, h]

theorem rampOf_congr (bank : LfoBank) {lfo other : LfoSelect} (h : lfo.unit = other.unit) :
    bank.rampOf lfo = bank.rampOf other := by
  simp only [rampOf, h]

/-- A sine is replaced under every name that has its number. -/
theorem sineOf_setSine (bank : LfoBank) (unit : Fin 2) (s : Sine) (lfo : LfoSelect) :
    (bank.setSine unit s).sineOf lfo = if unit = lfo.unit then s else bank.sineOf lfo := by
  simp only [setSine, sineOf, Fin.getElem_fin, Vector.getElem_set, Fin.ext_iff]

theorem rampOf_setRamp (bank : LfoBank) (unit : Fin 2) (r : Ramp) (lfo : LfoSelect) :
    (bank.setRamp unit r).rampOf lfo = if unit = lfo.unit then r else bank.rampOf lfo := by
  simp only [setRamp, rampOf, Fin.getElem_fin, Vector.getElem_set, Fin.ext_iff]

@[simp] theorem rampOf_setSine (bank : LfoBank) (unit : Fin 2) (s : Sine) (lfo : LfoSelect) :
    (bank.setSine unit s).rampOf lfo = bank.rampOf lfo := rfl

@[simp] theorem sineOf_setRamp (bank : LfoBank) (unit : Fin 2) (r : Ramp) (lfo : LfoSelect) :
    (bank.setRamp unit r).sineOf lfo = bank.sineOf lfo := rfl

@[simp] theorem sineOf_advance (bank : LfoBank) (lfo : LfoSelect) :
    bank.advance.sineOf lfo = (bank.sineOf lfo).advance := by
  simp [advance, sineOf]

@[simp] theorem rampOf_advance (bank : LfoBank) (lfo : LfoSelect) :
    bank.advance.rampOf lfo = (bank.rampOf lfo).advance := by
  simp [advance, rampOf]

/-- A sine oscillator has the parameters of its sine. -/
theorem param_of_sine (bank : LfoBank) {lfo : LfoSelect} (h : lfo.isRamp = false)
    (p : LfoParam) :
    bank.param lfo p =
      match p with
      | .rate => (bank.sineOf lfo).rate
      | .range => (bank.sineOf lfo).amplitude := by
  cases p <;> simp only [param, h]

theorem param_of_ramp (bank : LfoBank) {lfo : LfoSelect} (h : lfo.isRamp = true)
    (p : LfoParam) :
    bank.param lfo p =
      match p with
      | .rate => (bank.rampOf lfo).rate
      | .range => (bank.rampOf lfo).amplitude := by
  cases p <;> simp only [param, h]

/-- Replacing a sine changes no parameter of another oscillator. -/
theorem param_setSine_of_ne (bank : LfoBank) {lfo other : LfoSelect} (h : lfo.isRamp = false)
    (hne : other ≠ lfo) (s : Sine) (p : LfoParam) :
    (bank.setSine lfo.unit s).param other p = bank.param other p := by
  cases hother : other.isRamp with
  | true => rw [param_of_ramp _ hother, param_of_ramp _ hother, rampOf_setSine]
  | false =>
    have hunit : lfo.unit ≠ other.unit := by
      revert h hother hne
      cases lfo <;> cases other <;> decide
    rw [param_of_sine _ hother, param_of_sine _ hother, sineOf_setSine, if_neg hunit]

theorem param_setRamp_of_ne (bank : LfoBank) {lfo other : LfoSelect} (h : lfo.isRamp = true)
    (hne : other ≠ lfo) (r : Ramp) (p : LfoParam) :
    (bank.setRamp lfo.unit r).param other p = bank.param other p := by
  cases hother : other.isRamp with
  | false => rw [param_of_sine _ hother, param_of_sine _ hother, sineOf_setRamp]
  | true =>
    have hunit : lfo.unit ≠ other.unit := by
      revert h hother hne
      cases lfo <;> cases other <;> decide
    rw [param_of_ramp _ hother, param_of_ramp _ hother, rampOf_setRamp, if_neg hunit]

/-- A ramp that starts again keeps its parameters. -/
theorem param_setRamp_restart (bank : LfoBank) {lfo : LfoSelect} (h : lfo.isRamp = true)
    (other : LfoSelect) (p : LfoParam) :
    (bank.setRamp lfo.unit (bank.rampOf lfo).restart).param other p = bank.param other p := by
  by_cases hsame : other = lfo
  · subst hsame
    rw [param_of_ramp _ h, param_of_ramp _ h, rampOf_setRamp_self]
    cases p <;> rfl
  · exact param_setRamp_of_ne bank h hsame _ p

/-- Setting a parameter changes no other one, be it of the same oscillator. -/
theorem param_setParam_of_ne (bank : LfoBank) {lfo other : LfoSelect} {p q : LfoParam}
    (hne : ¬ (other = lfo ∧ q = p)) (raw : Int32) :
    (bank.setParam lfo p raw).1.param other q = bank.param other q := by
  unfold setParam
  by_cases hother : other = lfo
  · -- The setters of one oscillator change one field each.
    subst hother
    cases hramp : other.isRamp with
    | false =>
      rw [param_of_sine _ hramp, param_of_sine _ hramp]
      cases p with
      | rate =>
        cases q with
        | rate => exact absurd ⟨rfl, rfl⟩ hne
        | range => simp only [sineOf_setSine_self, Sine.setRate]
      | range =>
        cases q with
        | rate => simp only [sineOf_setSine_self, Sine.setAmplitude]
        | range => exact absurd ⟨rfl, rfl⟩ hne
    | true =>
      rw [param_of_ramp _ hramp, param_of_ramp _ hramp]
      cases p with
      | rate =>
        cases q with
        | rate => exact absurd ⟨rfl, rfl⟩ hne
        | range => simp only [rampOf_setRamp_self, Ramp.setRate]
      | range =>
        cases q with
        | rate => simp only [rampOf_setRamp_self, Ramp.setAmplitude]
        | range => exact absurd ⟨rfl, rfl⟩ hne
  · cases hramp : lfo.isRamp with
    | false => cases p <;> exact param_setSine_of_ne bank hramp hother _ q
    | true => cases p <;> exact param_setRamp_of_ne bank hramp hother _ q

end LfoBank
end EffectsDsp
