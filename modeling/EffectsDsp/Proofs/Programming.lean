/-
  EffectsDsp.Proofs.Programming

  Registers that set oscillators. The accumulator holds a parameter in its upper bits; what is
  written to the register of the parameter is the number of these bits, brought to the nearest
  one that the oscillator can have. `LfoSelect.Denotes` says which one that is without the search
  that finds it: `preferred_foldl` is the invariant of the search.

  The register shows the number at the place it was taken from. So it reads as the accumulator
  without the bits below, unless the number had to be changed, and writing back what was read
  finds nothing to change.
-/

import EffectsDsp.Proofs.Footprint

namespace EffectsDsp

/-! ## The nearest length -/

namespace Ramp

/-- `a` is nearer to the number than `b`, or as near and not smaller. -/
def Preferred (number a b : Int) : Prop :=
  (a - number).natAbs < (b - number).natAbs ∨
    (a - number).natAbs = (b - number).natAbs ∧ b ≤ a

theorem Preferred.refl (number a : Int) : Preferred number a a :=
  .inr ⟨rfl, Int.le_refl a⟩

theorem Preferred.trans {number a b c : Int} (h : Preferred number a b)
    (h' : Preferred number b c) : Preferred number a c := by
  unfold Preferred at *
  omega

/-- Of two lengths the nearer one is kept, and the first if it is larger and as near. -/
theorem preferred_nearer (raw : Int32) {best other : Int32} (h : other.toInt < best.toInt) :
    Preferred raw.toInt (nearer raw best other).toInt best.toInt ∧
      Preferred raw.toInt (nearer raw best other).toInt other.toInt := by
  unfold Preferred nearer
  split <;> omega

/-- A search through falling lengths ends with the preferred one. -/
theorem preferred_foldl (raw : Int32) {best : Int32} {others : List Int32}
    (hfalling : (best :: others).Pairwise fun a b => b.toInt < a.toInt) :
    ∀ length ∈ best :: others,
      Preferred raw.toInt (others.foldl (nearer raw) best).toInt length.toInt := by
  induction others generalizing best with
  | nil =>
    intro length hlength
    rw [List.mem_singleton.mp hlength]
    exact .refl _ _
  | cons other others ih =>
    obtain ⟨hbest, hothers⟩ := List.pairwise_cons.mp hfalling
    obtain ⟨hother, hrest⟩ := List.pairwise_cons.mp hothers
    obtain ⟨hkeepsBest, hkeepsOther⟩ := preferred_nearer raw (hbest other List.mem_cons_self)
    -- Whichever of the two is kept is larger than what is still to come.
    have hnext : (nearer raw best other :: others).Pairwise fun a b => b.toInt < a.toInt := by
      refine List.pairwise_cons.mpr ⟨fun length hlength => ?_, hrest⟩
      unfold nearer
      split
      · exact hother length hlength
      · exact hbest length (List.mem_cons_of_mem _ hlength)
    intro length hlength
    rw [List.foldl_cons]
    rcases List.mem_cons.mp hlength with rfl | hlength
    · exact (ih hnext _ List.mem_cons_self).trans hkeepsBest
    · rcases List.mem_cons.mp hlength with rfl | hlength
      · exact (ih hnext _ List.mem_cons_self).trans hkeepsOther
      · exact ih hnext length (List.mem_cons_of_mem _ hlength)

/-- The length is one of the four, and none of them is nearer or larger and as near. -/
structure IsNearestLength (number length : Int) : Prop where
  mem : length ∈ [(4096 : Int), 2048, 1024, 512]
  preferred : ∀ other ∈ [(4096 : Int), 2048, 1024, 512], Preferred number length other

theorem isNearestLength_nearestAmplitude (raw : Int32) :
    IsNearestLength raw.toInt (nearestAmplitude raw).toInt where
  mem := by
    have hmem := nearestAmplitude_mem raw
    simp only [List.mem_cons, List.not_mem_nil, or_false] at hmem ⊢
    rcases hmem with h | h | h | h <;> rw [h] <;> decide
  preferred other hother := by
    have hfalling : [(4096 : Int32), 2048, 1024, 512].Pairwise fun a b => b.toInt < a.toInt := by
      decide
    have hlengths : [(4096 : Int), 2048, 1024, 512] =
        [(4096 : Int32), 2048, 1024, 512].map Int32.toInt := by decide
    rw [hlengths] at hother
    obtain ⟨length, hlength, rfl⟩ := List.mem_map.mp hother
    exact preferred_foldl raw hfalling length hlength

/-- A length is the nearest to itself. -/
theorem nearestAmplitude_of_mem {raw : Int32} (h : raw ∈ [(512 : Int32), 1024, 2048, 4096]) :
    nearestAmplitude raw = raw := by
  simp only [List.mem_cons, List.not_mem_nil, or_false] at h
  rcases h with rfl | rfl | rfl | rfl <;> decide

end Ramp

/-! ## The place of a parameter -/

namespace Address

variable {lfo : LfoSelect} {p : LfoParam}

theorem paramShift_cases (lfo : LfoSelect) (p : LfoParam) :
    paramShift lfo p = 14 ∨ paramShift lfo p = 8 := by
  cases lfo <;> cases p <;> decide

/-- The upper bits of a number are the number without the bits below, moved down. -/
theorem shiftRight_mul_paramShift (lfo : LfoSelect) (p : LfoParam) (v : Int) :
    v >>> paramShift lfo p * 2 ^ paramShift lfo p = v - v % 2 ^ paramShift lfo p := by
  have hsum := Int.mul_ediv_add_emod v (2 ^ paramShift lfo p)
  rw [Int.shiftRight_eq_div_pow, Int.mul_comm]
  push_cast
  exact eq_sub_of_add_eq hsum

/-- What is left of a number of the datapath without its lower bits is one. -/
theorem inDatapath_upper (lfo : LfoSelect) (p : LfoParam) {v : Int} (h : InDatapath v) :
    InDatapath (v >>> paramShift lfo p * 2 ^ paramShift lfo p) := by
  rw [shiftRight_mul_paramShift]
  rw [inDatapath_iff] at *
  rcases paramShift_cases lfo p with hshift | hshift <;> rw [hshift] <;> omega

/-- A number that has room above its place is shifted to it without loss. -/
theorem toInt_shiftLeft_paramShift {v : Int32}
    (h : InDatapath (v.toInt * 2 ^ paramShift lfo p)) :
    (v <<< Int32.ofNat (paramShift lfo p)).toInt = v.toInt * 2 ^ paramShift lfo p := by
  have hunits : ((1 <<< paramShift lfo p : Nat) : Int) = 2 ^ paramShift lfo p := by
    rw [Nat.one_shiftLeft]
    push_cast
    rfl
  rw [inDatapath_iff, ← hunits] at h
  rw [toInt_shiftLeft_of_fits (smod_paramShift lfo p) (by omega) (by omega), hunits]

end Address

/-! ## What a number denotes -/

namespace LfoSelect

variable {lfo : LfoSelect} {p : LfoParam} {raw : Int32}

/-- The value that a number has as a parameter of the oscillator. -/
def Denotes (lfo : LfoSelect) (p : LfoParam) (number value : Int) : Prop :=
  match lfo.isRamp, p with
  | false, _ => value = max 0 number
  | true, .rate => value = max (-16384) number
  | true, .range => Ramp.IsNearestLength number value

/-- The parameter is clamped between two bounds, of which the upper one is where its field of the
    accumulator ends. -/
structure ClampedTo (lfo : LfoSelect) (p : LfoParam) (lo hi : Int) : Prop where
  lower : -16384 ≤ lo ∧ lo ≤ 0
  upper : 511 ≤ hi ∧ hi ≤ 32767
  fieldStart : -8388608 ≤ lo * 2 ^ Address.paramShift lfo p
  fieldEnd : (hi + 1) * 2 ^ Address.paramShift lfo p = 8388608
  denotes_iff : ∀ number value, lfo.Denotes p number value ↔ value = max lo number
  clampParam_eq : ∀ raw, lfo.clampParam p raw = Int32.ofInt (clampInt lo hi raw.toInt)

/-- Only the length of a ramp is not clamped. -/
theorem clampParam_cases (lfo : LfoSelect) (p : LfoParam) :
    (lfo.isRamp = true ∧ p = .range) ∨ ∃ lo hi : Int, lfo.ClampedTo p lo hi := by
  cases lfo with
  | sin0 | sin1 =>
    right
    cases p with
    | rate =>
      exact ⟨0, 511, by decide, by decide, by decide, by decide, fun _ _ => Iff.rfl, fun _ => rfl⟩
    | range =>
      exact ⟨0, 32767, by decide, by decide, by decide, by decide, fun _ _ => Iff.rfl,
        fun _ => rfl⟩
  | rmp0 | rmp1 =>
    cases p with
    | rate =>
      exact .inr ⟨-16384, 32767, by decide, by decide, by decide, by decide,
        fun _ _ => Iff.rfl, fun _ => rfl⟩
    | range => exact .inl ⟨rfl, rfl⟩

theorem two_pow_paramShift_pos (lfo : LfoSelect) (p : LfoParam) :
    (0 : Int) < 2 ^ Address.paramShift lfo p :=
  Int.pow_pos (by decide)

theorem clampParam_of_length (h : lfo.isRamp = true ∧ p = .range) (raw : Int32) :
    lfo.clampParam p raw = Ramp.nearestAmplitude raw := by
  unfold clampParam
  rw [h.1, h.2]

namespace ClampedTo

variable {lo hi : Int}

theorem bounds (h : lfo.ClampedTo p lo hi) (raw : Int32) :
    lo ≤ (lfo.clampParam p raw).toInt ∧ (lfo.clampParam p raw).toInt ≤ hi := by
  obtain ⟨hlo, hlo'⟩ := h.lower
  obtain ⟨hhi, hhi'⟩ := h.upper
  rw [h.clampParam_eq]
  exact bounds_ofInt_clampInt (by omega) (by omega) (by omega) raw.toInt

/-- The numbers of an accumulator do not reach beyond an upper bound. -/
theorem le_upper (h : lfo.ClampedTo p lo hi)
    (hfits : InDatapath (raw.toInt * 2 ^ Address.paramShift lfo p)) : raw.toInt ≤ hi := by
  have hbelow : raw.toInt * 2 ^ Address.paramShift lfo p <
      (hi + 1) * 2 ^ Address.paramShift lfo p := by
    rw [h.fieldEnd]
    exact Int.lt_add_one_of_le hfits.2
  exact Int.lt_add_one_iff.mp
    (Int.lt_of_mul_lt_mul_right hbelow (two_pow_paramShift_pos lfo p).le)

/-- So only the lower bound can move them. -/
theorem denotes (h : lfo.ClampedTo p lo hi)
    (hfits : InDatapath (raw.toInt * 2 ^ Address.paramShift lfo p)) :
    lfo.Denotes p raw.toInt (lfo.clampParam p raw).toInt := by
  obtain ⟨hlo, hlo'⟩ := h.lower
  obtain ⟨hhi, hhi'⟩ := h.upper
  have hraw := h.le_upper hfits
  rw [h.denotes_iff, h.clampParam_eq, toInt_ofInt_clampInt (by omega) (by omega) (by omega)]
  unfold clampInt
  omega

theorem inDatapath (h : lfo.ClampedTo p lo hi) (raw : Int32) :
    InDatapath ((lfo.clampParam p raw).toInt * 2 ^ Address.paramShift lfo p) := by
  obtain ⟨hlo, hhi⟩ := h.bounds raw
  have hunit := two_pow_paramShift_pos lfo p
  have hlower := Int.mul_le_mul_of_nonneg_right hlo hunit.le
  have hupper := Int.mul_le_mul_of_nonneg_right hhi hunit.le
  have hstart := h.fieldStart
  have hend := h.fieldEnd
  rw [Int.add_mul] at hend
  rw [inDatapath_iff]
  omega

end ClampedTo

/-- What an oscillator makes of a number of the accumulator is what the number denotes. -/
theorem denotes_clampParam (h : InDatapath (raw.toInt * 2 ^ Address.paramShift lfo p)) :
    lfo.Denotes p raw.toInt (lfo.clampParam p raw).toInt := by
  rcases clampParam_cases lfo p with hlength | ⟨lo, hi, hclamped⟩
  · rw [clampParam_of_length hlength]
    unfold Denotes
    rw [hlength.1, hlength.2]
    exact Ramp.isNearestLength_nearestAmplitude raw
  · exact hclamped.denotes h

/-- The value of a parameter has room at its place. -/
theorem inDatapath_clampParam (lfo : LfoSelect) (p : LfoParam) (raw : Int32) :
    InDatapath ((lfo.clampParam p raw).toInt * 2 ^ Address.paramShift lfo p) := by
  rcases clampParam_cases lfo p with hlength | ⟨lo, hi, hclamped⟩
  · have hshift : Address.paramShift lfo p = 8 := by
      unfold Address.paramShift
      rw [hlength.1]
    have hmem := Ramp.nearestAmplitude_mem raw
    simp only [List.mem_cons, List.not_mem_nil, or_false] at hmem
    rw [clampParam_of_length hlength, hshift]
    rcases hmem with h | h | h | h <;> rw [h] <;> decide
  · exact hclamped.inDatapath raw

/-- What an oscillator made of a number it takes as it is. -/
theorem clampParam_clampParam (lfo : LfoSelect) (p : LfoParam) (raw : Int32) :
    lfo.clampParam p (lfo.clampParam p raw) = lfo.clampParam p raw := by
  rcases clampParam_cases lfo p with hlength | ⟨lo, hi, hclamped⟩
  · rw [clampParam_of_length hlength, clampParam_of_length hlength]
    exact Ramp.nearestAmplitude_of_mem (Ramp.nearestAmplitude_mem raw)
  · obtain ⟨hlo, hhi⟩ := hclamped.bounds raw
    rw [hclamped.clampParam_eq (lfo.clampParam p raw)]
    exact ofInt_clampInt_eq_self hlo hhi

end LfoSelect

/-! ## Setting what is set -/

namespace LfoBank

/-- A parameter that is set to its own value stays as it is, and so does the oscillator. -/
theorem setParam_self {bank : LfoBank} {lfo : LfoSelect} {p : LfoParam}
    (h : lfo.clampParam p (bank.param lfo p) = bank.param lfo p) :
    (bank.setParam lfo p (bank.param lfo p)).1 = bank := by
  unfold LfoSelect.clampParam at h
  unfold setParam
  cases hramp : lfo.isRamp with
  | false =>
    rw [hramp, param_of_sine _ hramp] at h
    rw [param_of_sine _ hramp]
    have hself := bank.setSine_self lfo
    cases p with
    | rate =>
      exact (congrArg (fun rate => bank.setSine lfo.unit { bank.sineOf lfo with rate }) h).trans
        hself
    | range =>
      exact (congrArg
        (fun amplitude => bank.setSine lfo.unit { bank.sineOf lfo with amplitude }) h).trans hself
  | true =>
    rw [hramp, param_of_ramp _ hramp] at h
    rw [param_of_ramp _ hramp]
    have hself := bank.setRamp_self lfo
    cases p with
    | rate =>
      exact (congrArg (fun rate => bank.setRamp lfo.unit { bank.rampOf lfo with rate }) h).trans
        hself
    | range =>
      exact (congrArg
        (fun amplitude => bank.setRamp lfo.unit { bank.rampOf lfo with amplitude }) h).trans hself

end LfoBank

namespace RegisterFile

variable {regs : RegisterFile} {lfo : LfoSelect} {p : LfoParam} {v : Int32}

/-- A parameter is read at its place in the accumulator. -/
theorem raw_read_of_config? (h : regs.config? (Address.ofLfoParam lfo p) = some v) :
    (regs.read (Address.ofLfoParam lfo p)).raw =
      v <<< Int32.ofNat (Address.paramShift lfo p) := by
  unfold read
  rw [config?_eq_some.mp h]
  unfold Register.read
  rw [Address.lfoParam?_ofLfoParam]
  rfl

/-- A parameter that is stored again changes nothing. -/
theorem setConfig_of_config? {address : UInt8} (h : regs.config? address = some v) :
    regs.setConfig address v = regs := by
  apply modify_eq_self
  rw [config?_eq_some.mp h]
  rfl

end RegisterFile

/-! ## Writing a parameter -/

namespace Operation

variable {op : Operation} {lfo : LfoSelect} {p : LfoParam}

theorem writtenParam?_of_address (hop : op.mnemonic.writesRegister = true)
    (haddress : op.registerAddress = Address.ofLfoParam lfo p) :
    op.writtenParam? = some (lfo, p) := by
  rw [writtenParam?_of_writesRegister hop, haddress, Address.lfoParam?_ofLfoParam]

end Operation

namespace Machine

variable {m n k : Machine} {op : Operation} {lfo : LfoSelect} {p : LfoParam} {v : Int32}

/-- The accumulator holds a parameter in its upper bits. -/
theorem toInt_accParam (m : Machine) (lfo : LfoSelect) (p : LfoParam) :
    (m.accParam lfo p).toInt = m.acc.raw.toInt >>> Address.paramShift lfo p := by
  have hlo := Int32.le_toInt m.acc.raw
  have hhi := Int32.toInt_lt m.acc.raw
  have hquotient := Int.shiftRight_eq_div_pow m.acc.raw.toInt (Address.paramShift lfo p)
  unfold accParam
  rw [hquotient]
  rcases Address.paramShift_cases lfo p with hshift | hshift
  all_goals
    rw [hshift]
    exact Int32.toInt_ofInt_of_le (by omega) (by omega)

/-- The oscillator is misled if it makes another number of the one that it gets. -/
theorem misledLfo?_of_writtenParam (h : op.writtenParam? = some (lfo, p)) (m : Machine) :
    m.misledLfo? op =
      if lfo.clampParam p (m.accParam lfo p) ≠ m.accParam lfo p then some lfo else none := by
  obtain ⟨hwrites, hparam⟩ := Operation.lfoParam?_of_writtenParam? h
  rcases mnemonic_of_writesRegister hwrites with hop | hop | hop
  all_goals
    simp only [misledLfo?, hop, hparam, LfoBank.param_setParam_self]
    rfl

theorem diagnostics_of_writtenParam (h : op.writtenParam? = some (lfo, p)) (m : Machine) :
    (m.outward op).diagnostics = m.diagnostics.mislead
      (if lfo.clampParam p (m.accParam lfo p) ≠ m.accParam lfo p then some lfo else none) := by
  obtain ⟨hwrites, hparam⟩ := Operation.lfoParam?_of_writtenParam? h
  rw [outward_of_writesRegister hwrites, diagnostics_of_lfoParam hwrites hparam,
    misledLfo?_of_writtenParam h]

/-- The oscillator and its register have a value of a parameter. -/
structure Programmed (m : Machine) (lfo : LfoSelect) (p : LfoParam) (v : Int32) : Prop where
  param : m.lfos.param lfo p = v
  register : m.regs.config? (Address.ofLfoParam lfo p) = some v

/-- Writing the accumulator of `m` to the register of a parameter gives `n`, in which the
    parameter has the value that the accumulator denotes. -/
structure Programs (m n : Machine) (lfo : LfoSelect) (p : LfoParam) (v : Int32) : Prop where
  denoted : lfo.Denotes p (m.acc.raw.toInt >>> Address.paramShift lfo p) v.toInt
  programmed : n.Programmed lfo p v
  /-- Only a number that is changed is counted as a fault. -/
  count : ∀ f, n.diagnostics.count f = m.diagnostics.count f +
    if f = .lfoParam ∧ v.toInt ≠ m.acc.raw.toInt >>> Address.paramShift lfo p then 1 else 0
  flag : ∀ other, n.diagnostics.flag other = (m.diagnostics.flag other ||
    decide (other = lfo ∧ v.toInt ≠ m.acc.raw.toInt >>> Address.paramShift lfo p))
  read : (n.regs.read (Address.ofLfoParam lfo p)).raw.toInt =
    v.toInt * 2 ^ Address.paramShift lfo p
  /-- Without a fault the register reads as the accumulator without its lower bits. -/
  truncated : v.toInt = m.acc.raw.toInt >>> Address.paramShift lfo p →
    (n.regs.read (Address.ofLfoParam lfo p)).raw.toInt =
      m.acc.raw.toInt - m.acc.raw.toInt % 2 ^ Address.paramShift lfo p

/-- The instruction that writes the parameter sets it. -/
theorem programmed_execute (hop : op.writtenParam? = some (lfo, p))
    (hconfig : (m.regs.config? (Address.ofLfoParam lfo p)).isSome = true) :
    (m.execute op).Programmed lfo p (lfo.clampParam p (m.accParam lfo p)) := by
  obtain ⟨diagnostics, heq⟩ := outward_of_writtenParam hop m
  obtain ⟨-, hparam⟩ := Operation.lfoParam?_of_writtenParam? hop
  obtain ⟨old, hold⟩ := Option.isSome_iff_exists.mp hconfig
  constructor
  · rw [lfos_execute, heq]
    exact LfoBank.param_setParam_self m.lfos lfo p _
  · rw [regs_execute, heq, Address.eq_ofLfoParam hparam]
    dsimp only
    rw [RegisterFile.config?_setConfig, if_pos rfl, hold]
    rfl

theorem programs_execute (hacc : InDatapath m.acc.raw.toInt)
    (hop : op.writtenParam? = some (lfo, p))
    (hconfig : (m.regs.config? (Address.ofLfoParam lfo p)).isSome = true) :
    Programs m (m.execute op) lfo p (lfo.clampParam p (m.accParam lfo p)) := by
  have hnumber := m.toInt_accParam lfo p
  have hprogrammed := programmed_execute hop hconfig
  have hfits : InDatapath ((m.accParam lfo p).toInt * 2 ^ Address.paramShift lfo p) := by
    rw [hnumber]
    exact Address.inDatapath_upper lfo p hacc
  have hread : ((m.execute op).regs.read (Address.ofLfoParam lfo p)).raw.toInt =
      (lfo.clampParam p (m.accParam lfo p)).toInt * 2 ^ Address.paramShift lfo p := by
    rw [RegisterFile.raw_read_of_config? hprogrammed.register]
    exact Address.toInt_shiftLeft_paramShift (LfoSelect.inDatapath_clampParam lfo p _)
  -- The machine compares words where the specification compares numbers.
  have hmisled : lfo.clampParam p (m.accParam lfo p) ≠ m.accParam lfo p ↔
      (lfo.clampParam p (m.accParam lfo p)).toInt ≠
        m.acc.raw.toInt >>> Address.paramShift lfo p := by
    rw [← hnumber, ne_eq, ne_eq, Int32.toInt_inj]
  refine ⟨?_, hprogrammed, fun f => ?_, fun other => ?_, hread, fun hkept => ?_⟩
  · rw [← hnumber]
    exact LfoSelect.denotes_clampParam hfits
  · rw [count_execute, diagnostics_of_writtenParam hop, Diagnostics.count_mislead]
    exact congrArg (m.diagnostics.count f + ·)
      (if_congr (and_congr_right fun _ => Option.isSome_ite.trans hmisled) rfl rfl)
  · rw [flag_execute, diagnostics_of_writtenParam hop, Diagnostics.flag_mislead,
      if_congr hmisled rfl rfl]
    refine congrArg (m.diagnostics.flag other || ·) ?_
    by_cases hchanged : (lfo.clampParam p (m.accParam lfo p)).toInt ≠
        m.acc.raw.toInt >>> Address.paramShift lfo p
    · rw [if_pos hchanged, Option.some_beq_some]
      exact decide_eq_decide.mpr ⟨fun h => ⟨h.symm, hchanged⟩, fun h => h.1.symm⟩
    · rw [if_neg hchanged]
      exact (decide_eq_false fun h => hchanged h.2).symm
  · rw [hread, hkept, Address.shiftRight_mul_paramShift]

/-- A parameter that is read from its register and written back changes nothing outside the
    accumulators. -/
theorem outward_of_programmed (hk : k.Programmed lfo p v) (hv : lfo.clampParam p v = v)
    (hacc : k.acc.raw = (k.regs.read (Address.ofLfoParam lfo p)).raw)
    (hop : op.writtenParam? = some (lfo, p)) : k.outward op = k := by
  have hfits := LfoSelect.inDatapath_clampParam lfo p v
  rw [hv] at hfits
  -- Shifting up and down again loses nothing, so the oscillator gets what it gave.
  have hnumber : k.accParam lfo p = v := by
    rw [← Int32.toInt_inj, toInt_accParam, hacc, RegisterFile.raw_read_of_config? hk.register,
      Address.toInt_shiftLeft_paramShift hfits, Int.shiftRight_eq_div_pow]
    push_cast
    exact Int.mul_ediv_cancel _ (LfoSelect.two_pow_paramShift_pos lfo p).ne'
  have hlfos : (k.lfos.setParam lfo p v).1 = k.lfos := by
    rw [← hk.param] at hv ⊢
    exact LfoBank.setParam_self hv
  have hregs : k.regs.setConfig op.registerAddress v = k.regs := by
    rw [Address.eq_ofLfoParam (Operation.lfoParam?_of_writtenParam? hop).2]
    exact RegisterFile.setConfig_of_config? hk.register
  have hdiagnostics : (k.outward op).diagnostics = k.diagnostics := by
    rw [diagnostics_of_writtenParam hop, hnumber, hv, if_neg (not_not_intro rfl)]
    rfl
  obtain ⟨diagnostics, heq⟩ := outward_of_writtenParam hop k
  rw [heq] at hdiagnostics
  rw [heq, hnumber, hv, hlfos, hregs]
  exact congrArg (fun diagnostics => { k with diagnostics }) hdiagnostics

/-- So the instruction that writes it back counts no more than the clamps of its accumulators. -/
theorem execute_of_programmed (hk : k.Programmed lfo p v) (hv : lfo.clampParam p v = v)
    (hacc : k.acc.raw = (k.regs.read (Address.ofLfoParam lfo p)).raw)
    (hop : op.writtenParam? = some (lfo, p)) :
    (k.execute op).lfos = k.lfos ∧ (k.execute op).regs = k.regs ∧
      (k.execute op).diagnostics =
        { k.diagnostics with
          accOverflows := k.diagnostics.accOverflows + k.accClamps op
          paccOverflows := k.diagnostics.paccOverflows + k.paccClamps op } := by
  have houtward := outward_of_programmed hk hv hacc hop
  refine ⟨?_, ?_, ?_⟩
  · rw [lfos_execute, houtward]
  · rw [regs_execute, houtward]
  · rw [diagnostics_execute, houtward]

/-- A program sets an oscillator through a register. WRAX, WRHX and WRLX make the parameter and
    its register the value that the upper bits of the accumulator denote, and a fault is counted
    if this is another number than theirs. The register then reads as this number at their
    place. Wherever a parameter has such a value, reading it to the accumulator and writing it
    back changes no oscillator and no register, and counts nothing but the clamps of the
    accumulators that the instruction computes next. -/
theorem registers_program_oscillators (hacc : InDatapath m.acc.raw.toInt)
    (hconfig : ∀ address, (RegisterFile.index address).val < 8 →
      (m.regs.config? address).isSome = true)
    (hop : op.mnemonic.writesRegister = true)
    (haddress : op.registerAddress = Address.ofLfoParam lfo p) :
    ∃ v, Programs m (m.execute op) lfo p v ∧
      ∀ (k : Machine) (again : Operation), k.Programmed lfo p v →
        k.acc.raw = (k.regs.read (Address.ofLfoParam lfo p)).raw →
        again.mnemonic.writesRegister = true →
        again.registerAddress = Address.ofLfoParam lfo p →
          (k.execute again).lfos = k.lfos ∧ (k.execute again).regs = k.regs ∧
            (k.execute again).diagnostics =
              { k.diagnostics with
                accOverflows := k.diagnostics.accOverflows + k.accClamps again
                paccOverflows := k.diagnostics.paccOverflows + k.paccClamps again } := by
  have hwritten := Operation.writtenParam?_of_address hop haddress
  have hregister := hconfig _ (RegisterFile.index_ofLfoParam_lt lfo p)
  refine ⟨_, programs_execute hacc hwritten hregister, fun k again hk hread hagain hto => ?_⟩
  exact execute_of_programmed hk (LfoSelect.clampParam_clampParam lfo p _) hread
    (Operation.writtenParam?_of_address hagain hto)

/-- WRAX RMP0_RANGE, 0. -/
def storeRampRange : Operation :=
  { mnemonic := .wrax
    operands :=
      [⟨⟨.register, 6, .unsigned⟩, 5⟩, ⟨.unused 5, 0⟩, ⟨.coefficient 16 .coefficient16, 0⟩]
    word := 0x000000a6 }

/-- A machine with a number in its accumulator that is as near to a length of 2048 as to one of
    4096. -/
def undecided : Machine :=
  { powerOn 1 true with acc := .ofRaw 786432 }

/-- The ramp gets the longer length, and the fault is counted. Written back, the length stays. -/
theorem registers_program_oscillators_tie :
    (InDatapath undecided.acc.raw.toInt ∧
        (∀ address, (RegisterFile.index address).val < 8 →
          (undecided.regs.config? address).isSome = true) ∧
        storeRampRange.mnemonic.writesRegister = true ∧
        storeRampRange.registerAddress = Address.ofLfoParam .rmp0 .range) ∧
      (undecided.execute storeRampRange).diagnostics.count .lfoParam = 1 ∧
      ((undecided.execute storeRampRange).regs.read 5).raw.toInt = 4096 * 2 ^ 8 ∧
      ({ undecided.execute storeRampRange with acc := .ofRaw 1048576 }.execute
        storeRampRange).diagnostics.count .lfoParam = 1 := by
  have hconfig : ∀ address, (RegisterFile.index address).val < 8 →
      (undecided.regs.config? address).isSome = true := fun address =>
    (RegisterFile.Kinded.initial address).mpr
  have haddress : storeRampRange.registerAddress = Address.ofLfoParam .rmp0 .range := rfl
  obtain ⟨v, hprograms, hagain⟩ :=
    registers_program_oscillators (m := undecided) (by decide) hconfig rfl haddress
  have hvalue : v.toInt = 4096 := by
    obtain ⟨hmem, hpreferred⟩ : Ramp.IsNearestLength 3072 v.toInt := hprograms.denoted
    have hlonger := hpreferred 4096 (by decide)
    unfold Ramp.Preferred at hlonger
    simp only [List.mem_cons, List.not_mem_nil, or_false] at hmem
    omega
  have hcount : (undecided.execute storeRampRange).diagnostics.count .lfoParam = 1 := by
    rw [hprograms.count, hvalue]
    decide
  have hread : ((undecided.execute storeRampRange).regs.read 5).raw.toInt = 4096 * 2 ^ 8 := by
    have hplace := hprograms.read
    rw [hvalue] at hplace
    exact hplace
  refine ⟨⟨by decide, hconfig, rfl, rfl⟩, hcount, hread, ?_⟩
  obtain ⟨-, -, hkept⟩ :=
    hagain { undecided.execute storeRampRange with acc := .ofRaw 1048576 } storeRampRange
      ⟨hprograms.programmed.param, hprograms.programmed.register⟩
      (Int32.toInt_inj.mp hread.symm) rfl rfl
  rw [hkept]
  exact hcount

end Machine
end EffectsDsp
