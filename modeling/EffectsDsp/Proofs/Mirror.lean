/-
  EffectsDsp.Proofs.Mirror

  The lowest eight registers show what the oscillators are set to. A program sets an
  oscillator through a register, through WLDS or through WLDR, and each of these writes the
  parameter that the oscillator made of the number to the register of this parameter. Only
  the length of a ramp is not shown at power-on: it starts with the longest one, and its
  register with zero.

  `Mirrored` says so of a register file and a bank. It also keeps the oscillators within
  their limits, of which the counter of a ramp is the one that moves: `toInt_nextCounter`
  says where. The calls of a host keep it, and so does a snapshot, be it restored or refused.
-/

import EffectsDsp.Proofs.Datapath
import EffectsDsp.Proofs.Refusal

namespace EffectsDsp

/-! ## Sines -/

/-- The parameters of the oscillator fit their fields. -/
structure Sine.WithinLimits (s : Sine) : Prop where
  rate : RegisterFile.IsSineRate s.rate
  amplitude : 0 ≤ s.amplitude.toInt ∧ s.amplitude.toInt ≤ 32767

namespace Sine.WithinLimits

variable {s : Sine}

theorem setRate (h : s.WithinLimits) (raw : Int32) : (s.setRate raw).1.WithinLimits :=
  { h with rate := Machine.Stored.isSineRate_clampRate raw }

theorem setAmplitude (h : s.WithinLimits) (raw : Int32) : (s.setAmplitude raw).1.WithinLimits := by
  have hbounds : 0 ≤ (clampAmplitude raw).toInt ∧ (clampAmplitude raw).toInt ≤ 32767 :=
    bounds_ofInt_clampInt (by decide) (by decide) (by decide) raw.toInt
  exact { h with amplitude := hbounds }

theorem advance (h : s.WithinLimits) : s.advance.WithinLimits :=
  ⟨h.rate, h.amplitude⟩

end Sine.WithinLimits

/-! ## Ramps -/

/-- A number that a counter of 23 bits can have. -/
def Ramp.IsCount (v : Int32) : Prop :=
  0 ≤ v.toInt ∧ v.toInt ≤ 8388607

/-- The parameters of the oscillator are legal, and its counter is one. -/
structure Ramp.WithinLimits (r : Ramp) : Prop where
  rate : -16384 ≤ r.rate.toInt ∧ r.rate.toInt ≤ 32767
  amplitude : r.amplitude ∈ [(512 : Int32), 1024, 2048, 4096]
  counter : IsCount r.counter
  latched : IsCount r.latched

namespace Ramp

/-- Of two lengths one is the nearer. -/
theorem nearer_mem {lengths : List Int32} {best other : Int32} (hbest : best ∈ lengths)
    (hother : other ∈ lengths) (raw : Int32) : nearer raw best other ∈ lengths := by
  unfold nearer
  split
  · exact hother
  · exact hbest

theorem nearestAmplitude_mem (raw : Int32) :
    nearestAmplitude raw ∈ [(512 : Int32), 1024, 2048, 4096] := by
  unfold nearestAmplitude
  rw [List.foldl_cons, List.foldl_cons, List.foldl_cons, List.foldl_nil]
  apply nearer_mem
  · apply nearer_mem
    · exact nearer_mem (by decide) (by decide) raw
    · decide
  · decide

theorem amplitudeOfIndex_mem (idx : UInt32) :
    amplitudeOfIndex idx ∈ [(512 : Int32), 1024, 2048, 4096] := by
  unfold amplitudeOfIndex
  split <;> decide

/-- One correction brings a counter back that is out by less than a cycle. -/
theorem toInt_wrapped {moved : Int32} (hlo : -8388608 ≤ moved.toInt)
    (hhi : moved.toInt < 16777216) :
    (if moved < 0 then moved + counterMax + 1
      else if counterMax < moved then moved - counterMax - 1
      else moved).toInt = moved.toInt % 8388608 := by
  have hmax : counterMax.toInt = 8388607 := rfl
  have hone : (1 : Int32).toInt = 1 := rfl
  by_cases hbelow : moved < 0
  · have hneg : moved.toInt < 0 := Int32.lt_iff_toInt_lt.mp hbelow
    have hup : (moved + counterMax).toInt = moved.toInt + 8388607 := by
      rw [toInt_add_of_fits] <;> rw [hmax] <;> omega
    have hwrapped : (moved + counterMax + 1).toInt = moved.toInt + 8388608 := by
      rw [toInt_add_of_fits] <;> rw [hup, hone] <;> omega
    rw [if_pos hbelow, hwrapped]
    omega
  · have hnonneg : ¬ moved.toInt < 0 := fun hneg => hbelow (Int32.lt_iff_toInt_lt.mpr hneg)
    rw [if_neg hbelow]
    by_cases habove : counterMax < moved
    · have hgt := Int32.lt_iff_toInt_lt.mp habove
      rw [hmax] at hgt
      have hdown : (moved - counterMax).toInt = moved.toInt - 8388607 := by
        rw [toInt_sub_of_fits] <;> rw [hmax] <;> omega
      have hwrapped : (moved - counterMax - 1).toInt = moved.toInt - 8388608 := by
        rw [toInt_sub_of_fits] <;> rw [hdown, hone] <;> omega
      rw [if_pos habove, hwrapped]
      omega
    · have hle : ¬ 8388607 < moved.toInt := fun hgt => habove (Int32.lt_iff_toInt_lt.mpr hgt)
      rw [if_neg habove]
      omega

theorem bounds_clampRate (raw : Int32) :
    -16384 ≤ (clampRate raw).toInt ∧ (clampRate raw).toInt ≤ 32767 :=
  bounds_ofInt_clampInt (by decide) (by decide) (by decide) raw.toInt

/-- The counter is one, and the rate moves it by less than a cycle. -/
structure InCycle (r : Ramp) : Prop where
  counter : IsCount r.counter
  rate : -16384 ≤ r.rate.toInt ∧ r.rate.toInt ≤ 32767

namespace InCycle

variable {r : Ramp}

/-- The counter goes down by a quarter of the rate, modulo its 23 bits. -/
theorem toInt_nextCounter (h : r.InCycle) :
    r.nextCounter.toInt = (r.counter.toInt - r.rate.toInt / 4) % 8388608 := by
  obtain ⟨hlo, hhi⟩ := h.counter
  obtain ⟨hrateLo, hrateHi⟩ := h.rate
  have hquarter : (r.rate >>> 2).toInt = r.rate.toInt / 4 := toInt_shiftRight_2 r.rate
  have hmoved : (r.counter - (r.rate >>> 2)).toInt = r.counter.toInt - r.rate.toInt / 4 := by
    rw [toInt_sub_of_fits] <;> rw [hquarter]
    · omega
    · omega
  rw [← hmoved]
  -- A rate moves the counter by less than a cycle.
  exact toInt_wrapped (by omega) (by omega)

theorem isCount_nextCounter (h : r.InCycle) : IsCount r.nextCounter := by
  unfold IsCount
  rw [h.toInt_nextCounter]
  omega

end InCycle

namespace WithinLimits

variable {r : Ramp}

theorem inCycle (h : r.WithinLimits) : r.InCycle :=
  ⟨h.counter, h.rate⟩

theorem setRate (h : r.WithinLimits) (raw : Int32) : (r.setRate raw).1.WithinLimits :=
  { h with rate := bounds_clampRate raw }

theorem setAmplitude (h : r.WithinLimits) (raw : Int32) : (r.setAmplitude raw).1.WithinLimits := by
  have hlength := nearestAmplitude_mem raw
  unfold Ramp.setAmplitude
  -- Which length it is does not matter any more, and the search for it is not to be unfolded.
  generalize nearestAmplitude raw = nearest at hlength
  exact { h with amplitude := hlength }

theorem setAmplitudeIndex (h : r.WithinLimits) (idx : UInt32) :
    (r.setAmplitudeIndex idx).WithinLimits :=
  { h with amplitude := amplitudeOfIndex_mem idx }

theorem advance (h : r.WithinLimits) : r.advance.WithinLimits := by
  have hnext : IsCount r.nextCounter := h.inCycle.isCount_nextCounter
  exact { h with counter := hnext, latched := hnext }

theorem restart (h : r.WithinLimits) : r.restart.WithinLimits := by
  have hzero : IsCount 0 := ⟨by decide, by decide⟩
  exact { h with counter := hzero, latched := hzero }

end WithinLimits
end Ramp

/-! ## The bank -/

/-- All four oscillators are within their limits. -/
structure LfoBank.WithinLimits (bank : LfoBank) : Prop where
  sine : ∀ lfo, (bank.sineOf lfo).WithinLimits
  ramp : ∀ lfo, (bank.rampOf lfo).WithinLimits

namespace LfoBank.WithinLimits

variable {bank : LfoBank}

theorem initial : LfoBank.initial.WithinLimits := by
  constructor
  · intro lfo
    have hsine : LfoBank.initial.sineOf lfo = .initial := by cases lfo <;> rfl
    rw [hsine]
    exact ⟨⟨by decide, by decide⟩, ⟨by decide, by decide⟩⟩
  · intro lfo
    have hramp : LfoBank.initial.rampOf lfo = .initial := by cases lfo <;> rfl
    rw [hramp]
    exact ⟨⟨by decide, by decide⟩, by decide, ⟨by decide, by decide⟩, ⟨by decide, by decide⟩⟩

theorem setSine (h : bank.WithinLimits) (unit : Fin 2) {s : Sine} (hs : s.WithinLimits) :
    (bank.setSine unit s).WithinLimits := by
  constructor
  · intro lfo
    rw [sineOf_setSine]
    split
    · exact hs
    · exact h.sine lfo
  · intro lfo
    rw [rampOf_setSine]
    exact h.ramp lfo

theorem setRamp (h : bank.WithinLimits) (unit : Fin 2) {r : Ramp} (hr : r.WithinLimits) :
    (bank.setRamp unit r).WithinLimits := by
  constructor
  · intro lfo
    rw [sineOf_setRamp]
    exact h.sine lfo
  · intro lfo
    rw [rampOf_setRamp]
    split
    · exact hr
    · exact h.ramp lfo

theorem setParam (h : bank.WithinLimits) (lfo : LfoSelect) (p : LfoParam) (raw : Int32) :
    (bank.setParam lfo p raw).1.WithinLimits := by
  have hsine := h.sine lfo
  have hramp := h.ramp lfo
  unfold LfoBank.setParam
  cases lfo.isRamp with
  | false =>
    cases p with
    | rate => exact h.setSine _ (hsine.setRate raw)
    | range => exact h.setSine _ (hsine.setAmplitude raw)
  | true =>
    cases p with
    | rate => exact h.setRamp _ (hramp.setRate raw)
    | range => exact h.setRamp _ (hramp.setAmplitude raw)

theorem advance (h : bank.WithinLimits) : bank.advance.WithinLimits := by
  constructor
  · intro lfo
    rw [sineOf_advance]
    exact (h.sine lfo).advance
  · intro lfo
    rw [rampOf_advance]
    exact (h.ramp lfo).advance

end LfoBank.WithinLimits

/-! ## The registers -/

namespace RegisterFile

/-- The lowest eight slots are those of parameters, and all others hold values. -/
def Kinded (regs : RegisterFile) : Prop :=
  ∀ address, (regs.config? address).isSome = true ↔ (index address).val < 8

/-- The register of a parameter shows its value. The length of a ramp may be the one of
    power-on, which the register does not show. -/
def Shows (regs : RegisterFile) (lfo : LfoSelect) (p : LfoParam) (value : Int32) : Prop :=
  regs.config? (Address.ofLfoParam lfo p) = some value ∨
    ((lfo.isRamp = true ∧ p = .range) ∧
      regs.config? (Address.ofLfoParam lfo p) = some 0 ∧ value = 4096)

variable {regs : RegisterFile}

theorem index_ofLfoParam_lt (lfo : LfoSelect) (p : LfoParam) :
    (index (Address.ofLfoParam lfo p)).val < 8 := by
  cases lfo <;> cases p <;> decide

/-- Every parameter has a register of its own. -/
theorem eq_of_index_ofLfoParam_eq {lfo other : LfoSelect} {p q : LfoParam}
    (h : index (Address.ofLfoParam lfo p) = index (Address.ofLfoParam other q)) :
    other = lfo ∧ q = p := by
  revert h
  cases lfo <;> cases other <;> cases p <;> cases q <;> decide

theorem config?_initial (address : UInt8) :
    initial.config? address = if (index address).val < 8 then some 0 else none := by
  unfold config?
  rw [slot_initial]
  split <;> rfl

theorem Kinded.initial : RegisterFile.initial.Kinded := by
  intro address
  rw [config?_initial]
  split
  · next h => exact ⟨fun _ => h, fun _ => rfl⟩
  · next h => exact ⟨fun hsome => absurd hsome (by decide), fun hlt => absurd hlt h⟩

theorem Kinded.write (h : regs.Kinded) (address : UInt8) (x : Fixed) :
    (regs.write address x).Kinded := by
  intro other
  rw [config?_write]
  exact h other

theorem Kinded.setConfig (h : regs.Kinded) (address : UInt8) (value : Int32) :
    (regs.setConfig address value).Kinded := by
  intro other
  rw [config?_setConfig]
  split
  · rw [Option.isSome_map]
    exact h other
  · exact h other

/-- A parameter that is stored is shown, and the others are shown as before. -/
theorem Kinded.shows_setConfig (h : regs.Kinded) {lfo other : LfoSelect} {p q : LfoParam}
    {stored value : Int32} (hself : other = lfo ∧ q = p → value = stored)
    (hother : ¬ (other = lfo ∧ q = p) → regs.Shows other q value) :
    (regs.setConfig (Address.ofLfoParam lfo p) stored).Shows other q value := by
  by_cases hsame : other = lfo ∧ q = p
  · left
    obtain ⟨old, hold⟩ := Option.isSome_iff_exists.mp ((h _).mpr (index_ofLfoParam_lt lfo p))
    rw [hself hsame, hsame.1, hsame.2, config?_setConfig, if_pos rfl, hold]
    rfl
  · have hne : ¬ index (Address.ofLfoParam lfo p) = index (Address.ofLfoParam other q) :=
      fun hindex => hsame (eq_of_index_ofLfoParam_eq hindex)
    unfold Shows
    rw [config?_setConfig, if_neg hne]
    exact hother hsame

theorem Shows.write {lfo : LfoSelect} {p : LfoParam} {value : Int32}
    (h : regs.Shows lfo p value) (address : UInt8) (x : Fixed) :
    (regs.write address x).Shows lfo p value := by
  unfold Shows
  rw [config?_write]
  exact h

end RegisterFile

/-! ## Registers and oscillators together -/

/-- The registers show the oscillators, which are within their limits. -/
structure Mirrored (regs : RegisterFile) (bank : LfoBank) : Prop where
  kinded : regs.Kinded
  shown : ∀ lfo p, regs.Shows lfo p (bank.param lfo p)
  limits : bank.WithinLimits

namespace Mirrored

variable {regs : RegisterFile} {bank : LfoBank}

theorem initial : Mirrored .initial .initial where
  kinded := .initial
  shown lfo p := by
    have hregister : RegisterFile.initial.config? (Address.ofLfoParam lfo p) = some 0 := by
      rw [RegisterFile.config?_initial, if_pos (RegisterFile.index_ofLfoParam_lt lfo p)]
    cases lfo with
    | sin0 | sin1 =>
      left
      rw [hregister]
      cases p <;> rfl
    | rmp0 | rmp1 =>
      cases p with
      | rate => exact .inl hregister
      | range => exact .inr ⟨⟨rfl, rfl⟩, hregister, rfl⟩
  limits := .initial

/-- Values that are written go past the registers of parameters. -/
theorem write (h : Mirrored regs bank) (address : UInt8) (x : Fixed) :
    Mirrored (regs.write address x) bank where
  kinded := h.kinded.write address x
  shown lfo p := (h.shown lfo p).write address x
  limits := h.limits

/-- The bank may change in what is not a parameter. -/
theorem withBank (h : Mirrored regs bank) {bank' : LfoBank}
    (hparam : ∀ lfo p, bank'.param lfo p = bank.param lfo p) (hlimits : bank'.WithinLimits) :
    Mirrored regs bank' where
  kinded := h.kinded
  shown lfo p := by
    rw [hparam lfo p]
    exact h.shown lfo p
  limits := hlimits

theorem setParam (h : Mirrored regs bank) (lfo : LfoSelect) (p : LfoParam) (raw : Int32) :
    Mirrored
      (regs.setConfig (Address.ofLfoParam lfo p) ((bank.setParam lfo p raw).1.param lfo p))
      (bank.setParam lfo p raw).1 where
  kinded := h.kinded.setConfig _ _
  shown other q := by
    refine h.kinded.shows_setConfig ?_ fun hne => ?_
    · rintro ⟨rfl, rfl⟩
      rfl
    · rw [LfoBank.param_setParam_of_ne bank hne]
      exact h.shown other q
  limits := h.limits.setParam lfo p raw

/-- Both parameters of an oscillator are stored after it was replaced. -/
theorem replace (h : Mirrored regs bank) {lfo : LfoSelect} {bank' : LfoBank}
    (hothers : ∀ other q, other ≠ lfo → bank'.param other q = bank.param other q)
    (hlimits : bank'.WithinLimits) :
    Mirrored
      ((regs.setConfig (Address.ofLfoParam lfo .rate) (bank'.param lfo .rate)).setConfig
        (Address.ofLfoParam lfo .range) (bank'.param lfo .range))
      bank' where
  kinded := (h.kinded.setConfig _ _).setConfig _ _
  shown other q := by
    -- What the range does not overwrite is the rate, or belongs to another oscillator.
    refine (h.kinded.setConfig _ _).shows_setConfig ?_ fun hrange => ?_
    · rintro ⟨rfl, rfl⟩
      rfl
    · refine h.kinded.shows_setConfig ?_ fun hrate => ?_
      · rintro ⟨rfl, rfl⟩
        rfl
      · have hne : other ≠ lfo := by
          rintro rfl
          cases q with
          | rate => exact hrate ⟨rfl, rfl⟩
          | range => exact hrange ⟨rfl, rfl⟩
        rw [hothers other q hne]
        exact h.shown other q
  limits := hlimits

theorem setSine (h : Mirrored regs bank) {lfo : LfoSelect} (hlfo : lfo.isRamp = false) {s : Sine}
    (hs : s.WithinLimits) :
    Mirrored
      ((regs.setConfig (Address.ofLfoParam lfo .rate) s.rate).setConfig
        (Address.ofLfoParam lfo .range) s.amplitude)
      (bank.setSine lfo.unit s) := by
  have hreplaced := h.replace (fun other q hne => LfoBank.param_setSine_of_ne bank hlfo hne s q)
    (h.limits.setSine lfo.unit hs)
  rw [LfoBank.param_of_sine _ hlfo, LfoBank.param_of_sine _ hlfo,
    LfoBank.sineOf_setSine_self] at hreplaced
  exact hreplaced

theorem setRamp (h : Mirrored regs bank) {lfo : LfoSelect} (hlfo : lfo.isRamp = true) {r : Ramp}
    (hr : r.WithinLimits) :
    Mirrored
      ((regs.setConfig (Address.ofLfoParam lfo .rate) r.rate).setConfig
        (Address.ofLfoParam lfo .range) r.amplitude)
      (bank.setRamp lfo.unit r) := by
  have hreplaced := h.replace (fun other q hne => LfoBank.param_setRamp_of_ne bank hlfo hne r q)
    (h.limits.setRamp lfo.unit hr)
  rw [LfoBank.param_of_ramp _ hlfo, LfoBank.param_of_ramp _ hlfo,
    LfoBank.rampOf_setRamp_self] at hreplaced
  exact hreplaced

/-- No parameter changes while the oscillators move. -/
theorem advance (h : Mirrored regs bank) : Mirrored regs bank.advance := by
  refine h.withBank (fun lfo p => ?_) h.limits.advance
  cases hlfo : lfo.isRamp with
  | false =>
    rw [LfoBank.param_of_sine _ hlfo, LfoBank.param_of_sine _ hlfo, LfoBank.sineOf_advance]
    cases p <;> rfl
  | true =>
    rw [LfoBank.param_of_ramp _ hlfo, LfoBank.param_of_ramp _ hlfo, LfoBank.rampOf_advance]
    cases p <;> rfl

theorem restart (h : Mirrored regs bank) {lfo : LfoSelect} (hlfo : lfo.isRamp = true) :
    Mirrored regs (bank.setRamp lfo.unit (bank.rampOf lfo).restart) :=
  h.withBank (bank.param_setRamp_restart hlfo) (h.limits.setRamp _ (h.limits.ramp lfo).restart)

end Mirrored

/-! ## Instructions and calls -/

namespace Machine

variable {m : Machine}

theorem mirrored_loadDelay (h : Mirrored m.regs m.lfos) (offset : Int32) :
    Mirrored (m.loadDelay offset).regs (m.loadDelay offset).lfos := by
  unfold loadDelay
  rw [noteAccess_eq]
  exact h

theorem mirrored_writeDelay (h : Mirrored m.regs m.lfos) (offset : Int32) (v : Fixed) :
    Mirrored (m.writeDelay offset v).regs (m.writeDelay offset v).lfos := by
  unfold writeDelay
  rw [noteSample_eq, noteAccess_eq]
  exact h

/-- The register gets what the oscillator made of the number. -/
theorem mirrored_programLfo (h : Mirrored m.regs m.lfos) (lfo : LfoSelect) (p : LfoParam)
    (raw : Int32) : Mirrored (m.programLfo lfo p raw).regs (m.programLfo lfo p raw).lfos := by
  obtain ⟨diagnostics, heq⟩ := programLfo_eq m lfo p raw
  rw [heq]
  exact h.setParam lfo p raw

theorem mirrored_loadSine (h : Mirrored m.regs m.lfos) {lfo : LfoSelect}
    (hlfo : lfo.isRamp = false) (rate amplitude : Int32) :
    Mirrored (m.loadSine lfo rate amplitude).regs (m.loadSine lfo rate amplitude).lfos := by
  have hloaded := ((h.limits.sine lfo).setRate rate).setAmplitude amplitude
  obtain ⟨diagnostics, heq⟩ := loadSine_eq m lfo rate amplitude
  rw [heq]
  exact h.setSine hlfo hloaded

theorem mirrored_loadRamp (h : Mirrored m.regs m.lfos) {lfo : LfoSelect}
    (hlfo : lfo.isRamp = true) (rate? : Option Int32) (idx : UInt32) :
    Mirrored (m.loadRamp lfo rate? idx).regs (m.loadRamp lfo rate? idx).lfos := by
  have hramp := h.limits.ramp lfo
  obtain ⟨diagnostics, heq⟩ := loadRamp_eq m lfo rate? idx
  rw [heq]
  cases rate? with
  | none => exact h.setRamp hlfo (hramp.setAmplitudeIndex idx)
  | some rate => exact h.setRamp hlfo ((hramp.setRate rate).setAmplitudeIndex idx)

theorem mirrored_writeRegister (h : Mirrored m.regs m.lfos) (address : UInt8) :
    Mirrored (m.writeRegister address).regs (m.writeRegister address).lfos := by
  unfold writeRegister
  split
  · exact mirrored_programLfo h _ _ _
  · rw [noteRail_eq]
    exact h.write address m.acc

/-- WLDS names a sine, as no word has another oscillator for it; WLDR and JAM count ramps. -/
theorem mirrored_outward (h : Mirrored m.regs m.lfos) {op : Operation} (hop : op.IsDecoded) :
    Mirrored (m.outward op).regs (m.outward op).lfos := by
  unfold outward
  cases hmnemonic : op.mnemonic with
  | rda | rmpa | choRda => exact mirrored_loadDelay h _
  | wra | wrap => exact mirrored_writeDelay h _ _
  | wrax | wrhx | wrlx => exact mirrored_writeRegister h _
  | wlds => exact mirrored_loadSine h (hop.isRamp_of_wlds hmnemonic) _ _
  | wldr => exact mirrored_loadRamp h (LfoSelect.isRamp_ofBits_or _) _ _
  | jam => exact h.restart (LfoSelect.isRamp_ofBits_or _)
  | _ => exact h

/-- What every call of a host keeps. Lengths are 64-bit numbers. -/
structure Mirroring (m : Machine) : Prop where
  mirrored : Mirrored m.regs m.lfos
  delaySize : m.delay.size < UInt64.size

namespace Mirroring

theorem powerOn {size : Nat} (hsize : size < UInt64.size) (saturating : Bool) :
    (Machine.powerOn size saturating).Mirroring where
  mirrored := .initial
  delaySize := by
    rw [size_delay_powerOn]
    exact hsize

theorem execute (h : m.Mirroring) {op : Operation} (hop : op.IsDecoded) :
    (m.execute op).Mirroring where
  mirrored := by
    rw [execute_eq]
    exact mirrored_outward h.mirrored hop
  delaySize := by
    rw [delay_execute, (framed_outward m op).delaySize]
    exact h.delaySize

theorem setPot (h : m.Mirroring) (pot : Nat) (value : Fixed) : (m.setPot pot value).Mirroring := by
  unfold Machine.setPot
  split
  · exact { h with mirrored := h.mirrored.write _ _ }
  · exact h

theorem invariant : Invariant Mirroring where
  execute hop h := h.execute hop
  endSample h := { h with }
  rewind h := { h with }
  setInputs _ _ h := { h with mirrored := (h.mirrored.write _ _).write _ _ }
  setPot pot value h := h.setPot pot value
  advanceLfos h := { h with mirrored := h.mirrored.advance }
  reset {m} h := .powerOn h.delaySize m.saturating

/-- A restored machine has the registers and oscillators of the one that was saved, and one
    that refuses the snapshot keeps its own. -/
theorem restore {source : Machine} (hsource : source.Mirroring) (h : m.Mirroring) :
    (m.restore source.snapshot).2.Mirroring := by
  by_cases hlength : source.delay.size = m.delay.size
  · rw [restore_snapshot_eq hlength hsource.delaySize]
    exact ⟨hsource.mirrored, hsource.delaySize⟩
  · rw [restore_of_error (restored_mismatch hsource.delaySize hlength)]
    exact h

end Mirroring

/-! ## Every machine -/

/-- The machines that a host can bring about from power-on or a reset, whatever was reset, by
    calls with decoded programs and by restoring snapshots of such machines, whether they are
    refused or not. Lengths are 64-bit numbers. -/
inductive Attainable : Machine → Prop
  | start (settings : Settings) (hsize : settings.delaySize < UInt64.size) :
      Attainable (ofSettings settings)
  | reset (m : Machine) (hsize : m.delay.size < UInt64.size) : Attainable m.reset
  | call {m : Machine} (call : HostCall) (hcall : call.IsDecoded) :
      Attainable m → Attainable (m.afterCall call)
  | restore {source m : Machine} :
      Attainable source → Attainable m → Attainable (m.restore source.snapshot).2

theorem Attainable.mirroring (h : Attainable m) : m.Mirroring := by
  induction h with
  | start settings hsize => exact .powerOn (max_one_lt_size hsize) settings.saturate
  | reset m hsize => exact .powerOn hsize m.saturating
  | call call hcall _ ih => exact Mirroring.invariant.afterCall ih hcall
  | restore _ _ ihSource ih => exact ihSource.restore ih

/-- The registers show what the oscillators are set to, and the oscillators are within their
    limits. -/
structure ShowsLfos (m : Machine) : Prop where
  /-- The lowest eight slots hold parameters, and all others hold values. -/
  kinds : ∀ address, (∃ v, m.regs.slot address = .config v) ↔
    (RegisterFile.index address).val < 8
  sineRate : ∀ lfo, lfo.isRamp = false →
    m.regs.slot (Address.ofLfoParam lfo .rate) = .config (m.lfos.sineOf lfo).rate
  sineRange : ∀ lfo, lfo.isRamp = false →
    m.regs.slot (Address.ofLfoParam lfo .range) = .config (m.lfos.sineOf lfo).amplitude
  rampRate : ∀ lfo, lfo.isRamp = true →
    m.regs.slot (Address.ofLfoParam lfo .rate) = .config (m.lfos.rampOf lfo).rate
  /-- The length of a ramp is not shown as long as it is the one of power-on. -/
  rampRange : ∀ lfo, lfo.isRamp = true →
    m.regs.slot (Address.ofLfoParam lfo .range) = .config (m.lfos.rampOf lfo).amplitude ∨
      m.regs.slot (Address.ofLfoParam lfo .range) = .config 0 ∧
        (m.lfos.rampOf lfo).amplitude = 4096
  sines : ∀ lfo, (m.lfos.sineOf lfo).WithinLimits
  ramps : ∀ lfo, (m.lfos.rampOf lfo).WithinLimits

/-- Whichever way a program sets an oscillator, its registers show what it became. -/
theorem showsLfos_of_attainable (h : Attainable m) : m.ShowsLfos := by
  obtain ⟨hkinded, hshown, hlimits⟩ := h.mirroring.mirrored
  have hsine : ∀ lfo, lfo.isRamp = false → ∀ p,
      m.regs.slot (Address.ofLfoParam lfo p) = .config (m.lfos.param lfo p) := by
    intro lfo hlfo p
    obtain hshows | ⟨⟨hramp, -⟩, -⟩ := hshown lfo p
    · exact RegisterFile.config?_eq_some.mp hshows
    · rw [hlfo] at hramp
      cases hramp
  refine
    { kinds := fun address => ?_
      sineRate := fun lfo hlfo => ?_
      sineRange := fun lfo hlfo => ?_
      rampRate := fun lfo hlfo => ?_
      rampRange := fun lfo hlfo => ?_
      sines := hlimits.sine
      ramps := hlimits.ramp }
  · rw [← hkinded address, Option.isSome_iff_exists]
    simp only [RegisterFile.config?_eq_some]
  · rw [hsine lfo hlfo, LfoBank.param_of_sine _ hlfo]
  · rw [hsine lfo hlfo, LfoBank.param_of_sine _ hlfo]
  · obtain hshows | ⟨⟨-, hrange⟩, -⟩ := hshown lfo .rate
    · rw [LfoBank.param_of_ramp _ hlfo] at hshows
      exact RegisterFile.config?_eq_some.mp hshows
    · cases hrange
  · have hshows := hshown lfo .range
    rw [LfoBank.param_of_ramp _ hlfo] at hshows
    obtain hshows | ⟨-, hzero, hlength⟩ := hshows
    · exact .inl (RegisterFile.config?_eq_some.mp hshows)
    · exact .inr ⟨RegisterFile.config?_eq_some.mp hzero, hlength⟩

/-- WLDS SIN1, 12, 160. -/
def loadSin1 : Operation :=
  { mnemonic := .wlds
    operands :=
      [⟨⟨.amplitude, 15, .unsigned⟩, 160⟩, ⟨⟨.frequency, 9, .unsigned⟩, 12⟩,
        ⟨⟨.oscillator, 1, .unsigned⟩, 1⟩, ⟨⟨.selector, 2, .constant 0⟩, 0⟩]
    word := 0x20c01412 }

/-- After WLDS a sine moves by the rate that its register shows. -/
theorem showsLfos_loadSin1 :
    Attainable ((powerOn 1 true).reset.afterCall (.runSample 2 #[loadSin1])) ∧
      ((powerOn 1 true).reset.afterCall (.runSample 2 #[loadSin1])).ShowsLfos ∧
      ((powerOn 1 true).reset.afterCall (.runSample 2 #[loadSin1])).regs.slot
        (Address.ofLfoParam .sin1 .rate) = .config 12 := by
  have hprogram : Program.IsDecoded #[loadSin1] := by
    intro op hop
    obtain rfl := Array.mem_singleton.mp hop
    exact ⟨0x20c01412, by decide⟩
  have hreset : Attainable (powerOn 1 true).reset := .reset (powerOn 1 true) (by decide)
  have hafter := Attainable.call (.runSample 2 #[loadSin1]) hprogram hreset
  exact ⟨hafter, showsLfos_of_attainable hafter, by decide⟩

end Machine
end EffectsDsp
