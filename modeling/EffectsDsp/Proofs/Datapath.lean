/-
  EffectsDsp.Proofs.Datapath

  The numbers of a machine stay within 24 bits, whatever a host does with it. The
  accumulators, the registers that programs write and the outputs of a machine that clamps
  lie in the datapath, and LR and delay memory do so in both modes.

  Two ways past the clamps have to be closed. LDAX loads a register as it is, but a decoded
  LDAX loads the rate of the first oscillator, and that is a legal one: this is the part of
  the invariant that the statement does not show. And what a host writes to potentiometers
  and inputs is not clamped, but no instruction takes it from there without arithmetic.
-/

import EffectsDsp.Proofs.Decoded
import EffectsDsp.Proofs.Effect
import EffectsDsp.Proofs.Snapshot

namespace EffectsDsp

/-! ## Registers -/

namespace RegisterFile

/-- The register belongs to the host: a potentiometer or an input. -/
def IsHostWritten (address : UInt8) : Prop :=
  ∃ a ∈ [Address.pot0, Address.pot1, Address.pot2, Address.inputLeft, Address.inputRight],
    index a = index address

instance (address : UInt8) : Decidable (IsHostWritten address) :=
  inferInstanceAs (Decidable (∃ _ ∈ _, _))

/-- The values in all other registers lie in the datapath. -/
def IsClamped (regs : RegisterFile) : Prop :=
  ∀ address x, ¬ IsHostWritten address → regs.slot address = .audio x →
    InDatapath x.raw.toInt

/-- A number that is a rate of a sine oscillator. -/
def IsSineRate (v : Int32) : Prop :=
  0 ≤ v.toInt ∧ v.toInt ≤ 511

/-- The first register shows a rate of the first sine oscillator. -/
def ShowsRate (regs : RegisterFile) : Prop :=
  ∃ v, regs.slot 0 = .config v ∧ IsSineRate v

variable {regs : RegisterFile}

/-- A value may be written if it lies in the datapath or the register is the host's. -/
theorem IsClamped.write (h : regs.IsClamped) {address : UInt8} {x : Fixed}
    (hx : IsHostWritten address ∨ InDatapath x.raw.toInt) :
    (regs.write address x).IsClamped := by
  intro other y hother hslot
  obtain ⟨hindex, rfl⟩ | hold := audio_of_slot_write hslot
  · rcases hx with ⟨a, ha, haddress⟩ | hx
    · exact absurd ⟨a, ha, haddress.trans hindex⟩ hother
    · exact hx
  · exact h other y hother hold

theorem IsClamped.setConfig (h : regs.IsClamped) (address : UInt8) (value : Int32) :
    (regs.setConfig address value).IsClamped := by
  intro other y hother hslot
  exact h other y hother (audio_of_slot_setConfig hslot)

/-- No value is ever written to the register of the rate. -/
theorem ShowsRate.write (h : regs.ShowsRate) (address : UInt8) (x : Fixed) :
    (regs.write address x).ShowsRate := by
  obtain ⟨v, hslot, hv⟩ := h
  refine ⟨v, ?_, hv⟩
  unfold RegisterFile.write
  rw [slot_modify, hslot]
  split <;> rfl

theorem ShowsRate.setConfig (h : regs.ShowsRate) {address : UInt8} {value : Int32}
    (hvalue : index address = index 0 → IsSineRate value) :
    (regs.setConfig address value).ShowsRate := by
  obtain ⟨v, hslot, hv⟩ := h
  unfold RegisterFile.setConfig
  by_cases hindex : index address = index 0
  · refine ⟨value, ?_, hvalue hindex⟩
    rw [slot_modify, if_pos hindex, hslot]
    rfl
  · refine ⟨v, ?_, hv⟩
    rw [slot_modify, if_neg hindex, hslot]

/-- The rate is read at the top of a 24-bit word, where it has room. -/
theorem ShowsRate.inDatapath_read (h : regs.ShowsRate) :
    InDatapath (regs.read 0).raw.toInt := by
  obtain ⟨v, hslot, hlo, hhi⟩ := h
  have hread : (regs.read 0).raw = v <<< (14 : Int32) := by
    unfold RegisterFile.read
    rw [hslot]
    rfl
  have hunits : ((1 <<< 14 : Nat) : Int) = 16384 := rfl
  rw [hread, toInt_shiftLeft_of_fits (n := 14) rfl (by omega) (by omega), inDatapath_iff]
  omega

/-- A register that neither the host writes nor an oscillator is read in the datapath. -/
theorem IsClamped.read (h : regs.IsClamped) {address : UInt8}
    (hhost : ¬ IsHostWritten address) (hparam : Address.lfoParam? address = none) :
    InDatapath (regs.read address).raw.toInt := by
  unfold RegisterFile.read
  cases hslot : regs.slot address with
  | config v =>
    unfold Register.read
    rw [hparam]
    exact inDatapath_zero
  | audio x => exact h address x hhost hslot

/-- At power-on every value is zero, and so is every rate. -/
theorem isClamped_initial : initial.IsClamped := by
  intro address x _ hslot
  rw [slot_initial] at hslot
  split at hslot
  · cases hslot
  · obtain rfl := Register.audio.inj hslot
    exact inDatapath_zero

theorem showsRate_initial : initial.ShowsRate :=
  ⟨0, rfl, by decide, by decide⟩

end RegisterFile

/-! ## Everything but the accumulators -/

namespace Machine

/-- LR, the registers and delay memory hold what they may hold, and if values clamp,
    nothing too large was ever sent to delay memory. -/
structure Stored (clamps : Bool) (m : Machine) : Prop where
  lr : InDatapath m.lr.raw.toInt
  delay : ∀ word ∈ m.delay, InDatapath word.toInt
  rate : m.regs.ShowsRate
  regs : clamps = true → m.regs.IsClamped
  samples : clamps = true → m.diagnostics.sampleOverflows = 0

namespace Stored

variable {clamps : Bool} {m : Machine}

theorem noteAccess (h : m.Stored clamps) (offset : Int32) (access : Access) :
    (m.noteAccess offset access).Stored clamps := by
  unfold Machine.noteAccess
  split
  · exact h
  · cases access <;> exact { h with }

theorem noteLfo (h : m.Stored clamps) (lfo : LfoSelect) (clamped : Bool) :
    (m.noteLfo lfo clamped).Stored clamps := by
  unfold Machine.noteLfo
  split <;> exact { h with }

theorem noteRail (h : m.Stored clamps) (address : UInt8) :
    (m.noteRail address).Stored clamps := by
  unfold Machine.noteRail
  repeat' split
  all_goals exact { h with }

theorem withLfos (h : m.Stored clamps) (lfos : LfoBank) : { m with lfos }.Stored clamps :=
  { h with }

/-- A word that is read lies in the datapath, be it a cell or the zero beyond all cells. -/
theorem loadDelay (h : m.Stored clamps) (offset : Int32) : (m.loadDelay offset).Stored clamps := by
  have hword : InDatapath (m.delayWord offset).raw.toInt := by
    show InDatapath (m.delay[m.delayIndex offset]?.getD 0).toInt
    cases hcell : m.delay[m.delayIndex offset]? with
    | none => exact inDatapath_zero
    | some word => exact h.delay word (Array.mem_of_getElem? hcell)
  exact { h.noteAccess offset .read with lr := hword }

/-- A value of the datapath is not counted on its way to delay memory. -/
theorem noteSample (h : m.Stored clamps) {v : Fixed}
    (hv : clamps = true → InDatapath v.raw.toInt) : (m.noteSample v).Stored clamps := by
  unfold Machine.noteSample
  split
  · next hlarge =>
    refine { h with samples := fun hclamps => ?_ }
    rw [Fixed.toSample_snd, decide_eq_true (hv hclamps)] at hlarge
    cases hlarge
  · exact h

/-- A write stores 24 bits of any value. -/
theorem writeDelay (h : m.Stored clamps) (offset : Int32) {v : Fixed}
    (hv : clamps = true → InDatapath v.raw.toInt) : (m.writeDelay offset v).Stored clamps := by
  have hcells : ∀ word ∈ (m.writeDelay offset v).delay, InDatapath word.toInt := by
    intro word hword
    rw [delay_writeDelay] at hword
    obtain hold | rfl := Array.mem_or_eq_of_mem_setIfInBounds hword
    · exact h.delay word hold
    · exact Fixed.inDatapath_toSample v
  exact { (h.noteAccess offset .write).noteSample hv with delay := hcells }

theorem withRegs (h : m.Stored clamps) {regs : RegisterFile} (hrate : regs.ShowsRate)
    (hregs : clamps = true → regs.IsClamped) : { m with regs }.Stored clamps :=
  { h with rate := hrate, regs := hregs }

/-- Only the rate of the first oscillator is shown where LDAX loads from. -/
theorem showParam (h : m.Stored clamps) {lfo : LfoSelect} {p : LfoParam} {value : Int32}
    (hvalue : lfo = .sin0 → p = .rate → RegisterFile.IsSineRate value) :
    (m.showParam lfo p value).Stored clamps := by
  have hindex : RegisterFile.index (Address.ofLfoParam lfo p) = RegisterFile.index 0 →
      lfo = .sin0 ∧ p = .rate := by
    cases lfo <;> cases p <;> decide
  refine h.withRegs (h.rate.setConfig fun hsame => ?_) fun hclamps =>
    (h.regs hclamps).setConfig _ value
  obtain ⟨hlfo, hp⟩ := hindex hsame
  exact hvalue hlfo hp

theorem isSineRate_clampRate (raw : Int32) : RegisterFile.IsSineRate (Sine.clampRate raw) :=
  bounds_ofInt_clampInt (by decide) (by decide) (by decide) raw.toInt

theorem programLfo (h : m.Stored clamps) (lfo : LfoSelect) (p : LfoParam) (raw : Int32) :
    (m.programLfo lfo p raw).Stored clamps := by
  refine ((h.withLfos _).noteLfo lfo _).showParam fun hlfo hp => ?_
  subst hlfo hp
  have hrate : ((m.lfos.setParam .sin0 .rate raw).1).param .sin0 .rate = Sine.clampRate raw :=
    congrArg Sine.rate (LfoBank.sineOf_setSine_self m.lfos .sin0 _)
  show RegisterFile.IsSineRate (((m.lfos.setParam .sin0 .rate raw).1).param .sin0 .rate)
  rw [hrate]
  exact isSineRate_clampRate raw

theorem loadSine (h : m.Stored clamps) (lfo : LfoSelect) (rate amplitude : Int32) :
    (m.loadSine lfo rate amplitude).Stored clamps := by
  refine (((h.withLfos _).noteLfo lfo _).showParam fun _ _ => ?_).showParam fun _ hp => ?_
  · exact isSineRate_clampRate rate
  · cases hp

theorem loadRamp (h : m.Stored clamps) {lfo : LfoSelect} (hlfo : lfo.isRamp = true)
    (rate? : Option Int32) (idx : UInt32) : (m.loadRamp lfo rate? idx).Stored clamps := by
  -- The registers of a ramp are not the one that LDAX loads.
  have hsine : lfo ≠ .sin0 := by
    rintro rfl
    cases hlfo
  refine (((h.withLfos _).noteLfo lfo _).showParam fun hsin _ => ?_).showParam fun hsin _ => ?_
  · exact absurd hsin hsine
  · exact absurd hsin hsine

/-- What a program writes to a register is the accumulator. -/
theorem writeRegister (h : m.Stored clamps) (address : UInt8)
    (hacc : clamps = true → InDatapath m.acc.raw.toInt) :
    (m.writeRegister address).Stored clamps := by
  unfold Machine.writeRegister
  cases Address.lfoParam? address with
  | some target => exact h.programLfo _ _ _
  | none =>
    have hnoted := h.noteRail address
    have hsame : (m.noteRail address).acc = m.acc := (framed_noteRail m address).acc
    refine hnoted.withRegs (hnoted.rate.write address _) fun hclamps => ?_
    refine (hnoted.regs hclamps).write (.inr ?_)
    rw [hsame]
    exact hacc hclamps

/-- The outward part of an instruction stores nothing but the accumulator. -/
theorem outward (h : m.Stored clamps) (hacc : clamps = true → InDatapath m.acc.raw.toInt)
    (op : Operation) : (m.outward op).Stored clamps := by
  unfold Machine.outward
  cases op.mnemonic with
  | rda | rmpa | choRda => exact h.loadDelay _
  | wra | wrap => exact h.writeDelay _ hacc
  | wrax | wrhx | wrlx => exact h.writeRegister _ hacc
  | wlds => exact h.loadSine _ _ _
  | wldr => exact h.loadRamp (LfoSelect.isRamp_ofBits_or _) _ _
  | jam => exact h.withLfos _
  | _ => exact h

end Stored

/-! ## The accumulator -/

variable {m : Machine}

/-- A machine that clamps computes an accumulator in the datapath: every computation ends
    with a clamp, except for those on bits and for what a decoded LDAX loads. -/
theorem inDatapath_computed {op : Operation} (hmode : m.HasMode true)
    (hacc : InDatapath m.acc.raw.toInt) (hrate : m.regs.ShowsRate)
    (hldax : op.mnemonic = .ldax → op.registerAddress = 0) :
    InDatapath (m.computed op).raw.toInt := by
  unfold computed
  cases hmnemonic : op.mnemonic with
  | ldax =>
    rw [hldax hmnemonic]
    exact hrate.inDatapath_read
  | maxx =>
    have hmagnitude : InDatapath m.acc.abs.withoutClamps.raw.toInt :=
      Fixed.inDatapath_abs hmode.acc
    have hscaled : InDatapath (m.scaledMagnitude op).withoutClamps.raw.toInt :=
      Fixed.inDatapath_abs hmode.machine
    exact Fixed.inDatapath_larger hmagnitude hscaled
  | wra | wrax | mulx => exact Fixed.inDatapath_mul hmode.acc _
  | absa => exact Fixed.inDatapath_abs hmode.acc
  | and | clr | or | xor | not => exact Fixed.inDatapath_mapBits _ _
  | wrlx | log | exp | sof | choRdal =>
    apply Fixed.inDatapath_add
    exact hmode.machine
  | skp | nop | wlds | wldr | jam | choReserved => exact hacc
  | _ =>
    apply Fixed.inDatapath_add
    exact hmode.acc

/-! ## The invariant -/

/-- What every call of a host keeps. -/
structure Sound (m : Machine) : Prop where
  mode : m.HasMode m.saturating
  accClamps : m.acc.clamps = 0
  paccClamps : m.pacc.clamps = 0
  acc : m.saturating = true → InDatapath m.acc.raw.toInt
  pacc : m.saturating = true → InDatapath m.pacc.raw.toInt
  stored : m.Stored m.saturating
  delaySize : m.delay.size < UInt64.size

theorem sound_powerOn {size : Nat} (hsize : size < UInt64.size) (saturating : Bool) :
    (powerOn size saturating).Sound where
  mode := ⟨rfl, rfl, rfl⟩
  accClamps := rfl
  paccClamps := rfl
  acc _ := inDatapath_zero
  pacc _ := inDatapath_zero
  stored :=
    { lr := inDatapath_zero
      delay := fun word hword => by
        obtain rfl := Array.eq_of_mem_replicate hword
        exact inDatapath_zero
      rate := RegisterFile.showsRate_initial
      regs := fun _ => RegisterFile.isClamped_initial
      samples := fun _ => rfl }
  delaySize := by
    rw [size_delay_powerOn]
    exact hsize

namespace Sound

/-! ### Instructions -/

theorem stored_execute (h : m.Sound) (op : Operation) : (m.execute op).Stored m.saturating := by
  -- Beyond the outward part an instruction counts clamps, which are not stored.
  have houtward := h.stored.outward h.acc op
  rw [execute_eq]
  exact { houtward with }

theorem inDatapath_acc_execute (h : m.Sound) {op : Operation} (hop : op.IsDecoded)
    (hclamps : m.saturating = true) : InDatapath (m.execute op).acc.raw.toInt := by
  have hmode := h.mode.outward op
  have houtward := h.stored.outward h.acc op
  have hldax : op.mnemonic = .ldax → op.registerAddress = 0 := by
    intro hmnemonic
    unfold Operation.registerAddress
    rw [hop.register_of_ldax hmnemonic]
    rfl
  rw [hclamps] at hmode
  rw [acc_execute]
  refine inDatapath_computed hmode ?_ houtward.rate hldax
  rw [(framed_outward m op).acc]
  exact h.acc hclamps

/-- A decoded instruction keeps the invariant. -/
theorem execute (h : m.Sound) {op : Operation} (hop : op.IsDecoded) : (m.execute op).Sound := by
  have hpacc : (m.execute op).pacc = m.acc ∨ (m.execute op).pacc = m.pacc := by
    rw [pacc_execute]
    split
    · exact .inl rfl
    · exact .inr rfl
  refine ⟨?_, ?_, ?_, ?_, ?_, ?_, ?_⟩
  · rw [saturating_execute]
    exact h.mode.execute op
  · rw [acc_execute, Fixed.clamps_withoutClamps]
  · obtain heq | heq := hpacc
    · rw [heq, h.accClamps]
    · rw [heq, h.paccClamps]
  · rw [saturating_execute]
    exact h.inDatapath_acc_execute hop
  · rw [saturating_execute]
    intro hclamps
    obtain heq | heq := hpacc
    · rw [heq]
      exact h.acc hclamps
    · rw [heq]
      exact h.pacc hclamps
  · rw [saturating_execute]
    exact h.stored_execute op
  · rw [delay_execute, (framed_outward m op).delaySize]
    exact h.delaySize

/-- A change besides the accumulators and the mode has to keep what is stored. -/
theorem of_stored (h : m.Sound) {n : Machine} (hacc : n.acc = m.acc) (hpacc : n.pacc = m.pacc)
    (hsaturating : n.saturating = m.saturating) (hdelay : n.delay = m.delay)
    (hstored : n.Stored m.saturating) : n.Sound := by
  refine ⟨⟨rfl, ?_, ?_⟩, ?_, ?_, ?_, ?_, ?_, ?_⟩
  · rw [hacc, hsaturating, h.mode.acc]
  · rw [hpacc, hsaturating, h.mode.pacc]
  · rw [hacc, h.accClamps]
  · rw [hpacc, h.paccClamps]
  · rw [hacc, hsaturating]
    exact h.acc
  · rw [hpacc, hsaturating]
    exact h.pacc
  · rw [hsaturating]
    exact hstored
  · rw [hdelay]
    exact h.delaySize

theorem endSample (h : m.Sound) : m.endSample.Sound :=
  h.of_stored rfl rfl rfl rfl { h.stored with }

/-! ### Calls -/

theorem setInputs (h : m.Sound) (left right : Fixed) : (m.setInputs left right).Sound := by
  refine h.of_stored rfl rfl rfl rfl (h.stored.withRegs ?_ fun hclamps => ?_)
  · exact (h.stored.rate.write _ _).write _ _
  · refine ((h.stored.regs hclamps).write (.inl ?_)).write (.inl ?_)
    · decide
    · decide

theorem setPot (h : m.Sound) (pot : Nat) (value : Fixed) : (m.setPot pot value).Sound := by
  unfold Machine.setPot
  cases hpot : Address.pot? pot with
  | none => exact h
  | some address =>
    have haddress : RegisterFile.IsHostWritten address := by
      have hmem : address ∈ [Address.pot0, Address.pot1, Address.pot2] :=
        List.mem_of_getElem? hpot
      exact ⟨address, List.mem_append_left [Address.inputLeft, Address.inputRight] hmem, rfl⟩
    refine h.of_stored rfl rfl rfl rfl (h.stored.withRegs ?_ fun hclamps => ?_)
    · exact h.stored.rate.write _ _
    · exact (h.stored.regs hclamps).write (.inl haddress)

theorem advanceLfos (h : m.Sound) : m.advanceLfos.Sound :=
  h.of_stored rfl rfl rfl rfl { h.stored with }

theorem invariant : Invariant Sound where
  execute hop h := h.execute hop
  endSample := endSample
  rewind h := h.of_stored rfl rfl rfl rfl { h.stored with }
  setInputs left right h := h.setInputs left right
  setPot pot value h := h.setPot pot value
  advanceLfos := advanceLfos
  reset {m} h := sound_powerOn h.delaySize m.saturating

end Sound

/-! ## Reachable machines -/

/-- The machines differ in nothing that a host chooses once: the length of delay memory and
    the saturation mode. -/
def SameSetup (source m : Machine) : Prop :=
  source.delay.size = m.delay.size ∧ source.saturating = m.saturating

theorem Reachable.sound (h : Reachable SameSetup m) : m.Sound := by
  induction h with
  | start settings hsize => exact sound_powerOn (max_one_lt_size hsize) settings.saturate
  | call call hcall _ ih => exact Sound.invariant.afterCall ih hcall
  | @restore source target hsetup _ _ ihSource ihTarget =>
    -- A restored machine is the one that was saved, which was sound.
    obtain ⟨hlength, hsaturating⟩ := hsetup
    have hself : (target.restore source.snapshot).2 = source := by
      rw [restore_snapshot_eq hlength ihSource.delaySize]
      exact inMode_of_hasMode (hsaturating ▸ ihSource.mode)
    rw [hself]
    exact ihSource

/-- The numbers of the machine fit their 24 bits where a clamp or a width makes them. -/
structure WithinDatapath (m : Machine) : Prop where
  accMode : m.acc.saturating = m.saturating
  paccMode : m.pacc.saturating = m.saturating
  accClamps : m.acc.clamps = 0
  paccClamps : m.pacc.clamps = 0
  lr : InDatapath m.lr.raw.toInt
  delay : ∀ word ∈ m.delay, InDatapath word.toInt
  acc : m.saturating = true → InDatapath m.acc.raw.toInt
  pacc : m.saturating = true → InDatapath m.pacc.raw.toInt
  regs : m.saturating = true → m.regs.IsClamped
  outputs : m.saturating = true →
    InDatapath m.outputs.1.raw.toInt ∧ InDatapath m.outputs.2.raw.toInt
  sampleOverflows : m.saturating = true → m.diagnostics.sampleOverflows = 0

/-- Every machine that a host can bring about stays within the datapath, though the host
    may set inputs and potentiometers to any number. -/
theorem withinDatapath_of_reachable (h : Reachable SameSetup m) : m.WithinDatapath := by
  have hsound := h.sound
  have houtputs : m.saturating = true →
      InDatapath m.outputs.1.raw.toInt ∧ InDatapath m.outputs.2.raw.toInt := by
    intro hclamps
    have hregs := hsound.stored.regs hclamps
    exact ⟨hregs.read (by decide) rfl, hregs.read (by decide) rfl⟩
  exact
    { accMode := hsound.mode.acc
      paccMode := hsound.mode.pacc
      accClamps := hsound.accClamps
      paccClamps := hsound.paccClamps
      lr := hsound.stored.lr
      delay := hsound.stored.delay
      acc := hsound.acc
      pacc := hsound.pacc
      regs := hsound.stored.regs
      outputs := houtputs
      sampleOverflows := hsound.stored.samples }

/-- An input of the largest number of the container is no exception. -/
theorem withinDatapath_setInputs :
    Reachable SameSetup
        ((ofSettings {}).afterCall (.setInputs (.ofRaw 2147483647) (.ofRaw 2147483647))) ∧
      ((ofSettings {}).afterCall
        (.setInputs (.ofRaw 2147483647) (.ofRaw 2147483647))).WithinDatapath := by
  have hstart : Reachable SameSetup (ofSettings {}) := .start {} (by decide)
  have hreachable := Reachable.call
    (.setInputs (.ofRaw 2147483647) (.ofRaw 2147483647)) trivial hstart
  exact ⟨hreachable, withinDatapath_of_reachable hreachable⟩

end Machine
end EffectsDsp
