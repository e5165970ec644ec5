/-
  EffectsDsp.Proofs.Footprint

  What an instruction changes, and what it leaves alone. `Acts` lists the things that the
  outward part of an instruction can do: it reads delay memory, writes it, stores the
  accumulator in a register, sets a parameter of an oscillator or both of them, starts a ramp
  again, or does nothing. It does one of them, and the rest of the machine stays as it is.

  `Footprint` says the same of whole instructions and with the values that are written. All
  of these are taken from the machine before the instruction: delay memory and registers
  receive the accumulator as it was, and so does the previous accumulator, but for the six
  instructions that keep it.
-/

import EffectsDsp.Proofs.Export
import EffectsDsp.Proofs.FaultCount
import EffectsDsp.Proofs.Motion

namespace EffectsDsp

/-! ## What operations name -/

/-- Instructions that load a delay memory word to LR. -/
def Mnemonic.readsDelay : Mnemonic → Bool
  | rda | rmpa | choRda => true
  | _ => false

/-- Of the instructions that have an effect, six keep the previous accumulator. -/
theorem Mnemonic.latches_eq {mnemonic : Mnemonic} (h : mnemonic ≠ .choReserved) :
    mnemonic.latches = decide (mnemonic ∉ [.or, .skp, .nop, .wlds, .wldr, .jam]) := by
  revert h
  cases mnemonic <;> decide

namespace Operation

variable {op : Operation}

/-- The oscillator that an operation sets both parameters of. -/
def loadedLfo? (op : Operation) : Option LfoSelect :=
  match op.mnemonic with
  | .wlds => some (.ofBits (op.bits .oscillator))
  | .wldr => some (.ofBits (2 ||| op.bits .oscillator))
  | _ => none

/-- The parameter that an operation writes the accumulator to. -/
def writtenParam? (op : Operation) : Option (LfoSelect × LfoParam) :=
  match op.mnemonic with
  | .wrax | .wrhx | .wrlx => Address.lfoParam? op.registerAddress
  | _ => none

theorem mnemonic_of_readsDelay (h : op.mnemonic.readsDelay = true) :
    op.mnemonic = .rda ∨ op.mnemonic = .rmpa ∨ op.mnemonic = .choRda := by
  unfold Mnemonic.readsDelay at h
  split at h <;> simp_all

theorem mnemonic_of_loadedLfo? {lfo : LfoSelect} (h : op.loadedLfo? = some lfo) :
    op.mnemonic = .wlds ∧ lfo = .ofBits (op.bits .oscillator) ∨
      op.mnemonic = .wldr ∧ lfo = .ofBits (2 ||| op.bits .oscillator) := by
  unfold loadedLfo? at h
  split at h
  · next hwlds => exact .inl ⟨hwlds, (Option.some.inj h).symm⟩
  · next hwldr => exact .inr ⟨hwldr, (Option.some.inj h).symm⟩
  · cases h

theorem writtenParam?_of_writesRegister (h : op.mnemonic.writesRegister = true) :
    op.writtenParam? = Address.lfoParam? op.registerAddress := by
  rcases Machine.mnemonic_of_writesRegister h with hop | hop | hop
  all_goals simp only [writtenParam?, hop]

theorem lfoParam?_of_writtenParam? {target : LfoSelect × LfoParam}
    (h : op.writtenParam? = some target) :
    op.mnemonic.writesRegister = true ∧ Address.lfoParam? op.registerAddress = some target := by
  unfold writtenParam? at h
  split at h
  · next hop => exact ⟨congrArg Mnemonic.writesRegister hop, h⟩
  · next hop => exact ⟨congrArg Mnemonic.writesRegister hop, h⟩
  · next hop => exact ⟨congrArg Mnemonic.writesRegister hop, h⟩
  · cases h

/-- Register addresses have six bits. -/
theorem IsDecoded.registerAddress_lt (h : op.IsDecoded)
    (hwrites : op.mnemonic.writesRegister = true) : op.registerAddress.toNat < 64 := by
  have hwidth : ∀ f ∈ op.mnemonic.fields, f.role = .register → f.width = 6 := by
    rcases Machine.mnemonic_of_writesRegister hwrites with hop | hop | hop
    all_goals
      rw [hop]
      decide
  have hle : (op.bits .register).toNat ≤ 63 := h.toNat_bits_le hwidth
  have haddress : op.registerAddress.toNat = (op.bits .register).toNat % 256 :=
    UInt32.toNat_toUInt8 _
  omega

end Operation

/-! ## Registers -/

/-- The addresses of parameters are few enough to look at each. -/
theorem Address.forall_lt {P : UInt8 → Prop} (h : ∀ n < 8, P (UInt8.ofNat n)) {address : UInt8}
    (hlow : address.toNat < 8) : P address := by
  have hself := h address.toNat hlow
  rwa [UInt8.ofNat_toNat] at hself

/-- Every parameter has one address. -/
theorem Address.eq_ofLfoParam {address : UInt8} {lfo : LfoSelect} {p : LfoParam}
    (h : lfoParam? address = some (lfo, p)) : address = ofLfoParam lfo p := by
  have hlow : address.toNat < 8 := by
    unfold lfoParam? at h
    split at h
    · next hle => exact Nat.lt_succ_of_le (UInt8.le_iff_toNat_le.mp hle)
    · cases h
  have hself : (lfoParam? address).map (fun (lfo, p) => ofLfoParam lfo p) = some address :=
    forall_lt (P := fun a => (lfoParam? a).map (fun (lfo, p) => ofLfoParam lfo p) = some a)
      (by decide) hlow
  rw [h] at hself
  exact (Option.some.inj hself).symm

/-- No parameter has an address from eight on. -/
theorem Address.le_of_lfoParam?_none {address : UInt8} (h : lfoParam? address = none) :
    8 ≤ address.toNat := by
  unfold lfoParam? at h
  split at h
  · cases h
  · next hle => exact Nat.lt_of_not_le fun hle' => hle (UInt8.le_iff_toNat_le.mpr hle')

/-- The distance of a parameter's place is less than the width of the container. -/
theorem Address.smod_paramShift (lfo : LfoSelect) (p : LfoParam) :
    ((Int32.ofNat (paramShift lfo p)).toBitVec.smod 32).toNat = paramShift lfo p := by
  cases lfo <;> cases p <;> rfl

namespace RegisterFile

variable {regs : RegisterFile}

theorem Kinded.exists_config (h : regs.Kinded) {address : UInt8} (hlow : (index address).val < 8) :
    ∃ v, regs.slot address = .config v := by
  obtain ⟨v, hv⟩ := Option.isSome_iff_exists.mp ((h address).mpr hlow)
  exact ⟨v, config?_eq_some.mp hv⟩

theorem Kinded.exists_audio (h : regs.Kinded) {address : UInt8} (hhigh : 8 ≤ (index address).val) :
    ∃ x, regs.slot address = .audio x := by
  cases hslot : regs.slot address with
  | config v =>
    have hlow := (h address).mp (by rw [config?, hslot]; rfl)
    omega
  | audio x => exact ⟨x, rfl⟩

/-- A parameter that is stored replaces the content of one slot. -/
theorem Kinded.slot_setConfig (h : regs.Kinded) {address : UInt8} (hlow : (index address).val < 8)
    (value : Int32) (other : UInt8) :
    (regs.setConfig address value).slot other =
      if index address = index other then .config value else regs.slot other := by
  unfold RegisterFile.setConfig
  rw [slot_modify]
  split
  · next hindex =>
    rw [hindex] at hlow
    -- A slot of a value would ignore the parameter, but below eight there is none.
    obtain ⟨old, hold⟩ := h.exists_config hlow
    rw [hold]
    rfl
  · rfl

/-- So does a value. -/
theorem Kinded.slot_write (h : regs.Kinded) {address : UInt8} (hhigh : 8 ≤ (index address).val)
    (x : Fixed) (other : UInt8) :
    (regs.write address x).slot other =
      if index address = index other then .audio x else regs.slot other := by
  unfold RegisterFile.write
  rw [slot_modify]
  split
  · next hindex =>
    rw [hindex] at hhigh
    -- A write keeps the kind of its slot, which is that of a value from eight on.
    obtain ⟨old, hold⟩ := h.exists_audio hhigh
    rw [hold]
    rfl
  · rfl

end RegisterFile

/-! ## Parameters -/

/-- What an oscillator makes of a number that it is given for a parameter. -/
def LfoSelect.clampParam (lfo : LfoSelect) (p : LfoParam) (raw : Int32) : Int32 :=
  match lfo.isRamp, p with
  | false, .rate => Sine.clampRate raw
  | false, .range => Sine.clampAmplitude raw
  | true, .rate => Ramp.clampRate raw
  | true, .range => Ramp.nearestAmplitude raw

theorem LfoBank.param_setParam_self (bank : LfoBank) (lfo : LfoSelect) (p : LfoParam)
    (raw : Int32) : (bank.setParam lfo p raw).1.param lfo p = lfo.clampParam p raw := by
  unfold setParam LfoSelect.clampParam
  cases hramp : lfo.isRamp with
  | false =>
    rw [param_of_sine _ hramp]
    cases p <;> simp only [sineOf_setSine_self, Sine.setRate, Sine.setAmplitude]
  | true =>
    rw [param_of_ramp _ hramp]
    cases p <;> simp only [rampOf_setRamp_self, Ramp.setRate, Ramp.setAmplitude]

namespace Machine

variable {m n : Machine} {op : Operation}

/-- The number that the accumulator holds for a parameter. -/
def accParam (m : Machine) (lfo : LfoSelect) (p : LfoParam) : Int32 :=
  Int32.ofInt (m.acc.raw.toInt >>> Address.paramShift lfo p)

/-- What a register holds after the accumulator is written to it: the accumulator or, where
    there is a parameter, what the oscillator makes of it. -/
def written (m : Machine) (address : UInt8) : Register :=
  match Address.lfoParam? address with
  | some (lfo, p) => .config (lfo.clampParam p (m.accParam lfo p))
  | none => .audio m.acc

/-- The low 24 bits of the accumulator as a word of delay memory. -/
def accWord (m : Machine) : Int32 :=
  signExtend m.acc.raw.toUInt32 24

/-! ## What an instruction can do -/

theorem outward_of_readsDelay (h : op.mnemonic.readsDelay = true) (m : Machine) :
    ∃ lr diagnostics, m.outward op = { m with lr, diagnostics } := by
  unfold outward
  rcases Operation.mnemonic_of_readsDelay h with hop | hop | hop
  all_goals
    rw [hop]
    dsimp only
    unfold loadDelay
    rw [noteAccess_eq]
    exact ⟨_, _, rfl⟩

theorem outward_of_writesDelay (h : op.mnemonic.writesDelay = true) (m : Machine) :
    ∃ diagnostics, m.outward op =
      { m with
        delay := m.delay.setIfInBounds (m.delayIndex (op.bits .address).toInt32) m.accWord
        diagnostics } := by
  unfold outward accWord
  rw [← Fixed.toSample_fst]
  rcases mnemonic_of_writesDelay h with hop | hop
  all_goals
    rw [hop]
    dsimp only
    unfold writeDelay
    rw [noteSample_eq, noteAccess_eq]
    exact ⟨_, rfl⟩

theorem outward_of_writesRegister (h : op.mnemonic.writesRegister = true) (m : Machine) :
    m.outward op = m.writeRegister op.registerAddress := by
  unfold outward
  rcases mnemonic_of_writesRegister h with hop | hop | hop <;> rw [hop]

/-- The accumulator goes to the register as it is. -/
theorem outward_of_writtenValue (h : op.mnemonic.writesRegister = true)
    (hvalue : op.writtenParam? = none) (m : Machine) :
    ∃ diagnostics, m.outward op =
      { m with regs := m.regs.write op.registerAddress m.acc, diagnostics } := by
  rw [Operation.writtenParam?_of_writesRegister h] at hvalue
  rw [outward_of_writesRegister h, writeRegister, hvalue]
  dsimp only
  rw [noteRail_eq]
  exact ⟨_, rfl⟩

theorem outward_of_writtenParam {lfo : LfoSelect} {p : LfoParam}
    (h : op.writtenParam? = some (lfo, p)) (m : Machine) :
    ∃ diagnostics, m.outward op =
      { m with
        lfos := (m.lfos.setParam lfo p (m.accParam lfo p)).1
        regs := m.regs.setConfig op.registerAddress (lfo.clampParam p (m.accParam lfo p))
        diagnostics } := by
  obtain ⟨hwrites, hparam⟩ := Operation.lfoParam?_of_writtenParam? h
  obtain ⟨diagnostics, heq⟩ := programLfo_eq m lfo p (m.accParam lfo p)
  rw [LfoBank.param_setParam_self, ← Address.eq_ofLfoParam hparam] at heq
  rw [outward_of_writesRegister hwrites, writeRegister, hparam]
  exact ⟨diagnostics, heq⟩

/-- One oscillator is another one, and its registers show its parameters. -/
structure Loaded (lfo : LfoSelect) (m n : Machine) : Prop where
  others : ∀ other p, other ≠ lfo → n.lfos.param other p = m.lfos.param other p
  regs : n.regs =
    (m.regs.setConfig (Address.ofLfoParam lfo .rate) (n.lfos.param lfo .rate)).setConfig
      (Address.ofLfoParam lfo .range) (n.lfos.param lfo .range)
  lr : n.lr = m.lr
  delay : n.delay = m.delay

theorem loaded_loadSine {lfo : LfoSelect} (hsine : lfo.isRamp = false) (m : Machine)
    (rate amplitude : Int32) : Loaded lfo m (m.loadSine lfo rate amplitude) := by
  obtain ⟨diagnostics, heq⟩ := loadSine_eq m lfo rate amplitude
  rw [heq]
  refine ⟨fun other p hne => LfoBank.param_setSine_of_ne m.lfos hsine hne _ p, ?_, rfl, rfl⟩
  dsimp only
  rw [LfoBank.param_of_sine _ hsine, LfoBank.param_of_sine _ hsine, LfoBank.sineOf_setSine_self]

theorem loaded_loadRamp {lfo : LfoSelect} (hramp : lfo.isRamp = true) (m : Machine)
    (rate? : Option Int32) (idx : UInt32) : Loaded lfo m (m.loadRamp lfo rate? idx) := by
  obtain ⟨diagnostics, heq⟩ := loadRamp_eq m lfo rate? idx
  rw [heq]
  refine ⟨fun other p hne => LfoBank.param_setRamp_of_ne m.lfos hramp hne _ p, ?_, rfl, rfl⟩
  dsimp only
  rw [LfoBank.param_of_ramp _ hramp, LfoBank.param_of_ramp _ hramp, LfoBank.rampOf_setRamp_self]

/-- No word names a ramp for WLDS. -/
theorem loaded_outward (hop : op.IsDecoded) {lfo : LfoSelect} (h : op.loadedLfo? = some lfo)
    (m : Machine) : Loaded lfo m (m.outward op) := by
  unfold outward
  rcases Operation.mnemonic_of_loadedLfo? h with ⟨hwlds, rfl⟩ | ⟨hwldr, rfl⟩
  · rw [hwlds]
    exact loaded_loadSine (hop.isRamp_of_wlds hwlds) m _ _
  · rw [hwldr]
    exact loaded_loadRamp (LfoSelect.isRamp_ofBits_or _) m _ _

/-- What the outward part of an instruction can do. The counters of data faults are left open,
    as are the phases of oscillators. -/
inductive Acts (m : Machine) (op : Operation) : Machine → Prop
  | reads (h : op.mnemonic.readsDelay = true) (lr : Fixed) (diagnostics : Diagnostics) :
      Acts m op { m with lr, diagnostics }
  | writes (h : op.mnemonic.writesDelay = true) (delay : Array Int32) (diagnostics : Diagnostics) :
      Acts m op { m with delay, diagnostics }
  | stores (h : op.mnemonic.writesRegister = true) (regs : RegisterFile)
      (diagnostics : Diagnostics) : Acts m op { m with regs, diagnostics }
  | programs {lfo : LfoSelect} {p : LfoParam} (h : op.writtenParam? = some (lfo, p))
      (raw : Int32) (regs : RegisterFile) (diagnostics : Diagnostics) :
      Acts m op { m with lfos := (m.lfos.setParam lfo p raw).1, regs, diagnostics }
  | loads {lfo : LfoSelect} (h : op.loadedLfo? = some lfo) {n : Machine} (hn : Loaded lfo m n) :
      Acts m op n
  | rests {lfos : LfoBank} (h : ∀ lfo p, lfos.param lfo p = m.lfos.param lfo p) :
      Acts m op { m with lfos }

theorem acts_outward (hop : op.IsDecoded) (m : Machine) : Acts m op (m.outward op) := by
  cases hmnemonic : op.mnemonic with
  | rda | rmpa | choRda =>
    have hreads := congrArg Mnemonic.readsDelay hmnemonic
    obtain ⟨lr, diagnostics, heq⟩ := outward_of_readsDelay hreads m
    rw [heq]
    exact .reads hreads lr diagnostics
  | wra | wrap =>
    have hwrites := congrArg Mnemonic.writesDelay hmnemonic
    obtain ⟨diagnostics, heq⟩ := outward_of_writesDelay hwrites m
    rw [heq]
    exact .writes hwrites _ diagnostics
  | wrax | wrhx | wrlx =>
    have hwrites := congrArg Mnemonic.writesRegister hmnemonic
    cases hparam : op.writtenParam? with
    | none =>
      obtain ⟨diagnostics, heq⟩ := outward_of_writtenValue hwrites hparam m
      rw [heq]
      exact .stores hwrites _ diagnostics
    | some target =>
      obtain ⟨diagnostics, heq⟩ := outward_of_writtenParam hparam m
      rw [heq]
      exact .programs hparam _ _ diagnostics
  | wlds | wldr =>
    obtain ⟨lfo, hloads⟩ : ∃ lfo, op.loadedLfo? = some lfo := by
      rw [Operation.loadedLfo?, hmnemonic]
      exact ⟨_, rfl⟩
    exact .loads hloads (loaded_outward hop hloads m)
  | jam =>
    unfold outward
    rw [hmnemonic]
    exact .rests (m.lfos.param_setRamp_restart (LfoSelect.isRamp_ofBits_or _))
  | _ =>
    unfold outward
    rw [hmnemonic]
    exact .rests fun _ _ => rfl

namespace Acts

theorem lr (h : Acts m op n) (hreads : op.mnemonic.readsDelay = false) : n.lr = m.lr := by
  cases h with
  | reads h => exact absurd (h.symm.trans hreads) (by decide)
  | loads h hn => exact hn.lr
  | _ => rfl

theorem delay (h : Acts m op n) (hwrites : op.mnemonic.writesDelay = false) :
    n.delay = m.delay := by
  cases h with
  | writes h => exact absurd (h.symm.trans hwrites) (by decide)
  | loads h hn => exact hn.delay
  | _ => rfl

theorem regs (h : Acts m op n) (hwrites : op.mnemonic.writesRegister = false)
    (hloads : op.loadedLfo? = none) : n.regs = m.regs := by
  cases h with
  | stores h => exact absurd (h.symm.trans hwrites) (by decide)
  | programs h =>
    have hwrites' := (Operation.lfoParam?_of_writtenParam? h).1
    exact absurd (hwrites'.symm.trans hwrites) (by decide)
  | loads h hn => exact absurd (h.symm.trans hloads) (Option.some_ne_none _)
  | _ => rfl

theorem param (h : Acts m op n) {lfo : LfoSelect} {p : LfoParam}
    (hwritten : op.writtenParam? ≠ some (lfo, p)) (hloaded : op.loadedLfo? ≠ some lfo) :
    n.lfos.param lfo p = m.lfos.param lfo p := by
  cases h with
  | programs h raw =>
    refine LfoBank.param_setParam_of_ne m.lfos ?_ raw
    rintro ⟨rfl, rfl⟩
    exact hwritten h
  | loads h hn =>
    refine hn.others lfo p ?_
    rintro rfl
    exact hloaded h
  | rests h => exact h lfo p
  | _ => rfl

end Acts

/-! ## Footprints -/

/-- The operation skips: a condition that it names holds. -/
def TakesSkip (m : Machine) (op : Operation) : Prop :=
  op.mnemonic = .skp ∧ ∃ c : SkipCondition, op.bits .flags &&& c.bit ≠ 0 ∧ m.skipHolds c = true

/-- `n` differs from `m` in no more than what the operation changes, and there it has what the
    operation writes. -/
structure Footprint (op : Operation) (m n : Machine) : Prop where
  /-- The accumulator is copied whole, with its format and its count of clamps. -/
  pacc : op.mnemonic ∉ [.or, .skp, .nop, .wlds, .wldr, .jam] → n.pacc = m.acc
  paccKept : op.mnemonic ∈ [.or, .skp, .nop, .wlds, .wldr, .jam] → n.pacc = m.pacc
  /-- Of the instructions that keep PACC, OR alone changes the number in the accumulator. -/
  acc : op.mnemonic ∈ [.skp, .nop, .wlds, .wldr, .jam] → n.acc = m.acc.withoutClamps
  accOr : op.mnemonic = .or →
    n.acc = { m.acc.withoutClamps with
      raw := signExtend (m.acc.raw.toUInt32 ||| op.bits .mask) 24 }
  delay : op.mnemonic.writesDelay = false → n.delay = m.delay
  cell : op.mnemonic.writesDelay = true → ∀ i : Nat, n.delay[i]? = (m.delay[i]?).map fun word =>
    if i = m.delayIndex (op.bits .address).toInt32 then m.accWord else word
  /-- A word of 24 bits holds the whole accumulator if this fits. -/
  word : op.mnemonic.writesDelay = true → InDatapath m.acc.raw.toInt → m.accWord = m.acc.raw
  lr : op.mnemonic.readsDelay = false → n.lr = m.lr
  regs : op.mnemonic.writesRegister = false → op.loadedLfo? = none → n.regs = m.regs
  register : op.mnemonic.writesRegister = true → ∀ address, n.regs.slot address =
    if RegisterFile.index op.registerAddress = RegisterFile.index address then
      m.written op.registerAddress
    else m.regs.slot address
  registers : ∀ lfo, op.loadedLfo? = some lfo →
    (∀ p, n.regs.slot (Address.ofLfoParam lfo p) = .config (n.lfos.param lfo p)) ∧
      ∀ address,
        (∀ p, RegisterFile.index (Address.ofLfoParam lfo p) ≠ RegisterFile.index address) →
          n.regs.slot address = m.regs.slot address
  param : ∀ lfo p, op.writtenParam? = some (lfo, p) →
    n.lfos.param lfo p = lfo.clampParam p (m.accParam lfo p)
  params : ∀ lfo p, op.writtenParam? ≠ some (lfo, p) → op.loadedLfo? ≠ some lfo →
    n.lfos.param lfo p = m.lfos.param lfo p
  ip : ¬ m.TakesSkip op → n.ip = m.ip + 1
  skip : m.TakesSkip op → n.ip = m.ip + 1 + (op.bits .distance).toUInt64

theorem nextIp_of_takesSkip (h : m.TakesSkip op) :
    m.nextIp op = m.ip + 1 + (op.bits .distance).toUInt64 := by
  obtain ⟨hskp, hcondition⟩ := h
  exact if_pos ⟨hskp, (m.skips_iff _).mpr hcondition⟩

theorem nextIp_of_not_takesSkip (h : ¬ m.TakesSkip op) : m.nextIp op = m.ip + 1 :=
  if_neg fun hskips => h ⟨hskips.1, (m.skips_iff _).mp hskips.2⟩

/-- The accumulator or the clamped parameter goes to one slot. -/
theorem slot_outward_of_writesRegister (hkinded : m.regs.Kinded) (hop : op.IsDecoded)
    (hwrites : op.mnemonic.writesRegister = true) (address : UInt8) :
    (m.outward op).regs.slot address =
      if RegisterFile.index op.registerAddress = RegisterFile.index address then
        m.written op.registerAddress
      else m.regs.slot address := by
  have hindex : (RegisterFile.index op.registerAddress).val = op.registerAddress.toNat :=
    Nat.mod_eq_of_lt (hop.registerAddress_lt hwrites)
  have hparam := Operation.writtenParam?_of_writesRegister hwrites
  unfold written
  cases hwritten : op.writtenParam? with
  | none =>
    rw [hwritten] at hparam
    have hhigh := Address.le_of_lfoParam?_none hparam.symm
    obtain ⟨diagnostics, heq⟩ := outward_of_writtenValue hwrites hwritten m
    rw [heq, ← hparam]
    exact hkinded.slot_write (by omega) m.acc address
  | some target =>
    obtain ⟨lfo, p⟩ := target
    rw [hwritten] at hparam
    have hlow := RegisterFile.index_ofLfoParam_lt lfo p
    rw [← Address.eq_ofLfoParam hparam.symm] at hlow
    obtain ⟨diagnostics, heq⟩ := outward_of_writtenParam hwritten m
    rw [heq, ← hparam]
    exact hkinded.slot_setConfig hlow _ address

/-- The two registers of an oscillator that was set show its parameters. -/
theorem Loaded.slots {lfo : LfoSelect} (h : Loaded lfo m n) (hkinded : m.regs.Kinded) :
    (∀ p, n.regs.slot (Address.ofLfoParam lfo p) = .config (n.lfos.param lfo p)) ∧
      ∀ address,
        (∀ p, RegisterFile.index (Address.ofLfoParam lfo p) ≠ RegisterFile.index address) →
          n.regs.slot address = m.regs.slot address := by
  have hslot : ∀ address, n.regs.slot address =
      if RegisterFile.index (Address.ofLfoParam lfo .range) = RegisterFile.index address then
        .config (n.lfos.param lfo .range)
      else if RegisterFile.index (Address.ofLfoParam lfo .rate) = RegisterFile.index address then
        .config (n.lfos.param lfo .rate)
      else m.regs.slot address := fun address => by
    rw [h.regs, (hkinded.setConfig _ _).slot_setConfig (RegisterFile.index_ofLfoParam_lt lfo _),
      hkinded.slot_setConfig (RegisterFile.index_ofLfoParam_lt lfo _)]
  constructor
  · intro p
    rw [hslot]
    cases p with
    | rate =>
      have hne : RegisterFile.index (Address.ofLfoParam lfo .range) ≠
          RegisterFile.index (Address.ofLfoParam lfo .rate) := fun hindex =>
        absurd (RegisterFile.eq_of_index_ofLfoParam_eq hindex).2 (by decide)
      rw [if_neg hne, if_pos rfl]
    | range => rw [if_pos rfl]
  · intro address haddress
    rw [hslot, if_neg (haddress .range), if_neg (haddress .rate)]

/-- A word of 24 bits holds the whole accumulator if this fits. -/
theorem accWord_of_inDatapath (h : InDatapath m.acc.raw.toInt) : m.accWord = m.acc.raw := by
  have hfits : -2 ^ 23 ≤ m.acc.raw.toInt ∧ m.acc.raw.toInt < 2 ^ 23 := by
    unfold InDatapath datapathMin datapathMax at h
    omega
  rw [← Fixed.toSample_fst_eq_iff, Fixed.toSample_fst] at hfits
  exact hfits

theorem getElem?_delay_outward (hwrites : op.mnemonic.writesDelay = true) (m : Machine) (i : Nat) :
    (m.outward op).delay[i]? = (m.delay[i]?).map fun word =>
      if i = m.delayIndex (op.bits .address).toInt32 then m.accWord else word := by
  obtain ⟨diagnostics, heq⟩ := outward_of_writesDelay hwrites m
  rw [heq]
  dsimp only
  rw [Array.getElem?_setIfInBounds]
  by_cases hcell : i = m.delayIndex (op.bits .address).toInt32
  · subst hcell
    rw [if_pos rfl]
    -- There is nothing to replace in a memory without the cell.
    by_cases hinside : m.delayIndex (op.bits .address).toInt32 < m.delay.size
    · rw [if_pos hinside, Array.getElem?_eq_getElem hinside, Option.map_some, if_pos rfl]
    · rw [if_neg hinside, Array.getElem?_eq_none (Nat.le_of_not_lt hinside)]
      rfl
  · simp only [if_neg hcell, if_neg (Ne.symm hcell), Option.map_id']

theorem computed_of_idle (h : op.mnemonic ∈ [.skp, .nop, .wlds, .wldr, .jam]) (m : Machine) :
    m.computed op = m.acc := by
  unfold computed
  simp only [List.mem_cons, List.not_mem_nil, or_false] at h
  rcases h with h | h | h | h | h <;> rw [h]

theorem known_of_fault? (h : m.fault? op = none) : op.mnemonic ≠ .choReserved := by
  intro hreserved
  unfold fault? at h
  rw [hreserved] at h
  cases h

/-- An instruction that is executed without a fault changes what it is for and nothing else. PACC
    becomes the accumulator from before it, whole, but for OR, SKP, NOP, WLDS, WLDR and JAM, which
    keep it. Delay memory, LR, registers and the parameters of oscillators change only for the
    instructions that name them, and only there. The next instruction is the one that follows,
    unless a skip is taken. -/
theorem execute_footprint (hkinded : m.regs.Kinded) (hop : op.IsDecoded)
    (hfault : m.fault? op = none) : Footprint op m (m.execute op) where
  pacc h := by
    rw [pacc_execute, Mnemonic.latches_eq (known_of_fault? hfault), decide_eq_true h, if_pos rfl]
  paccKept h := by
    rw [pacc_execute, Mnemonic.latches_eq (known_of_fault? hfault),
      decide_eq_false (not_not_intro h), if_neg Bool.false_ne_true]
  acc h := by
    rw [acc_execute, computed_of_idle h, (framed_outward m op).acc]
  accOr h := by
    rw [acc_execute, ← (framed_outward m op).acc, computed, h]
    rfl
  delay h := by
    rw [delay_execute]
    exact (acts_outward hop m).delay h
  cell h i := by
    rw [delay_execute]
    exact getElem?_delay_outward h m i
  word _ := accWord_of_inDatapath
  lr h := by
    rw [lr_execute]
    exact (acts_outward hop m).lr h
  regs hwrites hloads := by
    rw [regs_execute]
    exact (acts_outward hop m).regs hwrites hloads
  register h address := by
    rw [regs_execute]
    exact slot_outward_of_writesRegister hkinded hop h address
  registers lfo h := by
    rw [regs_execute, lfos_execute]
    exact (loaded_outward hop h m).slots hkinded
  param lfo p h := by
    obtain ⟨diagnostics, heq⟩ := outward_of_writtenParam h m
    rw [lfos_execute, heq]
    exact LfoBank.param_setParam_self m.lfos lfo p _
  params lfo p hwritten hloaded := by
    rw [lfos_execute]
    exact (acts_outward hop m).param hwritten hloaded
  ip := nextIp_of_not_takesSkip
  skip := nextIp_of_takesSkip

/-- A machine with clamps behind its accumulator, which holds the rate 1 of a sine. -/
def swollen : Machine :=
  { powerOn 1 true with acc := { (Fixed.ofRaw 16384).withFormat .sample with clamps := 3 } }

/-- WRAX copies the accumulator with its clamps, and its number goes to the register. -/
theorem execute_footprint_wrax :
    swollen.regs.Kinded ∧ storeSineRate.IsDecoded ∧ swollen.fault? storeSineRate = none ∧
      (swollen.execute storeSineRate).pacc = swollen.acc ∧
      (swollen.execute storeSineRate).regs.slot 0 = .config 1 := by
  have hdecoded : storeSineRate.IsDecoded := ⟨0x00000006, by decide⟩
  have hfootprint := execute_footprint (m := swollen) .initial hdecoded rfl
  refine ⟨.initial, hdecoded, rfl, hfootprint.pacc (by decide), ?_⟩
  rw [hfootprint.register rfl]
  decide

end Machine
end EffectsDsp
