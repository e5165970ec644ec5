/-
  EffectsDsp.Proofs.Wrapping

  Addresses from 64 on. They name the slots of the lowest 64 again, and whatever looks at an
  address through its slot treats it like the lowest one there: `wrapped`. So calls leave the
  same registers behind if all their addresses are wrapped, which is said of one call first
  (`Call.apply_wrapped`) and then of any sequence (`afterAll_map_wrapped`).

  Reading looks at an address twice: at its slot, and at the address map for the place of a
  parameter in the accumulator. The map has the lowest eight addresses only. Values are read as
  they are at all addresses of their slots, but a parameter that is stored at any of its
  addresses is read as zero at all others than the lowest: `read_eq_read_wrapped_iff`.
-/

import EffectsDsp.Proofs.Slots

namespace EffectsDsp

/-- The address map has no parameter from eight on. -/
theorem Address.lfoParam?_of_le {address : UInt8} (h : 8 ≤ address.toNat) :
    lfoParam? address = none := by
  refine if_neg fun hle => ?_
  have hlow : address.toNat ≤ 7 := UInt8.le_iff_toNat_le.mp hle
  omega

namespace RegisterFile

variable {regs : RegisterFile} {address : UInt8}

/-! ## Wrapped addresses -/

/-- The lowest address of the slot that an address names. -/
def wrapped (address : UInt8) : UInt8 :=
  address % 64

theorem toNat_wrapped (address : UInt8) : (wrapped address).toNat = (index address).val :=
  UInt8.toNat_mod address 64

@[simp] theorem index_wrapped (address : UInt8) : index (wrapped address) = index address := by
  apply Fin.ext
  show (wrapped address).toNat % 64 = (index address).val
  rw [toNat_wrapped]
  exact Nat.mod_eq_of_lt (index address).isLt

theorem wrapped_of_lt (h : address.toNat < 64) : wrapped address = address := by
  apply UInt8.toNat_inj.mp
  rw [toNat_wrapped]
  exact Nat.mod_eq_of_lt h

/-! ## Accesses through the slot -/

theorem slot_wrapped (regs : RegisterFile) (address : UInt8) :
    regs.slot (wrapped address) = regs.slot address :=
  regs.slot_congr (index_wrapped address)

theorem config?_wrapped (regs : RegisterFile) (address : UInt8) :
    regs.config? (wrapped address) = regs.config? address := by
  unfold config?
  rw [slot_wrapped]

theorem write_wrapped (regs : RegisterFile) (address : UInt8) (x : Fixed) :
    regs.write (wrapped address) x = regs.write address x :=
  regs.modify_congr (index_wrapped address) _

theorem setConfig_wrapped (regs : RegisterFile) (address : UInt8) (value : Int32) :
    regs.setConfig (wrapped address) value = regs.setConfig address value :=
  regs.modify_congr (index_wrapped address) _

/-! ## Calls -/

/-- The same call at the lowest address of its slot. -/
def Call.wrapped : Call → Call
  | write address value => write (RegisterFile.wrapped address) value
  | setConfig address value => setConfig (RegisterFile.wrapped address) value

theorem Call.apply_wrapped (call : Call) (regs : RegisterFile) :
    call.wrapped.apply regs = call.apply regs := by
  cases call with
  | write address value => exact write_wrapped regs address value
  | setConfig address value => exact setConfig_wrapped regs address value

theorem afterAll_map_wrapped (calls : List Call) (regs : RegisterFile) :
    afterAll (calls.map Call.wrapped) regs = afterAll calls regs := by
  induction calls generalizing regs with
  | nil => rfl
  | cons call calls ih =>
    show afterAll (calls.map Call.wrapped) (call.wrapped.apply regs) =
      afterAll calls (call.apply regs)
    rw [call.apply_wrapped, ih]

/-! ## Reading -/

/-- A parameter has no place in the accumulator at an address that the map does not have. -/
theorem read_config_of_le {v : Int32} (h : regs.slot address = .config v)
    (hhigh : 8 ≤ address.toNat) : regs.read address = .zero := by
  rw [RegisterFile.read, h, Register.read, Address.lfoParam?_of_le hhigh]

/-- A value is the same at all addresses of its slot. -/
theorem read_wrapped_of_audio {x : Fixed} (h : regs.slot address = .audio x) :
    regs.read (wrapped address) = regs.read address := by
  have hwrapped : regs.slot (wrapped address) = .audio x := (regs.slot_wrapped address).trans h
  rw [read_audio hwrapped, read_audio h]

/-- A parameter at its place is not what is read elsewhere, not even if it is zero: its format
    is the one of register contents. -/
theorem zero_ne_withFormat_sample (x : Fixed) : Fixed.zero ≠ x.withFormat .sample := by
  intro h
  have hformat : QFormat.internal = .sample := congrArg Fixed.format h
  exact absurd hformat (by decide)

/-- What is read at an address from 64 on in the slot of a parameter, and what is read at the
    lowest address there. -/
theorem reads_of_parameter_alias (h : regs.Kinded) (hhigh : 64 ≤ address.toNat)
    (hlow : (index address).val < 8) :
    regs.read address = .zero ∧
      ∃ v raw : Int32, regs.config? address = some v ∧
        raw.toInt = (v.toInt * unitAt (wrapped address)).bmod 4294967296 ∧
        regs.read (wrapped address) = (Fixed.ofRaw raw).withFormat .sample := by
  obtain ⟨v, hslot⟩ := h.exists_config hlow
  have hplace : (wrapped address).toNat < 8 := by rwa [toNat_wrapped]
  obtain ⟨raw, hraw, hread⟩ := read_config hplace ((regs.slot_wrapped address).trans hslot)
  exact ⟨read_config_of_le hslot (by omega), v, raw, config?_eq_some.mpr hslot, hraw, hread⟩

/-- Reading looks at an address modulo 64 if it is below 64 anyway, or if there is a value. -/
theorem read_eq_read_wrapped_iff (h : regs.Kinded) :
    regs.read address = regs.read (wrapped address) ↔
      address.toNat < 64 ∨ 8 ≤ (index address).val := by
  constructor
  · intro hread
    by_contra hneither
    -- What is left are the other addresses of parameters, where something else is read.
    obtain ⟨hhigh, hlow⟩ := not_or.mp hneither
    obtain ⟨hzero, v, raw, -, -, hplaced⟩ :=
      reads_of_parameter_alias h (Nat.le_of_not_lt hhigh) (Nat.lt_of_not_le hlow)
    rw [hzero, hplaced] at hread
    exact zero_ne_withFormat_sample _ hread
  · rintro (hlow | hvalue)
    · rw [wrapped_of_lt hlow]
    · obtain ⟨x, hslot⟩ := h.exists_audio hvalue
      exact (read_wrapped_of_audio hslot).symm

/-- Addresses wrap, but for the reading of parameters. After any calls with any addresses, which
    may have been wrapped without a difference, all 256 addresses have the slot and the parameter
    of the wrapped address, and a value or a parameter that is stored at an address is stored at
    the wrapped one. What is read is the same exactly at addresses below 64 and at those of
    values. At any other address zero is read, while the parameter that is stored there stands
    at its place in the accumulator if the wrapped address is read. -/
theorem addresses_wrap_but_for_parameters (calls : List Call) :
    afterAll (calls.map Call.wrapped) initial = afterAll calls initial ∧
      ∀ a : UInt8,
        (afterAll calls initial).slot a = (afterAll calls initial).slot (wrapped a) ∧
          (afterAll calls initial).config? a = (afterAll calls initial).config? (wrapped a) ∧
          (∀ x, (afterAll calls initial).write a x =
            (afterAll calls initial).write (wrapped a) x) ∧
          (∀ v, (afterAll calls initial).setConfig a v =
            (afterAll calls initial).setConfig (wrapped a) v) ∧
          ((afterAll calls initial).read a = (afterAll calls initial).read (wrapped a) ↔
            a.toNat < 64 ∨ 8 ≤ a.toNat % 64) ∧
          (64 ≤ a.toNat → a.toNat % 64 < 8 →
            (afterAll calls initial).read a = .zero ∧
              ∃ v raw : Int32, (afterAll calls initial).config? a = some v ∧
                raw.toInt = (v.toInt * unitAt (wrapped a)).bmod 4294967296 ∧
                (afterAll calls initial).read (wrapped a) =
                  (Fixed.ofRaw raw).withFormat .sample) := by
  have hkinded := kinded_afterAll .initial calls
  refine ⟨afterAll_map_wrapped calls initial, fun a => ⟨?_, ?_, ?_, ?_, ?_, ?_⟩⟩
  · exact (slot_wrapped _ a).symm
  · exact (config?_wrapped _ a).symm
  · intro x
    exact (write_wrapped _ a x).symm
  · intro v
    exact (setConfig_wrapped _ a v).symm
  · exact read_eq_read_wrapped_iff hkinded
  · intro hhigh hlow
    exact reads_of_parameter_alias hkinded hhigh hlow

/-- A value that is stored at an alias of the first free register is read there and at the
    register, and a rate that is stored at an alias of its address is not read at the alias. -/
theorem addresses_wrap_but_for_parameters_stored :
    (64 ≤ (66 : UInt8).toNat ∧ (66 : UInt8).toNat % 64 < 8) ∧
      (afterAll [.write 96 (.ofRaw 5), .setConfig 66 7] initial).read 96 =
        (afterAll [.write 96 (.ofRaw 5), .setConfig 66 7] initial).read 32 ∧
      (afterAll [.write 96 (.ofRaw 5), .setConfig 66 7] initial).read 66 = .zero ∧
      (afterAll [.write 96 (.ofRaw 5), .setConfig 66 7] initial).config? 2 = some 7 := by
  obtain ⟨-, haddress⟩ :=
    addresses_wrap_but_for_parameters [.write 96 (.ofRaw 5), .setConfig 66 7]
  obtain ⟨-, -, -, -, hvalue, -⟩ := haddress 96
  obtain ⟨-, hparam, -, -, -, halias⟩ := haddress 66
  obtain ⟨hzero, -⟩ := halias (by decide) (by decide)
  exact ⟨by decide, hvalue.mpr (by decide), hzero, hparam.symm.trans (by decide)⟩

/-- The rate of a sine that was stored at its own address, read there and at the next alias. The
    alias has the parameter, but zero is read. -/
theorem parameter_alias_reads_zero :
    (afterAll [.setConfig 0 256] initial).config? 64 = some 256 ∧
      ((afterAll [.setConfig 0 256] initial).read 0).raw.toInt = 4194304 ∧
      (afterAll [.setConfig 0 256] initial).read 64 = .zero ∧
      (afterAll [.setConfig 0 256] initial).read 64 ≠
        (afterAll [.setConfig 0 256] initial).read (wrapped 64) := by
  decide

end RegisterFile
end EffectsDsp
