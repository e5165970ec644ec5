/-
  EffectsDsp.RegisterFile.Basic

  The register file: 64 slots, eight of which configure the oscillators and hold
  plain integers while the others hold fixed-point values. Writing never changes
  the kind of a slot. Addresses name slots modulo 64.
-/

import EffectsDsp.Fixed.Basic
import EffectsDsp.RegisterFile.Address

namespace EffectsDsp

/-- The content of one slot. -/
inductive Register where
  /-- An oscillator parameter in the oscillator's own units. -/
  | config (value : Int32)
  | audio (value : Fixed)
  deriving DecidableEq, Repr

instance : Inhabited Register := ⟨.audio .zero⟩

namespace Register

/-- The slot after a value is written to it, which only an audio slot takes. -/
def write (value : Fixed) : Register → Register
  | audio _ => audio value
  | config v => config v

/-- The slot after a parameter is stored in it, which only a configuration slot
    takes. -/
def setConfig (value : Int32) : Register → Register
  | config _ => config value
  | audio v => audio v

/-- The parameter in a configuration slot. -/
def config? : Register → Option Int32
  | config v => some v
  | audio _ => none

/-- The content at an address as a fixed-point value. A parameter appears at the place
    in the accumulator that it is written from. -/
def read (address : UInt8) : Register → Fixed
  | audio v => v
  | config v =>
    match Address.lfoParam? address with
    | some (lfo, p) =>
      (Fixed.ofRaw (v <<< Int32.ofNat (Address.paramShift lfo p))).withFormat .sample
    | none => Fixed.zero

end Register

structure RegisterFile where
  slots : Vector Register 64
  deriving DecidableEq, Repr

namespace RegisterFile

/-- The slot that an address names. -/
def index (address : UInt8) : Fin 64 :=
  ⟨address.toNat % 64, Nat.mod_lt _ (by decide)⟩

/-- The slots at power-on: parameters zero, values zero. -/
def initial : RegisterFile :=
  ⟨.ofFn fun i => if i.val < 8 then .config 0 else .audio .zero⟩

instance : Inhabited RegisterFile := ⟨initial⟩

def slot (regs : RegisterFile) (address : UInt8) : Register :=
  regs.slots[index address]

/-- Changes the slot that an address names. -/
def modify (regs : RegisterFile) (address : UInt8) (f : Register → Register) :
    RegisterFile :=
  ⟨regs.slots.set (index address) (f (regs.slot address))⟩

def read (regs : RegisterFile) (address : UInt8) : Fixed :=
  (regs.slot address).read address

/-- Stores a value; configuration slots ignore it. -/
def write (regs : RegisterFile) (address : UInt8) (value : Fixed) : RegisterFile :=
  regs.modify address (.write value)

/-- Stores an oscillator parameter; audio slots ignore it. -/
def setConfig (regs : RegisterFile) (address : UInt8) (value : Int32) : RegisterFile :=
  regs.modify address (.setConfig value)

def config? (regs : RegisterFile) (address : UInt8) : Option Int32 :=
  (regs.slot address).config?

/-- At power-on every parameter is zero, and so is every value. -/
theorem slot_initial (address : UInt8) :
    initial.slot address = if (index address).val < 8 then .config 0 else .audio .zero := by
  unfold slot initial
  exact Vector.getElem_ofFn _

@[simp] theorem slot_modify_self (regs : RegisterFile) (address : UInt8)
    (f : Register → Register) :
    (regs.modify address f).slot address = f (regs.slot address) := by
  simp [modify, slot]

theorem slot_modify_of_ne (regs : RegisterFile) {a b : UInt8} (h : index a ≠ index b)
    (f : Register → Register) : (regs.modify a f).slot b = regs.slot b := by
  have : (index a).val ≠ (index b).val := fun e => h (Fin.ext e)
  simp [modify, slot, this]

/-- Two addresses of one slot read the same content. -/
theorem slot_congr (regs : RegisterFile) {a b : UInt8} (h : index a = index b) :
    regs.slot a = regs.slot b := by
  simp only [slot, h]

/-- Two addresses of one slot change the same content. -/
theorem modify_congr (regs : RegisterFile) {a b : UInt8} (h : index a = index b)
    (f : Register → Register) : regs.modify a f = regs.modify b f := by
  simp only [modify, slot, h]

/-- A change is seen at all addresses of the slot, and at no other. -/
theorem slot_modify (regs : RegisterFile) (a b : UInt8) (f : Register → Register) :
    (regs.modify a f).slot b = if index a = index b then f (regs.slot b) else regs.slot b := by
  split
  · next h => rw [← slot_congr _ h, ← slot_congr _ h, slot_modify_self]
  · next h => exact slot_modify_of_ne _ h f

/-- A change that keeps the content of its slot keeps all. -/
theorem modify_eq_self {regs : RegisterFile} {address : UInt8} {f : Register → Register}
    (h : f (regs.slot address) = regs.slot address) : regs.modify address f = regs := by
  rw [modify, h]
  exact congrArg RegisterFile.mk (Vector.set_getElem_self _)

/-- A value is one that was written, or one that was there before. -/
theorem audio_of_slot_write {regs : RegisterFile} {a b : UInt8} {x y : Fixed}
    (h : (regs.write a x).slot b = .audio y) :
    index a = index b ∧ y = x ∨ regs.slot b = .audio y := by
  unfold write at h
  rw [slot_modify] at h
  split at h
  · next hindex =>
    cases hold : regs.slot b with
    | config v =>
      rw [hold] at h
      cases h
    | audio old =>
      rw [hold] at h
      exact .inl ⟨hindex, (Register.audio.inj h).symm⟩
  · exact .inr h

/-- No value appears where a parameter is stored. -/
theorem audio_of_slot_setConfig {regs : RegisterFile} {a b : UInt8} {value : Int32} {y : Fixed}
    (h : (regs.setConfig a value).slot b = .audio y) : regs.slot b = .audio y := by
  unfold setConfig at h
  rw [slot_modify] at h
  split at h
  · cases hold : regs.slot b with
    | config v =>
      rw [hold] at h
      cases h
    | audio old =>
      rw [hold] at h
      exact h
  · exact h

theorem config?_eq_some {regs : RegisterFile} {address : UInt8} {v : Int32} :
    regs.config? address = some v ↔ regs.slot address = .config v := by
  unfold config?
  cases regs.slot address with
  | config w => simp [Register.config?]
  | audio x => simp [Register.config?]

/-- Values that are written leave all parameters alone. -/
@[simp] theorem config?_write (regs : RegisterFile) (a b : UInt8) (value : Fixed) :
    (regs.write a value).config? b = regs.config? b := by
  unfold config? write
  rw [slot_modify]
  split
  · cases regs.slot b <;> rfl
  · rfl

/-- A parameter is stored where there was one. -/
theorem config?_setConfig (regs : RegisterFile) (a b : UInt8) (value : Int32) :
    (regs.setConfig a value).config? b =
      if index a = index b then (regs.config? b).map fun _ => value else regs.config? b := by
  unfold config? setConfig
  rw [slot_modify]
  split
  · cases regs.slot b <;> rfl
  · rfl

end RegisterFile
end EffectsDsp
