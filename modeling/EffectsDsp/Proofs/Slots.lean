/-
  EffectsDsp.Proofs.Slots

  The register file as an array of cells, each with a kind of its own. A call stores a value or a
  parameter, and a slot of the other kind ignores it, so that a slot holds what the last call of
  its kind stored there or, without such a call, what it held before. That is said of any content
  first (`slot_afterAll`), where the kind of a slot is that of its content; at power-on it is
  that of its number.

  A parameter is read at its place in the accumulator. Its upper bits are lost there if it is too
  large for its field, as the container goes around.
-/

import EffectsDsp.Proofs.Footprint

namespace EffectsDsp
namespace RegisterFile

/-! ## Calls -/

/-- A call that stores something in a register. -/
inductive Call where
  | write (address : UInt8) (value : Fixed)
  | setConfig (address : UInt8) (value : Int32)

namespace Call

variable {regs : RegisterFile}

def address : Call → UInt8
  | write address _ | setConfig address _ => address

def apply (regs : RegisterFile) : Call → RegisterFile
  | write address value => regs.write address value
  | setConfig address value => regs.setConfig address value

/-- The call is for the other kind of slots than the one that its address names. -/
def Mismatched : Call → Prop
  | write address _ => (index address).val < 8
  | setConfig address _ => 8 ≤ (index address).val

/-- The value that the call stores in a slot. -/
def value? (i : Fin 64) : Call → Option Fixed
  | write address value => if index address = i then some value else none
  | setConfig _ _ => none

/-- The parameter that the call stores in a slot. -/
def param? (i : Fin 64) : Call → Option Int32
  | write _ _ => none
  | setConfig address value => if index address = i then some value else none

/-- What the call makes of the content of a slot. -/
def put (call : Call) (i : Fin 64) : Register → Register
  | .config v => .config ((call.param? i).getD v)
  | .audio x => .audio ((call.value? i).getD x)

theorem slot_apply (call : Call) (regs : RegisterFile) (a : UInt8) :
    (call.apply regs).slot a = call.put (index a) (regs.slot a) := by
  cases call with
  | write address value =>
    rw [apply, RegisterFile.write, slot_modify]
    cases regs.slot a with
    | config v => exact ite_self _
    | audio x => simp only [put, value?, Register.write, apply_ite (Option.getD · x),
        apply_ite Register.audio, Option.getD_some, Option.getD_none]
  | setConfig address value =>
    rw [apply, RegisterFile.setConfig, slot_modify]
    cases regs.slot a with
    | config v => simp only [put, param?, Register.setConfig, apply_ite (Option.getD · v),
        apply_ite Register.config, Option.getD_some, Option.getD_none]
    | audio x => exact ite_self _

/-- A call changes one slot at most. -/
theorem slot_apply_of_ne {call : Call} {a : UInt8} (h : index call.address ≠ index a) :
    (call.apply regs).slot a = regs.slot a := by
  cases call with
  | write address value => exact slot_modify_of_ne regs h _
  | setConfig address value => exact slot_modify_of_ne regs h _

theorem apply_of_mismatched (hkinded : regs.Kinded) {call : Call} (h : call.Mismatched) :
    call.apply regs = regs := by
  cases call with
  | write address value =>
    apply modify_eq_self
    obtain ⟨v, hv⟩ := hkinded.exists_config h
    rw [hv]
    rfl
  | setConfig address value =>
    apply modify_eq_self
    obtain ⟨x, hx⟩ := hkinded.exists_audio h
    rw [hx]
    rfl

theorem kinded_apply (h : regs.Kinded) (call : Call) : (call.apply regs).Kinded := by
  cases call with
  | write address value => exact h.write address value
  | setConfig address value => exact h.setConfig address value

end Call

/-! ## Sequences of calls -/

variable {regs : RegisterFile}

def afterAll (calls : List Call) (regs : RegisterFile) : RegisterFile :=
  calls.foldl (fun regs call => call.apply regs) regs

/-- The last value that the calls store in a slot. -/
def lastValue? (i : Fin 64) (calls : List Call) : Option Fixed :=
  calls.reverse.findSome? (Call.value? i)

/-- The last parameter that the calls store in a slot. -/
def lastParam? (i : Fin 64) (calls : List Call) : Option Int32 :=
  calls.reverse.findSome? (Call.param? i)

/-- The first call counts if no other stores anything. -/
theorem findSome?_reverse_cons {α β : Type} (f : α → Option β) (x : α) (xs : List α) :
    (x :: xs).reverse.findSome? f = (xs.reverse.findSome? f).or (f x) := by
  rw [List.reverse_cons, List.findSome?_append, List.findSome?_singleton]

/-- A slot holds what was stored last in it, or what was there before. -/
def contentAfter (calls : List Call) (i : Fin 64) : Register → Register
  | .config v => .config ((lastParam? i calls).getD v)
  | .audio x => .audio ((lastValue? i calls).getD x)

theorem contentAfter_cons (call : Call) (calls : List Call) (i : Fin 64) (r : Register) :
    contentAfter (call :: calls) i r = contentAfter calls i (call.put i r) := by
  cases r with
  | config v =>
    rw [contentAfter, lastParam?, findSome?_reverse_cons, Option.getD_or]
    rfl
  | audio x =>
    rw [contentAfter, lastValue?, findSome?_reverse_cons, Option.getD_or]
    rfl

theorem slot_afterAll (calls : List Call) (regs : RegisterFile) (a : UInt8) :
    (afterAll calls regs).slot a = contentAfter calls (index a) (regs.slot a) := by
  induction calls generalizing regs with
  | nil => cases h : regs.slot a <;> exact h
  | cons call calls ih =>
    rw [contentAfter_cons, ← call.slot_apply]
    exact ih (call.apply regs)

theorem kinded_afterAll (h : regs.Kinded) (calls : List Call) : (afterAll calls regs).Kinded := by
  induction calls generalizing regs with
  | nil => exact h
  | cons call calls ih => exact ih (call.kinded_apply h)

/-! ## Reading -/

/-- One unit of the parameter at an address, as a number of the datapath. The rate of a sine has
    nine bits and stands at the top of the word, all others start at bit 8. -/
def unitAt (address : UInt8) : Int :=
  if address.toNat = 0 ∨ address.toNat = 2 then 16384 else 256

theorem lfoParam?_of_lt {address : UInt8} (h : address.toNat < 8) :
    ∃ lfo p, Address.lfoParam? address = some (lfo, p) ∧
      ((1 <<< Address.paramShift lfo p : Nat) : Int) = unitAt address := by
  have hself : (Address.lfoParam? address).map
      (fun (lfo, p) => ((1 <<< Address.paramShift lfo p : Nat) : Int)) = some (unitAt address) :=
    Address.forall_lt (P := fun a => (Address.lfoParam? a).map
      (fun (lfo, p) => ((1 <<< Address.paramShift lfo p : Nat) : Int)) = some (unitAt a))
      (by decide) h
  obtain ⟨⟨lfo, p⟩, hparam, hunit⟩ := Option.map_eq_some_iff.mp hself
  exact ⟨lfo, p, hparam, hunit⟩

theorem read_config {address : UInt8} {v : Int32} (hlow : address.toNat < 8)
    (h : regs.slot address = .config v) :
    ∃ raw : Int32, raw.toInt = (v.toInt * unitAt address).bmod 4294967296 ∧
      regs.read address = (Fixed.ofRaw raw).withFormat .sample := by
  obtain ⟨lfo, p, hparam, hunit⟩ := lfoParam?_of_lt hlow
  refine ⟨v <<< Int32.ofNat (Address.paramShift lfo p), ?_, ?_⟩
  · rw [← hunit]
    exact toInt_shiftLeft (Address.smod_paramShift lfo p)
  · rw [RegisterFile.read, h, Register.read, hparam]

theorem read_audio {address : UInt8} {x : Fixed} (h : regs.slot address = .audio x) :
    regs.read address = x := by
  rw [RegisterFile.read, h, Register.read]

/-! ## From power-on -/

theorem slot_afterAll_initial (calls : List Call) (a : UInt8) :
    (afterAll calls initial).slot a =
      if (index a).val < 8 then .config ((lastParam? (index a) calls).getD 0)
      else .audio ((lastValue? (index a) calls).getD .zero) := by
  rw [slot_afterAll, slot_initial]
  split <;> rfl

/-- The register file is an array of 64 cells of fixed kind. After any calls with any addresses,
    the eight lowest slots hold the last parameters that were stored at an address of theirs, and
    all others the last values, zero if there are none. A call for the other kind changes nothing,
    and no call changes another slot. Below 64, values are read as they are and parameters at
    their places in the accumulator. -/
theorem slots_hold_last_stored (calls : List Call) :
    (∀ a, (afterAll calls initial).slot a =
        if (index a).val < 8 then .config ((lastParam? (index a) calls).getD 0)
        else .audio ((lastValue? (index a) calls).getD .zero)) ∧
      (∀ call : Call, call.Mismatched →
        call.apply (afterAll calls initial) = afterAll calls initial) ∧
      (∀ (call : Call) (a : UInt8), index call.address ≠ index a →
        (call.apply (afterAll calls initial)).slot a = (afterAll calls initial).slot a) ∧
      ∀ a : UInt8, a.toNat < 64 →
        (afterAll calls initial).config? a =
            (if a.toNat < 8 then some ((lastParam? (index a) calls).getD 0) else none) ∧
          (a.toNat < 8 → ∃ raw : Int32,
            raw.toInt =
              (((lastParam? (index a) calls).getD 0).toInt * unitAt a).bmod 4294967296 ∧
            (afterAll calls initial).read a = (Fixed.ofRaw raw).withFormat .sample) ∧
          (8 ≤ a.toNat →
            (afterAll calls initial).read a = (lastValue? (index a) calls).getD .zero) := by
  have hslot := slot_afterAll_initial calls
  refine ⟨hslot, fun call => Call.apply_of_mismatched (kinded_afterAll .initial calls),
    fun call a => Call.slot_apply_of_ne, fun a ha => ?_⟩
  have hself : (index a).val = a.toNat := Nat.mod_eq_of_lt ha
  have hcell := hslot a
  rw [hself] at hcell
  by_cases hlow : a.toNat < 8
  · rw [if_pos hlow] at hcell
    refine ⟨?_, fun _ => read_config hlow hcell, fun hhigh => absurd hlow (Nat.not_lt.mpr hhigh)⟩
    rw [if_pos hlow]
    exact config?_eq_some.mpr hcell
  · rw [if_neg hlow] at hcell
    refine ⟨?_, fun hlow' => absurd hlow' hlow, fun _ => read_audio hcell⟩
    rw [if_neg hlow, config?, hcell]
    rfl

/-- A sine rate that is stored at an alias of its address is read at the top of the word, whatever
    is written there. -/
theorem slots_hold_last_stored_alias :
    (Call.write 0 (.ofRaw 1)).Mismatched ∧
      (Call.write 0 (.ofRaw 1)).apply (afterAll [.setConfig 64 256] initial) =
        afterAll [.setConfig 64 256] initial ∧
      ∃ raw : Int32, raw.toInt = 4194304 ∧
        (afterAll [.setConfig 64 256] initial).read 0 = (Fixed.ofRaw raw).withFormat .sample := by
  have hwrong : (Call.write 0 (.ofRaw 1)).Mismatched := by
    show (index 0).val < 8
    decide
  obtain ⟨-, hignored, -, hread⟩ := slots_hold_last_stored [.setConfig 64 256]
  obtain ⟨-, hparam, -⟩ := hread 0 (by decide)
  obtain ⟨raw, hraw, hzero⟩ := hparam (by decide)
  exact ⟨hwrong, hignored _ hwrong, raw, hraw.trans (by decide), hzero⟩

end RegisterFile
end EffectsDsp
