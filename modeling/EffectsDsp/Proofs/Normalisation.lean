/-
  EffectsDsp.Proofs.Normalisation

  What restoring makes of arbitrary bytes. Several bytes mean the same machine: a truth value
  is any of 256 bytes, a tag any but zero, and a format that nothing can represent is read as
  the internal one. What is restored is a machine like any other, and so its own snapshot
  restores it unchanged, and is as long as the bytes that it came from.

  `restore_eq_ok_iff` says what was read where a snapshot was accepted; the rest follows from
  what is known of all layouts.
-/

import Mathlib.Data.List.Basic
import EffectsDsp.Proofs.Extent
import EffectsDsp.Proofs.Snapshot

namespace EffectsDsp

/-! ## Lengths -/

theorem Fixed.keepsLength_layout : Fixed.layout.KeepsLength :=
  ⟨⟨trivial, ⟨⟨trivial, trivial⟩, fun _ => rfl⟩, trivial, trivial⟩, fun _ => rfl⟩

theorem Register.keepsLength_layout : Register.layout.KeepsLength := by
  refine ⟨⟨trivial, Fixed.keepsLength_layout⟩, fun content => ?_⟩
  cases content <;> rfl

theorem RegisterFile.keepsLength_layout : RegisterFile.layout.KeepsLength :=
  ⟨Register.keepsLength_layout, fun _ => rfl⟩

theorem LfoBank.keepsLength_layout : LfoBank.layout.KeepsLength := by
  have hphase : Phase.layout.KeepsLength := ⟨trivial, fun _ => rfl⟩
  have hsine : Sine.layout.KeepsLength := ⟨⟨hphase, hphase, trivial, trivial⟩, fun _ => rfl⟩
  have hramp : Ramp.layout.KeepsLength := ⟨⟨trivial, trivial, trivial, trivial⟩, fun _ => rfl⟩
  exact ⟨⟨hsine, hramp⟩, fun _ => rfl⟩

theorem Diagnostics.keepsLength_layout : Diagnostics.layout.KeepsLength :=
  ⟨⟨trivial, trivial, trivial, trivial, trivial, trivial, trivial, trivial, trivial⟩,
    fun _ => rfl⟩

namespace Machine

theorem keepsLength_layout : layout.KeepsLength :=
  ⟨⟨trivial, Fixed.keepsLength_layout, Fixed.keepsLength_layout, Fixed.keepsLength_layout,
    RegisterFile.keepsLength_layout, trivial, trivial, trivial, LfoBank.keepsLength_layout,
    Diagnostics.keepsLength_layout, trivial⟩, fun _ => rfl⟩

variable {target m : Machine} {bytes : List UInt8}

/-- Every mode is written in as many bytes. -/
theorem length_write_inMode (m : Machine) (mode : Bool) :
    (layout.write (m.inMode mode)).length = (layout.write m).length := by
  have hvalue : ∀ x : Fixed,
      (Fixed.layout.write (x.withSaturating mode)).length = (Fixed.layout.write x).length :=
    fun _ => rfl
  unfold layout
  simp only [Layout.write, coding, inMode, List.length_append, hvalue]

/-! ## Accepted bytes -/

/-- The parts of the bytes of a machine. Its registers stand behind the instruction pointer
    and three values, and delay memory and its pointer behind the registers; the mode is not
    stored. -/
theorem parts_of_reads {rest : List UInt8} (h : layout.Reads target bytes m rest) :
    ∃ fromDelay fromPtr left,
      RegisterFile.layout.Reads target.regs (bytes.drop 35) m.regs fromDelay ∧
      (Layout.sequence (.scalar .i32) 0).Reads target.delay fromDelay m.delay fromPtr ∧
      (Layout.scalar .u64).Reads target.delayPtr fromPtr m.delayPtr left ∧
      m.saturating = target.saturating := by
  obtain ⟨⟨ip, acc, pacc, lr, regs, delay, delayPtr, runFlag, lfos, diagnostics, mode⟩, hparts,
    rfl⟩ := Layout.reads_view.mp h
  obtain ⟨fromAcc, hip, hparts⟩ := Layout.reads_pair.mp hparts
  obtain ⟨fromPacc, hacc, hparts⟩ := Layout.reads_pair.mp hparts
  obtain ⟨fromLr, hpacc, hparts⟩ := Layout.reads_pair.mp hparts
  obtain ⟨fromRegs, hlr, hparts⟩ := Layout.reads_pair.mp hparts
  obtain ⟨fromDelay, hregs, hparts⟩ := Layout.reads_pair.mp hparts
  obtain ⟨fromPtr, hdelay, hparts⟩ := Layout.reads_pair.mp hparts
  obtain ⟨left, hptr, hparts⟩ := Layout.reads_pair.mp hparts
  -- Nothing behind the pointer matters but the mode, which is the last field.
  obtain ⟨_, -, hparts⟩ := Layout.reads_pair.mp hparts
  obtain ⟨_, -, hparts⟩ := Layout.reads_pair.mp hparts
  obtain ⟨_, -, hmode⟩ := Layout.reads_pair.mp hparts
  have hfixed : ∀ {t x : Fixed} {bytes rest : List UInt8},
      Fixed.layout.Reads t bytes x rest → rest = bytes.drop 9 :=
    fun hx => Layout.rest_eq_drop Fixed.keepsLength_layout hx
  have hplace : fromRegs = bytes.drop 35 := by
    rw [hfixed hlr, hfixed hpacc, hfixed hacc, (Layout.scalar_of_reads hip).2, List.drop_drop,
      List.drop_drop, List.drop_drop]
    rfl
  rw [← hplace]
  exact ⟨fromDelay, fromPtr, left, hregs, hdelay, hptr, (Layout.reads_transient.mp hmode).1⟩

/-- Delay memory that was read can be counted in a length field. -/
theorem size_delay_of_reads {rest : List UInt8} (h : layout.Reads target bytes m rest) :
    m.delay.size < UInt64.size := by
  obtain ⟨fromDelay, fromPtr, left, -, hdelay, -, -⟩ := parts_of_reads h
  obtain ⟨count, body, -, -, -, hwords⟩ := Layout.reads_sequence.mp hdelay
  have hlength := Layout.length_of_readsEach hwords
  rw [Array.length_toList, Layout.length_resize] at hlength
  rw [hlength]
  exact UInt64.toNat_lt_size _

theorem restore_eq_ok :
    target.restore bytes = (.ok (), m) ↔ target.restored bytes = .ok m := by
  unfold restore
  cases target.restored bytes with
  | ok read => simp
  | error e => simp

/-- What was read is brought into its own mode, which is the one of the target. -/
theorem commit_of_reads {read : Machine} (h : layout.Reads target bytes read []) :
    { read with acc := read.value read.acc, pacc := read.value read.pacc } =
      read.inMode target.saturating := by
  obtain ⟨_, _, _, -, -, -, hmode⟩ := parts_of_reads h
  rw [← hmode]
  rfl

/-- Bytes are accepted if a machine stands behind the magic number, and nothing else, and its
    delay memory has the right length. It replaces the target in the target's mode. -/
theorem restore_eq_ok_iff :
    target.restore bytes = (.ok (), m) ↔
      ∃ body read, bytes = magic ++ body ∧ layout.Reads target body read [] ∧
        read.delay.size = target.delay.size ∧ m = read.inMode target.saturating := by
  rw [restore_eq_ok]
  unfold restored
  constructor
  · intro h
    rcases hmagic : magic.isPrefixOf? bytes with _ | body
    · rw [hmagic] at h
      cases h
    · rw [hmagic] at h
      rcases hread : layout.read target body with ⟨read, rest, _ | e⟩
      · simp only [hread] at h
        split at h
        · cases h
        · next hrest =>
          split at h
          · cases h
          · next hsize =>
            -- All checks are passed.
            obtain rfl := List.isEmpty_iff.mp (not_not.mp hrest)
            have hbytes := List.isPrefixOf?_eq_some_iff_append_eq.mp hmagic
            have hm := Except.ok.inj h
            rw [commit_of_reads hread] at hm
            exact ⟨body, read, hbytes.symm, hread, not_not.mp hsize, hm.symm⟩
      · simp only [hread] at h
        cases h
  · rintro ⟨body, read, rfl, hread, hsize, rfl⟩
    have hmagic : magic.isPrefixOf? (magic ++ body) = some body :=
      List.isPrefixOf?_eq_some_iff_append_eq.mpr rfl
    have hresult : layout.read target body = ⟨read, [], none⟩ := hread
    rw [hmagic, ← commit_of_reads hread]
    simp only [hresult, hsize, List.isEmpty_nil, not_true_eq_false, ne_eq, if_false]

/-- A machine that was restored has the mode of the machine that it replaced, and delay memory
    of the same length. -/
theorem hasMode_of_restore (h : target.restore bytes = (.ok (), m)) :
    m.HasMode target.saturating ∧ m.delay.size = target.delay.size ∧
      m.delay.size < UInt64.size := by
  obtain ⟨body, read, rfl, hread, hsize, rfl⟩ := restore_eq_ok_iff.mp h
  have hcounted := size_delay_of_reads hread
  exact ⟨⟨rfl, rfl, rfl⟩, hsize, hcounted⟩

theorem length_snapshot_of_restore (h : target.restore bytes = (.ok (), m)) :
    m.snapshot.length = bytes.length := by
  obtain ⟨body, read, rfl, hread, -, rfl⟩ := restore_eq_ok_iff.mp h
  have hbody := Layout.length_write_of_reads keepsLength_layout hread
  rw [List.length_nil, Nat.add_zero] at hbody
  rw [snapshot, List.length_append, List.length_append, length_write_inMode, hbody]

/-! ## Restoring what was restored -/

/-- The machine holds the value: in an accumulator, in LR or in a register. -/
def Holds (m : Machine) (x : Fixed) : Prop :=
  x = m.acc ∨ x = m.pacc ∨ x = m.lr ∨ ∃ address, m.regs.slot address = .audio x

/-- The bytes are a snapshot of the machine, apart from up to three flipped bits in the byte of
    each of its truth values. -/
def IsDisturbedSnapshot (m : Machine) (bytes : List UInt8) : Prop :=
  ∃ body, bytes = magic ++ body ∧ layout.Disturbed m body

/-- A disturbed snapshot restores what the snapshot does. -/
theorem restore_of_isDisturbedSnapshot {saved : Machine}
    (hlength : saved.delay.size = target.delay.size) (hsize : saved.delay.size < UInt64.size)
    (h : saved.IsDisturbedSnapshot bytes) :
    target.restore bytes = (.ok (), saved.inMode target.saturating) := by
  obtain ⟨body, rfl, hbody⟩ := h
  have hread := Layout.reads_of_disturbed (fits_layout hsize) hbody target []
  rw [List.append_nil, merge_layout] at hread
  exact restore_eq_ok_iff.mpr ⟨body, _, rfl, hread, hlength, rfl⟩

/-- Restoring normalises once and is stable from then on. Whatever bytes a machine accepts, the
    machine that they make of it has a snapshot of the same length, holds values of
    representable formats only, and keeps the delay length and the mode of the machine
    before, in its accumulators too. Its snapshot makes exactly it of every machine of this
    delay length and mode. Bytes that disturb a snapshot in its truth values, by three bits
    in each, restore the same as the snapshot. -/
theorem restore_normalises (target : Machine) (bytes : List UInt8) :
    (∀ m, target.restore bytes = (.ok (), m) →
        m.snapshot.length = bytes.length ∧
        (∀ x, m.Holds x → x.format.intBits ≤ 8 ∧ x.format.fracBits ≤ 23) ∧
        m.delay.size = target.delay.size ∧ m.HasMode target.saturating ∧
        ∀ other : Machine, other.delay.size = target.delay.size →
          other.saturating = target.saturating → other.restore m.snapshot = (.ok (), m)) ∧
      ∀ saved : Machine, saved.delay.size = target.delay.size → saved.delay.size < UInt64.size →
        saved.IsDisturbedSnapshot bytes →
        (target.restore bytes).1 = .ok () ∧
          target.restore bytes = target.restore saved.snapshot := by
  constructor
  · intro m h
    obtain ⟨hmode, hlength, hsize⟩ := hasMode_of_restore h
    refine ⟨length_snapshot_of_restore h, fun x _ => ⟨x.format.intBits_le, x.format.fracBits_le⟩,
      hlength, hmode, fun other hother hmodes => ?_⟩
    rw [restore_snapshot_eq (hlength.trans hother.symm) hsize, hmodes, inMode_of_hasMode hmode]
  · intro saved hlength hsize h
    have hrestore := restore_of_isDisturbedSnapshot hlength hsize h
    rw [hrestore, restore_snapshot_eq hlength hsize]
    exact ⟨rfl, rfl⟩

/-- Three bits of the truth value in the accumulator are flipped, and restoring does not tell. -/
theorem restore_normalises_flipped :
    let saved := (powerOn 2 true).endSample
    ∃ bytes, saved.IsDisturbedSnapshot bytes ∧ bytes ≠ saved.snapshot ∧
      saved.delay.size = (powerOn 2 true).delay.size ∧ saved.delay.size < UInt64.size ∧
      (powerOn 2 true).restore bytes = (.ok (), saved) ∧
      saved.snapshot.length = bytes.length ∧
      (powerOn 2 true).restore saved.snapshot = (.ok (), saved) := by
  intro saved
  have hflips : Scalar.flips 0xf8 0xff ≤ 3 := by decide
  have hflag : (Layout.scalar Scalar.bool).Disturbed true [0xf8] :=
    Layout.disturbed_bool rfl hflips
  have hacc : Fixed.layout.Disturbed saved.acc _ :=
    Layout.disturbed_pair (Layout.disturbed_write _ _)
      (Layout.disturbed_pair (Layout.disturbed_write _ _)
        (Layout.disturbed_pair hflag (Layout.disturbed_write _ _)))
  have hbody : layout.Disturbed saved _ :=
    Layout.disturbed_pair (Layout.disturbed_write _ _)
      (Layout.disturbed_pair hacc (Layout.disturbed_write _ _))
  have hlength : saved.delay.size = (powerOn 2 true).delay.size := rfl
  have hsize : saved.delay.size < UInt64.size := by decide
  obtain ⟨bytes, hdisturbed, hne⟩ :
      ∃ bytes, saved.IsDisturbedSnapshot bytes ∧ bytes ≠ saved.snapshot :=
    ⟨_, ⟨_, rfl, hbody⟩, by decide +kernel⟩
  obtain ⟨hstable, hflipped⟩ := restore_normalises (powerOn 2 true) bytes
  obtain ⟨-, hsame⟩ := hflipped saved hlength hsize hdisturbed
  have hmode : saved.HasMode (powerOn 2 true).saturating := ⟨rfl, rfl, rfl⟩
  have hrestore : (powerOn 2 true).restore bytes = (.ok (), saved) := by
    rw [hsame, restore_snapshot_eq hlength hsize, inMode_of_hasMode hmode]
  obtain ⟨hlengths, -, -, -, hagain⟩ := hstable saved hrestore
  exact ⟨bytes, hdisturbed, hne, hlength, hsize, hrestore, hlengths,
    hagain (powerOn 2 true) rfl rfl⟩

end Machine
end EffectsDsp
