/-
  EffectsDsp.Proofs.Snapshot

  Snapshots that are restored. The layout of a machine stores all but its saturation
  mode, so that a machine restored from a snapshot is the one that was saved, in the mode
  of the machine that it replaces.
-/

import EffectsDsp.Proofs.Disturbance
import EffectsDsp.Proofs.Effect
import EffectsDsp.Proofs.Session

namespace EffectsDsp
namespace Machine

/-! ## The layout of a machine -/

/-- A machine can be saved if the length of its delay memory is a 64-bit number, which
    only the model can exceed. -/
theorem fits_layout {m : Machine} (hsize : m.delay.size < UInt64.size) : layout.Fits m := by
  have hregs : RegisterFile.layout.Fits m.regs := Layout.fits_of_isFlat rfl _
  have hlfos : LfoBank.layout.Fits m.lfos := Layout.fits_of_isFlat rfl _
  have hdiagnostics : Diagnostics.layout.Fits m.diagnostics := Layout.fits_of_isFlat rfl _
  have hvalue : ∀ x, Fixed.layout.Fits x := fun x => Layout.fits_of_isFlat rfl x
  -- A word has four bytes, so that the length of delay memory can be checked.
  have hword : ∀ w ∈ m.delay.toList, True ∧ Scalar.i32.encode w ≠ [] :=
    fun w _ => ⟨trivial, Scalar.encode_ne_nil (by decide) w⟩
  exact ⟨trivial, hvalue _, hvalue _, hvalue _, hregs, ⟨hsize, hword⟩, trivial, trivial, hlfos,
    hdiagnostics, trivial⟩

/-- Only the saturation mode is not stored. -/
theorem merge_layout (target m : Machine) :
    layout.merge target m = { m with saturating := target.saturating } := by
  have hparts : layout.merge target m =
      { ip := m.ip
        acc := Fixed.layout.merge target.acc m.acc
        pacc := Fixed.layout.merge target.pacc m.pacc
        lr := Fixed.layout.merge target.lr m.lr
        regs := RegisterFile.layout.merge target.regs m.regs
        delay := (Layout.sequence (.scalar .i32) 0).merge target.delay m.delay
        delayPtr := m.delayPtr
        runFlag := m.runFlag
        lfos := LfoBank.layout.merge target.lfos m.lfos
        diagnostics := Diagnostics.layout.merge target.diagnostics m.diagnostics
        saturating := target.saturating } := rfl
  have hvalue : ∀ t x, Fixed.layout.merge t x = x := Layout.merge_of_isStored rfl
  have hregs : ∀ t regs, RegisterFile.layout.merge t regs = regs := Layout.merge_of_isStored rfl
  have hdelay : ∀ t words, (Layout.sequence (.scalar .i32) 0).merge t words = words :=
    Layout.merge_of_isStored rfl
  have hlfos : ∀ t bank, LfoBank.layout.merge t bank = bank := Layout.merge_of_isStored rfl
  have hdiagnostics : ∀ t d, Diagnostics.layout.merge t d = d := Layout.merge_of_isStored rfl
  rw [hparts, hvalue, hvalue, hvalue, hregs, hdelay, hlfos, hdiagnostics]

/-! ## Restoring -/

/-- The machine in the mode `mode`, and with it its accumulators. -/
def inMode (m : Machine) (mode : Bool) : Machine :=
  { m with
    saturating := mode
    acc := m.acc.withSaturating mode
    pacc := m.pacc.withSaturating mode }

/-- A machine whose accumulators have its mode is one in its mode. -/
theorem inMode_of_hasMode {m : Machine} {mode : Bool} (h : m.HasMode mode) :
    m.inMode mode = m := by
  obtain ⟨hmachine, hacc, hpacc⟩ := h
  have hself : ∀ {x : Fixed}, x.saturating = mode → x.withSaturating mode = x := by
    intro x hx
    rw [← hx]
    rfl
  unfold inMode
  rw [hself hacc, hself hpacc, ← hmachine]

/-- Reading a snapshot consumes all of it. -/
theorem read_snapshot {m : Machine} (hsize : m.delay.size < UInt64.size) (target : Machine) :
    layout.read target (layout.write m) =
      ⟨{ m with saturating := target.saturating }, [], none⟩ := by
  have hread := Layout.readsBack_of_fits (fits_layout hsize) target []
  rw [List.append_nil, merge_layout] at hread
  exact hread

/-- A snapshot restores the machine that it was taken of, in the mode of the target. -/
theorem restore_snapshot_eq {m target : Machine} (hlength : m.delay.size = target.delay.size)
    (hsize : m.delay.size < UInt64.size) :
    target.restore m.snapshot = (.ok (), m.inMode target.saturating) := by
  have hmagic : magic.isPrefixOf? m.snapshot = some (layout.write m) := rfl
  have hrestored : target.restored m.snapshot = .ok (m.inMode target.saturating) := by
    unfold restored
    rw [hmagic]
    simp only [read_snapshot hsize, hlength, List.isEmpty_nil, not_true_eq_false, ne_eq, if_false]
    rfl
  unfold restore
  rw [hrestored]

/-- Whatever the target holds, a snapshot of a machine with delay memory of the same length
    makes it that machine in the mode of the target. If the machine was in this mode
    already, the target becomes the machine itself: its snapshot is the same, and so are
    the outputs, the faults and the machines of all frames to come. -/
theorem restore_snapshot_resumes {m target : Machine}
    (hlength : m.delay.size = target.delay.size) (hsize : m.delay.size < UInt64.size) :
    target.restore m.snapshot =
        (.ok (),
          { m with
            saturating := target.saturating
            acc := m.acc.withSaturating target.saturating
            pacc := m.pacc.withSaturating target.saturating }) ∧
      (m.HasMode target.saturating →
        (target.restore m.snapshot).2 = m ∧
          (target.restore m.snapshot).2.snapshot = m.snapshot ∧
          ∀ (limit : Nat) (program : Program) (frames : List (Fixed × Fixed)),
            (target.restore m.snapshot).2.processAll limit program frames =
              m.processAll limit program frames) := by
  have hrestore := restore_snapshot_eq hlength hsize
  refine ⟨hrestore, fun hmode => ?_⟩
  have hself : (target.restore m.snapshot).2 = m := by
    rw [hrestore, inMode_of_hasMode hmode]
  refine ⟨hself, congrArg snapshot hself, fun limit program frames => ?_⟩
  rw [hself]

/-- A machine that was just switched on takes over from one that is a sample ahead. -/
theorem restore_snapshot_endSample :
    (powerOn 2 true).endSample.delay.size = (powerOn 2 true).delay.size ∧
      (powerOn 2 true).endSample.delay.size < UInt64.size ∧
      (powerOn 2 true).endSample.HasMode (powerOn 2 true).saturating ∧
      (powerOn 2 true).restore (powerOn 2 true).endSample.snapshot =
        (.ok (), (powerOn 2 true).endSample) ∧
      ((powerOn 2 true).restore (powerOn 2 true).endSample.snapshot).2.snapshot =
        (powerOn 2 true).endSample.snapshot := by
  have hlength : (powerOn 2 true).endSample.delay.size = (powerOn 2 true).delay.size := rfl
  have hsize : (powerOn 2 true).endSample.delay.size < UInt64.size := by decide
  have hmode : (powerOn 2 true).endSample.HasMode (powerOn 2 true).saturating := ⟨rfl, rfl, rfl⟩
  obtain ⟨hrestore, hresumes⟩ := restore_snapshot_resumes hlength hsize
  exact ⟨hlength, hsize, hmode, hrestore, (hresumes hmode).2.1⟩

end Machine
end EffectsDsp
