/-
  EffectsDsp.Proofs.Refusal

  Snapshots that are refused. Bytes that are cut off within a value do not read as one, which
  settles which check of a damaged snapshot fails first. A cut is found while reading, bytes
  behind the end after it, and only a snapshot of the right length comes to the check of the
  delay memory. A machine that refuses a snapshot stays what it was.
-/

import Mathlib.Data.List.Basic
import EffectsDsp.Proofs.Extent
import EffectsDsp.Proofs.Snapshot

namespace EffectsDsp
namespace Layout

/-- A cut through two parts leaves a piece of the first, or all of it and a piece of the
    second. -/
theorem cut_append {first second head tail : List UInt8} (h : first ++ second = head ++ tail) :
    (∃ rest, rest ≠ [] ∧ first = head ++ rest) ∨
      ∃ more, head = first ++ more ∧ second = more ++ tail := by
  obtain ⟨more, hhead, hsecond⟩ | ⟨rest, hfirst, htail⟩ := List.append_eq_append_iff.mp h
  · exact .inr ⟨more, hhead, hsecond⟩
  · by_cases hrest : rest = []
    · -- The cut runs between the parts.
      subst hrest
      rw [List.append_nil] at hfirst
      exact .inr ⟨[], by rw [List.append_nil, hfirst], htail.symm⟩
    · exact .inl ⟨rest, hrest, hfirst⟩

end Layout

/-! ## Damaged snapshots -/

namespace Machine

variable {m target : Machine}

theorem restored_of_not_magic (target : Machine) {bytes : List UInt8} (h : ¬ magic <+: bytes) :
    target.restored bytes = .error .badMagic := by
  unfold restored
  cases hmagic : magic.isPrefixOf? bytes with
  | none => rfl
  | some body => exact absurd ⟨body, List.isPrefixOf?_eq_some_iff_append_eq.mp hmagic⟩ h

/-- A snapshot that is cut behind the magic number is found out while it is read. -/
theorem restored_cut (hsize : m.delay.size < UInt64.size) (target : Machine)
    {body tail : List UInt8} (htail : tail ≠ []) (h : layout.write m = body ++ tail) :
    ∃ e, target.restored (magic ++ body) = .error (.truncated e) := by
  have hcounted := Layout.counted_of_fits (fits_layout hsize)
  obtain ⟨e, he⟩ := Layout.failure_of_cut_write hcounted htail h target
  have hmagic : magic.isPrefixOf? (magic ++ body) = some body :=
    List.isPrefixOf?_eq_some_iff_append_eq.mpr rfl
  refine ⟨e, ?_⟩
  unfold restored
  simp only [hmagic, he]

/-- A cut within the magic number leaves nothing to be recognised. -/
theorem restored_prefix (hsize : m.delay.size < UInt64.size) (target : Machine)
    {head : List UInt8} (hbegins : head <+: m.snapshot) (hne : head ≠ m.snapshot) :
    (head.length < 4 → target.restored head = .error .badMagic) ∧
      (4 ≤ head.length → ∃ e, target.restored head = .error (.truncated e)) := by
  obtain ⟨tail, htail, hsnapshot⟩ := exists_tail hbegins hne
  constructor
  · intro hshort
    refine restored_of_not_magic target fun hmagic => ?_
    have hlength : (4 : Nat) ≤ head.length := hmagic.length_le
    omega
  · intro hlong
    obtain ⟨rest, hrest, hhead⟩ | ⟨body, rfl, hbody⟩ := Layout.cut_append hsnapshot
    · have hlength : (4 : Nat) = (head ++ rest).length := congrArg List.length hhead
      have hpos := List.length_pos_iff.mpr hrest
      rw [List.length_append] at hlength
      omega
    · exact restored_cut hsize target htail hbody

theorem restored_trailing (hsize : m.delay.size < UInt64.size) (target : Machine)
    {rest : List UInt8} (hrest : rest ≠ []) :
    target.restored (m.snapshot ++ rest) = .error (.trailingData rest.length) := by
  have hmagic : magic.isPrefixOf? (m.snapshot ++ rest) = some (layout.write m ++ rest) := rfl
  have hread := Layout.readsBack_of_fits (fits_layout hsize) target rest
  have hmore : ¬ rest.isEmpty = true := fun hempty => hrest (List.isEmpty_iff.mp hempty)
  unfold restored
  rw [hmagic]
  simp only [hread, if_pos hmore]

theorem restored_mismatch (hsize : m.delay.size < UInt64.size)
    (hlength : m.delay.size ≠ target.delay.size) :
    target.restored m.snapshot =
      .error (.delaySizeMismatch target.delay.size m.delay.size) := by
  have hmagic : magic.isPrefixOf? m.snapshot = some (layout.write m) := rfl
  unfold restored
  rw [hmagic]
  simp only [read_snapshot hsize, List.isEmpty_nil, not_true_eq_false, if_false, if_pos hlength]

/-- A refused snapshot leaves the machine as it is. -/
theorem restore_of_error {bytes : List UInt8} {e : SnapshotError}
    (h : target.restored bytes = .error e) : target.restore bytes = (.error e, target) := by
  unfold restore
  rw [h]

theorem restore_snd_of_error {bytes : List UInt8} {e : SnapshotError}
    (h : (target.restore bytes).1 = .error e) : (target.restore bytes).2 = target := by
  unfold restore at h ⊢
  cases hrestored : target.restored bytes with
  | error e => rfl
  | ok m =>
    rw [hrestored] at h
    cases h

/-- Every damage to the length of a snapshot is told by its own error: a cut within the magic
    number or behind it, bytes behind the end, and delay memory of another length. Bytes
    without the magic number are no snapshot. Whenever bytes are refused, the machine that
    should have been replaced is unchanged. -/
theorem restore_refuses_damaged {m : Machine} (hsize : m.delay.size < UInt64.size)
    (target : Machine) :
    (∀ head : List UInt8, head <+: m.snapshot → head ≠ m.snapshot →
        (head.length < 4 → target.restore head = (.error .badMagic, target)) ∧
          (4 ≤ head.length → ∃ e, target.restore head = (.error (.truncated e), target))) ∧
      (∀ rest : List UInt8, rest ≠ [] →
        target.restore (m.snapshot ++ rest) = (.error (.trailingData rest.length), target)) ∧
      (m.delay.size ≠ target.delay.size →
        target.restore m.snapshot =
          (.error (.delaySizeMismatch target.delay.size m.delay.size), target)) ∧
      (∀ bytes : List UInt8, ¬ magic <+: bytes →
        target.restore bytes = (.error .badMagic, target)) ∧
      ∀ (bytes : List UInt8) (e : SnapshotError), (target.restore bytes).1 = .error e →
        (target.restore bytes).2 = target := by
  refine ⟨?_, ?_, ?_, ?_, fun bytes e => restore_snd_of_error⟩
  · intro head hbegins hne
    obtain ⟨hmagic, htruncated⟩ := restored_prefix hsize target hbegins hne
    refine ⟨fun hshort => restore_of_error (hmagic hshort), fun hlong => ?_⟩
    obtain ⟨e, he⟩ := htruncated hlong
    exact ⟨e, restore_of_error he⟩
  · intro rest hrest
    exact restore_of_error (restored_trailing hsize target hrest)
  · intro hlength
    exact restore_of_error (restored_mismatch hsize hlength)
  · intro bytes hmagic
    exact restore_of_error (restored_of_not_magic target hmagic)

/-- A machine with two delay memory cells refuses the snapshot of one with three, and so it
    does when a byte is missing or one too many. -/
theorem restore_refuses_damaged_powerOn :
    (powerOn 3 true).delay.size < UInt64.size ∧
      (∃ e, (powerOn 2 true).restore (powerOn 3 true).snapshot.dropLast =
        (.error (.truncated e), powerOn 2 true)) ∧
      (powerOn 2 true).restore ((powerOn 3 true).snapshot ++ [0]) =
        (.error (.trailingData 1), powerOn 2 true) ∧
      (powerOn 2 true).restore (powerOn 3 true).snapshot =
        (.error (.delaySizeMismatch 2 3), powerOn 2 true) := by
  have hsize : (powerOn 3 true).delay.size < UInt64.size := by decide
  obtain ⟨hcut, htrailing, hmismatch, -, -⟩ := restore_refuses_damaged hsize (powerOn 2 true)
  have hbegins : (powerOn 3 true).snapshot.dropLast <+: (powerOn 3 true).snapshot :=
    List.dropLast_prefix _
  have hne : (powerOn 3 true).snapshot.dropLast ≠ (powerOn 3 true).snapshot := by decide +kernel
  have hlong : 4 ≤ (powerOn 3 true).snapshot.dropLast.length := by decide +kernel
  exact ⟨hsize, (hcut _ hbegins hne).2 hlong, htrailing [0] (by decide), hmismatch (by decide)⟩

end Machine
end EffectsDsp
