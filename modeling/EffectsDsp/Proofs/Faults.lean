/-
  EffectsDsp.Proofs.Faults

  Why a step fails, and what it leaves when it does. `Refuses` lists the reasons, which only
  look at the instruction pointer and at the instruction there: no value of a register, of
  delay memory or of an oscillator is one. They are known before anything changes, so a step
  that fails leaves the machine as it is, and a sample that fails leaves what its instructions
  before the failing one did.
-/

import EffectsDsp.Proofs.Run

namespace EffectsDsp

/-! ## Flags that an oscillator lacks -/

/-- The flag is the first one that is set without being provided by the oscillator. A ramp has
    no cosine, and a sine neither the shift nor the crossfade of a ramp. -/
inductive ChorusFlag.FirstMisfit (flags : UInt32) (lfo : LfoSelect) : ChorusFlag → Prop
  | cos (hset : cos.isIn flags = true) (hramp : lfo.isRamp = true) : FirstMisfit flags lfo .cos
  | rptr2 (hset : rptr2.isIn flags = true) (hsine : lfo.isRamp = false) :
      FirstMisfit flags lfo .rptr2
  | na (hset : na.isIn flags = true) (hbefore : rptr2.isIn flags = false)
      (hsine : lfo.isRamp = false) : FirstMisfit flags lfo .na

section misfits

variable {flags : UInt32} {lfo : LfoSelect} {flag : ChorusFlag}

theorem ChorusFlag.misfit?_of_ramp (hramp : lfo.isRamp = true) :
    misfit? flags lfo = if cos.isIn flags then some cos else none := by
  cases hcos : cos.isIn flags <;> simp [misfit?, suits, hramp, hcos]

theorem ChorusFlag.misfit?_of_sine (hsine : lfo.isRamp = false) :
    misfit? flags lfo = if rptr2.isIn flags then some rptr2
      else if na.isIn flags then some na else none := by
  cases hrptr2 : rptr2.isIn flags <;> cases hna : na.isIn flags <;>
    simp [misfit?, suits, hsine, hrptr2, hna]

/-- The search for a flag that does not suit finds the first one. -/
theorem ChorusFlag.misfit?_eq_some_iff :
    misfit? flags lfo = some flag ↔ FirstMisfit flags lfo flag := by
  constructor
  · intro h
    cases hkind : lfo.isRamp with
    | true =>
      rw [misfit?_of_ramp hkind] at h
      split at h
      · next hset =>
        obtain rfl := Option.some.inj h
        exact .cos hset hkind
      · cases h
    | false =>
      rw [misfit?_of_sine hkind] at h
      split at h
      · next hset =>
        obtain rfl := Option.some.inj h
        exact .rptr2 hset hkind
      · next hunset =>
        split at h
        · next hset =>
          obtain rfl := Option.some.inj h
          exact .na hset (Bool.eq_false_iff.mpr hunset) hkind
        · cases h
  · rintro (⟨hset, hramp⟩ | ⟨hset, hsine⟩ | ⟨hset, hbefore, hsine⟩)
    · rw [misfit?_of_ramp hramp, if_pos hset]
    · rw [misfit?_of_sine hsine, if_pos hset]
    · rw [misfit?_of_sine hsine, if_neg (ne_true_of_eq_false hbefore), if_pos hset]

end misfits

namespace Machine

/-! ## Reasons to fail -/

/-- The operation reads an oscillator. -/
def ReadsLfo (op : Operation) : Prop :=
  op.mnemonic = .choRda ∨ op.mnemonic = .choSof ∨ op.mnemonic = .choRdal

/-- Why the machine does not execute a step of the program. -/
inductive Refuses (program : Program) (m : Machine) : Fault → Prop
  | outside (hprogram : program.size ≠ 0) (hip : program.size ≤ m.ip.toNat) :
      Refuses program m (.outsideProgram m.ip)
  | reserved {op : Operation} (hop : program[m.ip.toNat]? = some op)
      (hreserved : op.mnemonic = .choReserved) : Refuses program m (.reserved m.ip)
  | flag {op : Operation} {flag : ChorusFlag} (hop : program[m.ip.toNat]? = some op)
      (hreads : ReadsLfo op) (hflag : ChorusFlag.FirstMisfit (op.bits .flags) (chorusLfo op) flag) :
      Refuses program m (.incompatibleFlag m.ip flag (chorusLfo op))

variable {program : Program} {m n : Machine} {op : Operation} {e : Fault}

theorem fault?_of_readsLfo (h : ReadsLfo op) : m.fault? op =
    (ChorusFlag.misfit? (op.bits .flags) (chorusLfo op)).map
      (.incompatibleFlag m.ip · (chorusLfo op)) := by
  unfold fault?
  obtain h | h | h := h <;> rw [h]

theorem fault?_of_not_readsLfo (hreads : ¬ ReadsLfo op) (hknown : op.mnemonic ≠ .choReserved) :
    m.fault? op = none := by
  unfold fault?
  split
  · next h => exact absurd h hknown
  · next h => exact absurd (.inl h) hreads
  · next h => exact absurd (.inr (.inl h)) hreads
  · next h => exact absurd (.inr (.inr h)) hreads
  · rfl

/-- Where there is an instruction, its fault is the reason. -/
theorem refuses_iff_fault (hop : program[m.ip.toNat]? = some op) :
    Refuses program m e ↔ m.fault? op = some e := by
  have hinside : m.ip.toNat < program.size := (Array.getElem?_eq_some_iff.mp hop).1
  constructor
  · rintro (⟨-, hip⟩ | ⟨hop', hreserved⟩ | ⟨hop', hreads, hflag⟩)
    · omega
    · obtain rfl := Option.some.inj (hop.symm.trans hop')
      unfold fault?
      rw [hreserved]
    · obtain rfl := Option.some.inj (hop.symm.trans hop')
      rw [fault?_of_readsLfo hreads, ChorusFlag.misfit?_eq_some_iff.mpr hflag]
      rfl
  · intro h
    by_cases hreads : ReadsLfo op
    · rw [fault?_of_readsLfo hreads] at h
      obtain ⟨flag, hflag, rfl⟩ := Option.map_eq_some_iff.mp h
      exact .flag hop hreads (ChorusFlag.misfit?_eq_some_iff.mp hflag)
    · by_cases hreserved : op.mnemonic = .choReserved
      · unfold fault? at h
        rw [hreserved] at h
        obtain rfl := Option.some.inj h
        exact .reserved hop hreserved
      · rw [fault?_of_not_readsLfo hreads hreserved] at h
        cases h

/-- Where there is none, only an empty program goes on. -/
theorem refuses_iff_outside (hnone : program[m.ip.toNat]? = none) :
    Refuses program m e ↔ program.size ≠ 0 ∧ e = .outsideProgram m.ip := by
  constructor
  · rintro (⟨hprogram, -⟩ | ⟨hop, -⟩ | ⟨hop, -⟩)
    · exact ⟨hprogram, rfl⟩
    · cases hnone.symm.trans hop
    · cases hnone.symm.trans hop
  · rintro ⟨hprogram, rfl⟩
    exact .outside hprogram (Array.getElem?_eq_none_iff.mp hnone)

/-- A step fails for one of the reasons, and then changes nothing. -/
theorem step_eq_error_iff : m.step program = (.error e, n) ↔ Refuses program m e ∧ n = m := by
  cases hop : program[m.ip.toNat]? with
  | none =>
    rw [refuses_iff_outside hop]
    by_cases hempty : program.isEmpty = true
    · simp only [step, hop, hempty, if_true]
      constructor
      · rintro ⟨⟩
      · rintro ⟨⟨hsome, -⟩, -⟩
        exact absurd (Array.isEmpty_iff_size_eq_zero.mp hempty) hsome
    · simp only [step, hop, if_neg hempty]
      constructor
      · rintro ⟨⟩
        exact ⟨⟨mt Array.isEmpty_iff_size_eq_zero.mpr hempty, rfl⟩, rfl⟩
      · rintro ⟨⟨-, rfl⟩, rfl⟩
        rfl
  | some op =>
    rw [refuses_iff_fault hop]
    cases hfault : m.fault? op with
    | some e' =>
      simp only [step, hop, hfault]
      constructor
      · rintro ⟨⟩
        exact ⟨rfl, rfl⟩
      · rintro ⟨⟨⟩, rfl⟩
        rfl
    | none =>
      simp only [step, hop, hfault]
      constructor
      · intro h
        split at h <;> cases h
      · rintro ⟨⟨⟩, -⟩

theorem step_succeeds (h : ∀ e, ¬ Refuses program m e) : ∃ p n, m.step program = (.ok p, n) := by
  rcases hstep : m.step program with ⟨e | p, n⟩
  · exact absurd (step_eq_error_iff.mp hstep).1 (h e)
  · exact ⟨p, n, rfl⟩

/-! ## Samples that fail -/

/-- A run finishes with a fault at the instruction that is refused. -/
theorem finishes_error_iff {k : Nat} :
    Finishes program k m (.error e, n) ↔ Running program k m n ∧ Refuses program n e := by
  constructor
  · rintro (_ | ⟨hrun, hstep⟩)
    exact ⟨hrun, (step_eq_error_iff.mp hstep).1⟩
  · rintro ⟨hrun, hrefuses⟩
    exact .failed hrun (step_eq_error_iff.mpr ⟨hrefuses, rfl⟩)

/-- A sample fails at an instruction that is refused, or where the limit stops it. -/
theorem runSample_eq_error_iff {limit : Nat} :
    m.runSample limit program = (.error e, n) ↔
      (∃ k < limit, Running program k { m with ip := 0 } n ∧ Refuses program n e) ∨
        (Running program limit { m with ip := 0 } n ∧ e = .instructionLimit limit) := by
  unfold runSample
  rw [stepsWithin_eq_iff]
  simp only [finishes_error_iff]
  refine or_congr Iff.rfl ⟨?_, ?_⟩
  · rintro ⟨n', hrun, ⟨⟩⟩
    exact ⟨hrun, rfl⟩
  · rintro ⟨hrun, rfl⟩
    exact ⟨n, hrun, rfl⟩

/-- Whatever an address is computed to, it denotes a word of the delay memory. -/
theorem delayIndex_lt (h : 0 < m.delay.size) (offset : Int32) :
    m.delayIndex offset < m.delay.size :=
  Nat.mod_lt _ h

/-- A step fails exactly for the reasons that `Refuses` lists, and leaves the machine as it is;
    without one it succeeds, and no access to delay memory leads outside of it. A sample that
    fails leaves the machine as the instructions before the failing one did, or as the limit's
    number of instructions did. -/
theorem step_fails_iff (program : Program) (m : Machine) :
    (∀ e n, m.step program = (.error e, n) ↔ Refuses program m e ∧ n = m) ∧
      ((∀ e, ¬ Refuses program m e) → ∃ p n, m.step program = (.ok p, n)) ∧
      (0 < m.delay.size → ∀ offset, m.delayIndex offset < m.delay.size) ∧
      ∀ limit e n, m.runSample limit program = (.error e, n) ↔
        (∃ k < limit, Running program k { m with ip := 0 } n ∧ Refuses program n e) ∨
          (Running program limit { m with ip := 0 } n ∧ e = .instructionLimit limit) :=
  ⟨fun _ _ => step_eq_error_iff, step_succeeds, delayIndex_lt, fun _ _ _ => runSample_eq_error_iff⟩

end Machine
end EffectsDsp
