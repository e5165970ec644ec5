/-
  EffectsDsp.Proofs.Run

  A sample as a run of instructions. `Running` is a run that has not come to its end: so many
  instructions were executed, one after the other and without anything between them, and the
  last one did not leave the program. `Finishes` is such a run and the step behind it, which
  ends the sample or fails.

  A run is determined by where it starts (`Finishes.unique`), so it does not matter at which
  instruction a host takes over from a sample that was stopped (`Running.finishes_iff`). What
  `stepsWithin` returns is one of the two: how the run finishes before the fuel is used up, or
  where it stands when it is (`stepsWithin_eq_iff`).
-/

import EffectsDsp.Proofs.Session

namespace EffectsDsp
namespace Machine

/-! ## Runs -/

/-- The program executes `k` instructions from the first machine on, each inside of it, and
    leaves the second one at its next instruction. -/
inductive Running (program : Program) : Nat → Machine → Machine → Prop
  | start (m : Machine) : Running program 0 m m
  | execute {k : Nat} {m n : Machine} {op : Operation} (hop : m.current? program = some op)
      (hinside : (m.execute op).ip.toNat < program.size)
      (hrest : Running program k (m.execute op) n) : Running program (k + 1) m n

/-- After `k` instructions that stay inside the program, one more step ends the sample or
    fails, with this result. -/
inductive Finishes (program : Program) (k : Nat) (m : Machine) :
    Except Fault Unit × Machine → Prop
  | done {n n' : Machine} (hrun : Running program k m n)
      (hstep : n.step program = (.ok .sampleDone, n')) : Finishes program k m (.ok (), n')
  | failed {n : Machine} {e : Fault} (hrun : Running program k m n)
      (hstep : n.step program = (.error e, n)) : Finishes program k m (.error e, n)

variable {program : Program} {m n n' : Machine} {j k : Nat} {op : Operation}
  {r r' : Except Fault Unit × Machine}

/-- The three ways in which a step can go. -/
theorem step_cases (program : Program) (m : Machine) :
    (∃ op, m.current? program = some op ∧ (m.execute op).ip.toNat < program.size ∧
        m.step program = (.ok .running, m.execute op)) ∨
      (∃ n, m.step program = (.ok .sampleDone, n)) ∨ ∃ e, m.step program = (.error e, m) := by
  cases hcurrent : m.current? program with
  | none =>
    obtain hdone | ⟨e, hfails⟩ := step_of_current_none hcurrent
    · exact .inr (.inl ⟨_, hdone m rfl⟩)
    · exact .inr (.inr ⟨e, hfails m rfl⟩)
  | some op =>
    have hstep := step_of_current hcurrent
    split at hstep
    · next hinside => exact .inl ⟨op, rfl, hinside, hstep⟩
    · exact .inr (.inl ⟨_, hstep⟩)

theorem step_of_inside (hop : m.current? program = some op)
    (hinside : (m.execute op).ip.toNat < program.size) :
    m.step program = (.ok .running, m.execute op) := by
  rw [step_of_current hop, if_pos hinside]

/-- A run that has not begun is where it starts. -/
theorem running_zero : Running program 0 m n ↔ n = m := by
  constructor
  · rintro ⟨⟩
    rfl
  · rintro rfl
    exact .start n

/-- A run goes on from where its first instruction leads. -/
theorem running_succ (hop : m.current? program = some op)
    (hinside : (m.execute op).ip.toNat < program.size) :
    Running program (k + 1) m n ↔ Running program k (m.execute op) n := by
  constructor
  · rintro (_ | ⟨hop', -, hrest⟩)
    obtain rfl := Option.some.inj (hop.symm.trans hop')
    exact hrest
  · exact .execute hop hinside

/-- A run does not go beyond a step that is its last. -/
theorem not_running_succ (h : ∀ n', m.step program ≠ (.ok .running, n')) :
    ¬ Running program (k + 1) m n := by
  rintro (_ | ⟨hop, hinside, -⟩)
  exact h _ (step_of_inside hop hinside)

theorem Running.trans (h : Running program k m n) (h' : Running program j n n') :
    Running program (k + j) m n' := by
  induction h with
  | start => rwa [Nat.zero_add]
  | execute hop hinside _ ih =>
    rw [Nat.succ_add]
    exact .execute hop hinside (ih h')

/-- After so many instructions a run is in one place. -/
theorem Running.unique (h : Running program k m n) (h' : Running program k m n') : n = n' := by
  induction h with
  | start => exact (running_zero.mp h').symm
  | execute hop hinside _ ih => exact ih ((running_succ hop hinside).mp h')

/-! ## How runs finish -/

theorem finishes_zero : Finishes program 0 m r ↔
    (∃ n, m.step program = (.ok .sampleDone, n) ∧ r = (.ok (), n)) ∨
      ∃ e, m.step program = (.error e, m) ∧ r = (.error e, m) := by
  constructor
  · rintro (⟨hrun, hstep⟩ | ⟨hrun, hstep⟩)
    · obtain rfl := running_zero.mp hrun
      exact .inl ⟨_, hstep, rfl⟩
    · obtain rfl := running_zero.mp hrun
      exact .inr ⟨_, hstep, rfl⟩
  · rintro (⟨n, hstep, rfl⟩ | ⟨e, hstep, rfl⟩)
    · exact .done (.start m) hstep
    · exact .failed (.start m) hstep

theorem Finishes.eq_zero (hr : Finishes program k m r)
    (h : ∀ n, m.step program ≠ (.ok .running, n)) : k = 0 := by
  cases k with
  | zero => rfl
  | succ k =>
    obtain ⟨hrun, -⟩ | ⟨hrun, -⟩ := hr
    · exact absurd hrun (not_running_succ h)
    · exact absurd hrun (not_running_succ h)

theorem Finishes.eq_of_done (hr : Finishes program k m r)
    (h : m.step program = (.ok .sampleDone, n)) : r = (.ok (), n) := by
  obtain rfl := hr.eq_zero fun n' hrunning => by cases h.symm.trans hrunning
  obtain ⟨n', hstep, rfl⟩ | ⟨e, hstep, rfl⟩ := finishes_zero.mp hr
  · rw [(Prod.mk.inj (hstep.symm.trans h)).2]
  · cases hstep.symm.trans h

theorem Finishes.eq_of_error {e : Fault} (hr : Finishes program k m r)
    (h : m.step program = (.error e, m)) : r = (.error e, m) := by
  obtain rfl := hr.eq_zero fun n' hrunning => by cases h.symm.trans hrunning
  obtain ⟨n', hstep, rfl⟩ | ⟨e', hstep, rfl⟩ := finishes_zero.mp hr
  · cases hstep.symm.trans h
  · cases hstep.symm.trans h
    rfl

/-- How a run finishes does not change while it goes on. -/
theorem Running.finishes_iff (h : Running program k m n) :
    Finishes program (k + j) m r ↔ Finishes program j n r := by
  constructor
  · intro hr
    induction h with
    | start => rwa [Nat.zero_add] at hr
    | execute hop hinside _ ih =>
      rw [Nat.succ_add] at hr
      obtain ⟨hrun, hlast⟩ | ⟨hrun, hlast⟩ := hr
      · exact ih (.done ((running_succ hop hinside).mp hrun) hlast)
      · exact ih (.failed ((running_succ hop hinside).mp hrun) hlast)
  · rintro (⟨hrun, hlast⟩ | ⟨hrun, hlast⟩)
    · exact .done (h.trans hrun) hlast
    · exact .failed (h.trans hrun) hlast

/-- A run is not past its end. -/
theorem Running.le_of_finishes (h : Running program k m n) (hr : Finishes program j m r) :
    k ≤ j := by
  induction h generalizing j with
  | start => exact Nat.zero_le j
  | execute hop hinside _ ih =>
    have hstep := step_of_inside hop hinside
    cases j with
    | zero =>
      -- The first step is neither the last nor a failure.
      obtain ⟨n', hlast, -⟩ | ⟨e, hlast, -⟩ := finishes_zero.mp hr
      · cases hstep.symm.trans hlast
      · cases hstep.symm.trans hlast
    | succ j =>
      rw [Nat.add_comm j 1, (Running.execute hop hinside (.start _)).finishes_iff] at hr
      exact Nat.succ_le_succ (ih hr)

/-- A run finishes in one way only. -/
theorem Finishes.unique (h : Finishes program j m r) (h' : Finishes program k m r') : r = r' := by
  obtain ⟨hrun, hlast⟩ | ⟨hrun, hlast⟩ := h
  -- The second run comes through the last machine of the first, and there the step decides.
  · obtain ⟨i, rfl⟩ := Nat.le.dest (hrun.le_of_finishes h')
    exact ((hrun.finishes_iff.mp h').eq_of_done hlast).symm
  · obtain ⟨i, rfl⟩ := Nat.le.dest (hrun.le_of_finishes h')
    exact ((hrun.finishes_iff.mp h').eq_of_error hlast).symm

/-! ## Fuel -/

/-- The run finishes before the fuel is used up, or it goes on when it is. -/
theorem stepsWithin_cases (limit : Nat) (program : Program) (fuel : Nat) (m : Machine) :
    (∃ k < fuel, Finishes program k m (m.stepsWithin limit program fuel)) ∨
      ∃ n, Running program fuel m n ∧
        m.stepsWithin limit program fuel = (.error (.instructionLimit limit), n) := by
  induction fuel generalizing m with
  | zero => exact .inr ⟨m, .start m, rfl⟩
  | succ fuel ih =>
    obtain ⟨op, hop, hinside, hstep⟩ | ⟨n, hstep⟩ | ⟨e, hstep⟩ := step_cases program m
    · -- One unit of fuel is spent on one instruction of the run.
      have hfirst : Running program 1 m (m.execute op) := .execute hop hinside (.start _)
      have hrest : m.stepsWithin limit program (fuel + 1) =
          (m.execute op).stepsWithin limit program fuel := by
        simp only [stepsWithin, hstep]
      rw [hrest]
      obtain ⟨k, hk, hfinishes⟩ | ⟨n, hrun, hn⟩ := ih (m.execute op)
      · exact .inl ⟨1 + k, by omega, hfirst.finishes_iff.mpr hfinishes⟩
      · exact .inr ⟨n, .execute hop hinside hrun, hn⟩
    · refine .inl ⟨0, Nat.succ_pos fuel, ?_⟩
      simp only [stepsWithin, hstep]
      exact .done (.start m) hstep
    · refine .inl ⟨0, Nat.succ_pos fuel, ?_⟩
      simp only [stepsWithin, hstep]
      exact .failed (.start m) hstep

theorem stepsWithin_eq_iff {limit fuel : Nat} :
    m.stepsWithin limit program fuel = r ↔
      (∃ k < fuel, Finishes program k m r) ∨
        ∃ n, Running program fuel m n ∧ r = (.error (.instructionLimit limit), n) := by
  constructor
  · rintro rfl
    exact stepsWithin_cases limit program fuel m
  · intro h
    obtain ⟨k, hk, hfinishes⟩ | ⟨n, hrun, hlimit⟩ := stepsWithin_cases limit program fuel m
    · obtain ⟨j, -, hr⟩ | ⟨n, hrun, -⟩ := h
      · exact hfinishes.unique hr
      · exact absurd (hrun.le_of_finishes hfinishes) (by omega)
    · obtain ⟨j, hj, hr⟩ | ⟨n', hrun', rfl⟩ := h
      · exact absurd (hrun.le_of_finishes hr) (by omega)
      · rw [hlimit, hrun.unique hrun']

end Machine
end EffectsDsp
