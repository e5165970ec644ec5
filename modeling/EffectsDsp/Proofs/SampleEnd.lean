/-
  EffectsDsp.Proofs.SampleEnd

  The end of a sample is noted once for every sample that is completed, and never otherwise:
  the delay pointer goes down by one cell, the flag of the first pass is taken back and the
  next sample starts with the first instruction. All of this happens in one place, which a
  sample reaches by its last instruction, by a skip past the end or with an empty program, but
  not when an instruction fails or the limit stops it.

  `Elapsed k` says what `k` completed samples change. No instruction changes it, so that a
  call makes it one sample more or none, and calls one after the other add up.
-/

import EffectsDsp.Proofs.Run
import EffectsDsp.Proofs.Tape
import EffectsDsp.Proofs.Trace

namespace EffectsDsp

/-- The answer to a call that completes a sample: to the last step of one, or to a call that
    runs one and does not fail. -/
def Answer.completes : Answer → Bool
  | .progress (.ok .sampleDone) => true
  | .ended result => result.isOk
  | .outputs result => result.isOk
  | _ => false

def Called.completes (c : Called) : Bool :=
  c.answer.completes

namespace Machine

/-- The number of samples that calls complete. -/
def completed (calls : List HostCall) (m : Machine) : Nat :=
  (session calls m).countP Called.completes

/-- The delay pointer stands in a memory whose length is a 64-bit number. -/
structure HasPointer (m : Machine) : Prop where
  ptr_lt : m.delayPtr.toNat < m.delay.size
  size_lt : m.delay.size < UInt64.size

/-- From the first machine to the second `k` samples have ended. -/
structure Elapsed (k : Nat) (m n : Machine) : Prop where
  delaySize : n.delay.size = m.delay.size
  delayPtr : (n.delayPtr.toNat : Int) = ((m.delayPtr.toNat : Int) - k) % m.delay.size
  runFlag : n.runFlag = (m.runFlag && k == 0)

variable {m n o : Machine} {program : Program} {j k : Nat}

/-! ## Samples that have ended -/

theorem HasPointer.emod (hm : m.HasPointer) :
    (m.delayPtr.toNat : Int) % m.delay.size = m.delayPtr.toNat := by
  have hlt := hm.ptr_lt
  exact Int.emod_eq_of_lt (by omega) (by omega)

namespace Elapsed

/-- What neither moves the pointer nor takes the flag back ends no sample. -/
theorem zero (hm : m.HasPointer) (hsize : n.delay.size = m.delay.size)
    (hptr : n.delayPtr = m.delayPtr) (hflag : n.runFlag = m.runFlag) : Elapsed 0 m n where
  delaySize := hsize
  delayPtr := by
    rw [hptr, Int.ofNat_zero, Int.sub_zero, hm.emod]
  runFlag := by
    rw [hflag]
    exact (Bool.and_true _).symm

theorem endSample (hm : m.HasPointer) : Elapsed 1 m m.endSample where
  delaySize := rfl
  delayPtr := by
    have hlt := hm.ptr_lt
    rw [toNat_delayPtr_endSample_of_lt hm.ptr_lt hm.size_lt]
    -- Only below the first cell the pointer goes around.
    by_cases hfirst : m.delayPtr.toNat = 0
    · rw [if_pos hfirst, hfirst]
      have haround : ((0 : Nat) : Int) - (1 : Nat) = (m.delay.size - 1 : Nat) - m.delay.size := by
        omega
      rw [haround, Int.sub_emod_right, Int.emod_eq_of_lt (by omega) (by omega)]
    · rw [if_neg hfirst, Int.emod_eq_of_lt (by omega) (by omega)]
      omega
  runFlag := (Bool.and_false _).symm

theorem trans (h : Elapsed j m n) (h' : Elapsed k n o) : Elapsed (j + k) m o where
  delaySize := h'.delaySize.trans h.delaySize
  delayPtr := by
    have hsum : (m.delayPtr.toNat : Int) - (j + k : Nat) = m.delayPtr.toNat - j - k := by
      omega
    rw [h'.delayPtr, h.delayPtr, h.delaySize, Int.emod_sub_emod, hsum]
  runFlag := by
    have hsum : (j + k == 0) = (j == 0 && k == 0) := by
      rw [Bool.eq_iff_iff]
      simp only [beq_iff_eq, Bool.and_eq_true]
      omega
    rw [h'.runFlag, h.runFlag, hsum, Bool.and_assoc]

theorem hasPointer (h : Elapsed k m n) (hm : m.HasPointer) : n.HasPointer where
  ptr_lt := by
    have hptr := h.delayPtr
    have hlt := hm.ptr_lt
    have hrest := Int.emod_lt_of_pos ((m.delayPtr.toNat : Int) - k)
      (show (0 : Int) < m.delay.size by omega)
    rw [h.delaySize]
    omega
  size_lt := by
    rw [h.delaySize]
    exact hm.size_lt

/-- The pointer is back where it was after as many samples as the memory has cells, after
    multiples of that number, and after no other number of samples. -/
theorem delayPtr_eq_iff (h : Elapsed k m n) (hm : m.HasPointer) :
    n.delayPtr = m.delayPtr ↔ m.delay.size ∣ k := by
  have hback : (m.delayPtr.toNat : Int) - ((m.delayPtr.toNat : Int) - k) = k := by omega
  rw [← UInt64.toNat_inj, ← Int.natCast_inj, h.delayPtr, ← Int.natCast_dvd_natCast,
    Int.dvd_iff_emod_eq_zero, ← hback, ← Int.emod_eq_emod_iff_emod_sub_eq_zero, hm.emod, hback]
  exact eq_comm

end Elapsed

/-! ## Instructions and samples -/

/-- No instruction ends a sample by itself. -/
theorem elapsed_execute (hm : m.HasPointer) (op : Operation) : Elapsed 0 m (m.execute op) := by
  have hframed := framed_outward m op
  apply Elapsed.zero hm
  · rw [delay_execute, hframed.delaySize]
  · rw [execute_eq]
    exact hframed.delayPtr
  · rw [execute_eq]
    exact hframed.runFlag

theorem Running.elapsed (h : Running program k m n) (hm : m.HasPointer) : Elapsed 0 m n := by
  induction h with
  | start m => exact .zero hm rfl rfl rfl
  | @execute k m n op _ _ _ ih =>
    have hfirst := elapsed_execute hm op
    exact hfirst.trans (ih (hfirst.hasPointer hm))

/-- From one machine to the other a sample has ended, or none. One that has ended leaves the
    instruction pointer at the first instruction. -/
structure Ended (done : Bool) (m n : Machine) : Prop where
  elapsed : Elapsed done.toNat m n
  ip : done = true → n.ip = 0

/-- The last step of a sample ends it. -/
theorem ended_of_done (hm : m.HasPointer) (h : m.step program = (.ok .sampleDone, n)) :
    Ended true m n := by
  cases hcurrent : m.current? program with
  | none =>
    rcases step_of_current_none hcurrent with hdone | ⟨e, hfails⟩
    · rw [hdone m rfl] at h
      cases h
      exact ⟨.endSample hm, fun _ => rfl⟩
    · rw [hfails m rfl] at h
      cases h
  | some op =>
    rw [step_of_current hcurrent] at h
    have hexecuted := elapsed_execute hm op
    split at h
    · cases h
    · cases h
      exact ⟨hexecuted.trans (.endSample (hexecuted.hasPointer hm)), fun _ => rfl⟩

theorem Finishes.ended {r : Except Fault Unit × Machine} (h : Finishes program k m r)
    (hm : m.HasPointer) : Ended r.1.isOk m r.2 := by
  rcases h with ⟨hrun, hstep⟩ | ⟨hrun, -⟩
  · have hbefore := hrun.elapsed hm
    have hlast := ended_of_done (hbefore.hasPointer hm) hstep
    exact ⟨hbefore.trans hlast.elapsed, hlast.ip⟩
  · exact ⟨hrun.elapsed hm, fun h => by cases h⟩

/-- A sample ends if it returns, and not if it fails. -/
theorem ended_stepsWithin (hm : m.HasPointer) (limit : Nat) (program : Program) (fuel : Nat) :
    Ended (m.stepsWithin limit program fuel).1.isOk m (m.stepsWithin limit program fuel).2 := by
  rcases stepsWithin_cases limit program fuel m with ⟨k, -, hfinishes⟩ | ⟨n, hrun, hstopped⟩
  · exact hfinishes.ended hm
  · rw [hstopped]
    exact ⟨hrun.elapsed hm, fun h => by cases h⟩

/-! ## Calls -/

theorem ended_step (hm : m.HasPointer) (program : Program) :
    Ended (Answer.progress (m.step program).1).completes m (m.step program).2 := by
  rcases step_cases program m with ⟨op, -, -, hstep⟩ | ⟨n, hstep⟩ | ⟨e, hstep⟩
  · rw [hstep]
    exact ⟨elapsed_execute hm op, fun h => by cases h⟩
  · rw [hstep]
    exact ended_of_done hm hstep
  · rw [hstep]
    exact ⟨.zero hm rfl rfl rfl, fun h => by cases h⟩

/-- What a call does before its first instruction ends no sample. -/
theorem elapsed_opening (hm : m.HasPointer) {call : HostCall}
    (hcall : call ≠ .endSample ∧ call ≠ .reset) : Elapsed 0 m (call.opening m) := by
  cases call with
  | setPot pot value =>
    obtain ⟨regs, heq⟩ := m.setPot_eq pot value
    show Elapsed 0 m (m.setPot pot value)
    rw [heq]
    exact .zero hm rfl rfl rfl
  | endSample => exact absurd rfl hcall.1
  | reset => exact absurd rfl hcall.2
  | _ => exact .zero hm rfl rfl rfl

/-- A call ends a sample if it completes one, whatever it answers otherwise. -/
theorem ended_call (hm : m.HasPointer) {call : HostCall}
    (hcall : call ≠ .endSample ∧ call ≠ .reset) :
    Ended (Called.completes ⟨m, call⟩) m (m.afterCall call) := by
  have hopening := elapsed_opening hm hcall
  have hrun := ended_stepsWithin (hopening.hasPointer hm)
  cases call with
  | step program => exact ended_step hm program
  | runSample limit program =>
    obtain ⟨helapsed, hip⟩ := hrun limit program limit
    have hboth := hopening.trans helapsed
    rw [Nat.zero_add] at hboth
    exact ⟨hboth, hip⟩
  | process limit program left right =>
    obtain ⟨helapsed, hip⟩ := hrun limit program limit
    have hboth := hopening.trans helapsed
    rw [Nat.zero_add] at hboth
    have hcompletes : Called.completes ⟨m, .process limit program left right⟩ =
        ((m.frameStart left right).stepsWithin limit program limit).1.isOk := by
      show (m.process limit program left right).1.isOk = _
      rw [process_fst]
      cases ((m.frameStart left right).stepsWithin limit program limit).1 <;> rfl
    show Ended _ m (m.process limit program left right).2
    rw [hcompletes, process_snd]
    exact ⟨hboth, hip⟩
  | _ => exact ⟨hopening, fun h => by cases h⟩

theorem completed_cons (call : HostCall) (calls : List HostCall) (m : Machine) :
    completed (call :: calls) m =
      (Called.completes ⟨m, call⟩).toNat + completed calls (m.afterCall call) := by
  show (Called.mk m call :: session calls (m.afterCall call)).countP Called.completes = _
  rw [List.countP_cons, Nat.add_comm]
  cases Called.completes ⟨m, call⟩ <;> rfl

/-- The samples that calls complete are those that have ended. -/
theorem elapsed_calls (hm : m.HasPointer) {calls : List HostCall}
    (hcalls : ∀ call ∈ calls, call ≠ .endSample ∧ call ≠ .reset) :
    Elapsed (completed calls m) m (afterCalls calls m) ∧
      ∀ c ∈ session calls m, c.completes = true → c.after.ip = 0 := by
  induction calls generalizing m with
  | nil =>
    refine ⟨.zero hm rfl rfl rfl, ?_⟩
    intro c hc
    cases hc
  | cons call calls ih =>
    have hfirst := ended_call hm (hcalls call List.mem_cons_self)
    obtain ⟨hothers, hips⟩ := ih (hfirst.elapsed.hasPointer hm)
      fun c hc => hcalls c (List.mem_cons_of_mem _ hc)
    constructor
    · rw [completed_cons]
      exact hfirst.elapsed.trans hothers
    · intro c hc hcompletes
      rcases List.mem_cons.mp hc with rfl | hc
      · exact hfirst.ip hcompletes
      · exact hips c hc hcompletes

/-- Every completed sample moves the delay pointer down by one cell, around the memory, ends the
    first pass and leads back to the first instruction, and nothing else does so: no instruction,
    no call that fails, and no step before the last one of a sample. So the pointer is back where
    it was after as many samples as the memory has cells and not before. Lengths are 64-bit
    numbers. -/
theorem samples_end_once (hptr : m.delayPtr.toNat < m.delay.size)
    (hsize : m.delay.size < UInt64.size) :
    (∀ (n : Machine) (op : Operation),
        (n.execute op).delayPtr = n.delayPtr ∧ (n.execute op).runFlag = n.runFlag) ∧
      ∀ calls : List HostCall, (∀ call ∈ calls, call ≠ .endSample ∧ call ≠ .reset) →
        ((afterCalls calls m).delayPtr.toNat : Int) =
            ((m.delayPtr.toNat : Int) - completed calls m) % m.delay.size ∧
          (afterCalls calls m).runFlag = (m.runFlag && completed calls m == 0) ∧
          (∀ c ∈ session calls m, c.completes = true → c.after.ip = 0) ∧
          ((afterCalls calls m).delayPtr = m.delayPtr ↔ m.delay.size ∣ completed calls m) := by
  have hm : m.HasPointer := ⟨hptr, hsize⟩
  constructor
  · intro n op
    have hframed := framed_outward n op
    rw [execute_eq]
    exact ⟨hframed.delayPtr, hframed.runFlag⟩
  · intro calls hcalls
    obtain ⟨helapsed, hips⟩ := elapsed_calls hm hcalls
    exact ⟨helapsed.delayPtr, helapsed.runFlag, hips, helapsed.delayPtr_eq_iff hm⟩

/-- CHO with the sub-command that has no meaning, which no machine executes. -/
def reservedChorus : Operation :=
  ⟨.choReserved, [⟨⟨.subcommand, 2, .unsigned⟩, 1⟩], 0x40000014⟩

/-- Two samples that are completed lead around a memory of two cells, though a third one fails
    in between and a fourth is stopped by its limit. -/
theorem samples_end_once_around :
    ((powerOn 2 true).delayPtr.toNat < (powerOn 2 true).delay.size ∧
        (powerOn 2 true).delay.size < UInt64.size) ∧
      (afterCalls [.runSample 1 #[], .runSample 4 #[reservedChorus], .runSample 0 #[], .step #[]]
        (powerOn 2 true)).delayPtr = (powerOn 2 true).delayPtr := by
  have hptr : (powerOn 2 true).delayPtr.toNat < (powerOn 2 true).delay.size := by decide
  have hsize : (powerOn 2 true).delay.size < UInt64.size := by decide
  have hcalls : ∀ call ∈ [HostCall.runSample 1 #[], .runSample 4 #[reservedChorus],
      .runSample 0 #[], .step #[]], call ≠ .endSample ∧ call ≠ .reset := by
    intro call hcall
    simp only [List.mem_cons, List.not_mem_nil, or_false] at hcall
    rcases hcall with rfl | rfl | rfl | rfl <;> exact ⟨nofun, nofun⟩
  obtain ⟨-, hrun⟩ := samples_end_once hptr hsize
  obtain ⟨-, -, -, hback⟩ := hrun _ hcalls
  exact ⟨⟨hptr, hsize⟩, hback.mpr (by decide)⟩

end Machine
end EffectsDsp
