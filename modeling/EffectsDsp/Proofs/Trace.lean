/-
  EffectsDsp.Proofs.Trace

  From one instruction to all that a host calls. A `TraceLaw` relates a machine, the
  instructions that are executed from it on, and the machine that they lead to. It holds of
  every instruction that it admits and of the end of a sample, and it composes. Then it holds
  of a step, of a sample in whichever way this ends, and of calls one after the other, where
  all that is left to show is what a call does before its first instruction: its `opening`.
-/

import EffectsDsp.Proofs.Session

namespace EffectsDsp

/-! ## Calls -/

namespace HostCall

/-- The program that the call runs, which is empty if it runs none. -/
def program : HostCall → Program
  | .step program | .runSample _ program | .process _ program _ _ => program
  | _ => #[]

/-- What the call does before its first instruction; all that it does, if it runs none. -/
def opening : HostCall → Machine → Machine
  | .step _, m => m
  | .runSample _ _, m => { m with ip := 0 }
  | .process _ _ left right, m => m.frameStart left right
  | call, m => m.afterCall call

theorem isDecoded_of_mem_program {call : HostCall} (h : call.IsDecoded) {op : Operation}
    (hop : op ∈ call.program) : op.IsDecoded := by
  cases call with
  | step program => exact h op hop
  | runSample limit program => exact h op hop
  | process limit program left right => exact h op hop
  | _ => cases Array.not_mem_empty op hop

end HostCall

namespace Machine

/-- A potentiometer changes at most its register. -/
theorem setPot_eq (m : Machine) (pot : Nat) (value : Fixed) :
    ∃ regs, m.setPot pot value = { m with regs } := by
  unfold setPot
  split
  · exact ⟨_, rfl⟩
  · exact ⟨m.regs, rfl⟩

/-- Nothing is counted before the first instruction of a call, and only a reset starts the
    counts again. -/
theorem diagnostics_opening (m : Machine) {call : HostCall} (hcall : call ≠ .reset) :
    (call.opening m).diagnostics = m.diagnostics := by
  cases call with
  | setPot pot value =>
    obtain ⟨regs, heq⟩ := m.setPot_eq pot value
    show (m.setPot pot value).diagnostics = _
    rw [heq]
  | reset => exact absurd rfl hcall
  | _ => rfl

/-- The instructions that calls execute, one after the other. -/
def executedIn (calls : List HostCall) (m : Machine) : List Executed :=
  (session calls m).flatMap Called.executed

/-! ## Laws of runs -/

/-- A relation between a machine, instructions that are executed from it on and the machine
    that they lead to. It holds of what it admits, one by one, and composes. -/
structure TraceLaw (admits : Operation → Prop) (R : Machine → List Executed → Machine → Prop) :
    Prop where
  refl : ∀ m, R m [] m
  trans : ∀ {m n k : Machine} {first second : List Executed}, R m first n → R n second k →
    R m (first ++ second) k
  execute : ∀ (m : Machine) {op : Operation}, admits op → R m [⟨m, op⟩] (m.execute op)
  endSample : ∀ m : Machine, R m [] m.endSample

namespace TraceLaw

variable {admits : Operation → Prop} {R : Machine → List Executed → Machine → Prop}
  {program : Program}

/-- A step that finds no instruction ends the sample, or fails and changes nothing. -/
theorem step_of_none (h : TraceLaw admits R) {m : Machine} (hcurrent : m.current? program = none) :
    R m [] (m.step program).2 := by
  rcases step_of_current_none hcurrent with hdone | ⟨e, hfails⟩
  · rw [hdone m rfl]
    exact h.endSample m
  · rw [hfails m rfl]
    exact h.refl m

/-- A step executes the current instruction, if there is one. -/
theorem step (h : TraceLaw admits R) (hprogram : ∀ op ∈ program, admits op) (m : Machine) :
    R m ((m.current? program).toList.map fun op => ⟨m, op⟩) (m.step program).2 := by
  cases hcurrent : m.current? program with
  | none => exact h.step_of_none hcurrent
  | some op =>
    have hexecuted := h.execute m (hprogram op (mem_of_current hcurrent))
    rw [step_of_current hcurrent]
    split
    · exact hexecuted
    · exact h.trans hexecuted (h.endSample _)

/-- However a sample ends, its instructions lead to the machine that it leaves. -/
theorem stepsWithin (h : TraceLaw admits R) (hprogram : ∀ op ∈ program, admits op)
    (limit fuel : Nat) (m : Machine) :
    R m (m.executedWithin program fuel) (m.stepsWithin limit program fuel).2 := by
  induction fuel generalizing m with
  | zero => exact h.refl m
  | succ fuel ih =>
    unfold executedWithin
    cases hcurrent : m.current? program with
    | none =>
      rw [stepsWithin_of_current_none hcurrent limit fuel]
      exact h.step_of_none hcurrent
    | some op =>
      have hexecuted := h.execute m (hprogram op (mem_of_current hcurrent))
      unfold Machine.stepsWithin
      rw [step_of_current hcurrent]
      by_cases hrunning : (m.execute op).ip.toNat < program.size
      · simp only [if_pos hrunning]
        exact h.trans hexecuted (ih (m.execute op))
      · simp only [if_neg hrunning]
        exact h.trans hexecuted (h.endSample _)

/-- A call that opens in agreement with the law goes on so. -/
theorem call (h : TraceLaw admits R) {call : HostCall} (hprogram : ∀ op ∈ call.program, admits op)
    {m : Machine} (hopening : R m [] (call.opening m)) :
    R m (Called.executed ⟨m, call⟩) (m.afterCall call) := by
  cases call with
  | step program => exact h.step hprogram m
  | runSample limit program => exact h.trans hopening (h.stepsWithin hprogram limit limit _)
  | process limit program left right =>
    show R m _ (m.process limit program left right).2
    rw [process_snd]
    exact h.trans hopening (h.stepsWithin hprogram limit limit _)
  | _ => exact hopening

theorem calls (h : TraceLaw admits R) {calls : List HostCall}
    (hprogram : ∀ call ∈ calls, ∀ op ∈ call.program, admits op)
    (hopening : ∀ call ∈ calls, ∀ n, R n [] (call.opening n)) (m : Machine) :
    R m (executedIn calls m) (afterCalls calls m) := by
  induction calls generalizing m with
  | nil => exact h.refl m
  | cons call calls ih =>
    have hfirst := h.call (hprogram call List.mem_cons_self) (hopening call List.mem_cons_self m)
    have hothers := ih (fun c hc => hprogram c (List.mem_cons_of_mem _ hc))
      (fun c hc => hopening c (List.mem_cons_of_mem _ hc)) (m.afterCall call)
    exact h.trans hfirst hothers

end TraceLaw

end Machine
end EffectsDsp
