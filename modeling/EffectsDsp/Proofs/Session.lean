/-
  EffectsDsp.Proofs.Session

  What a host does with a machine over time. `processAll` processes frames one after the
  other, and `executed` lists the instructions that this executes, each with the machine
  that it found. A `HostCall` is one call of any kind, and `Reachable` collects the
  machines that calls and restored snapshots lead to from power-on.

  `Invariant` says what a property has to survive for every call to keep it: the
  instructions one by one and the few things that a host does besides running programs.
-/

import EffectsDsp.Execution.Sample
import EffectsDsp.Machine.Snapshot

namespace EffectsDsp

/-! ## Executed instructions -/

/-- An executed instruction, with the machine that it found. -/
structure Executed where
  before : Machine
  op : Operation

namespace Executed

/-- The machine that the instruction leaves, before any bookkeeping of the sample. -/
def after (e : Executed) : Machine :=
  e.before.execute e.op

/-- The instruction counts a clamp of the accumulator or of a difference. The counters
    wrap at their width, so that one that counts is one that changes. -/
def clamps (e : Executed) : Bool :=
  e.after.diagnostics.accOverflows != e.before.diagnostics.accOverflows ||
    e.after.diagnostics.paccOverflows != e.before.diagnostics.paccOverflows

end Executed

namespace Machine

/-- The instruction that a step executes: the one at the instruction pointer, unless it
    has a fault. -/
def current? (program : Program) (m : Machine) : Option Operation :=
  program[m.ip.toNat]?.filter fun op => (m.fault? op).isNone

theorem mem_of_current {program : Program} {m : Machine} {op : Operation}
    (h : m.current? program = some op) : op ∈ program :=
  Array.mem_of_getElem? (Option.filter_eq_some_iff.mp h).1

/-- The instructions that `stepsWithin` executes. -/
def executedWithin (program : Program) : Nat → Machine → List Executed
  | 0, _ => []
  | fuel + 1, m =>
    match m.current? program with
    | none => []
    | some op =>
      ⟨m, op⟩ ::
        if (m.execute op).ip.toNat < program.size then
          executedWithin program fuel (m.execute op)
        else []

/-- A step executes the current instruction, and ends the sample if that leaves the
    program. -/
theorem step_of_current {program : Program} {m : Machine} {op : Operation}
    (h : m.current? program = some op) :
    m.step program = if (m.execute op).ip.toNat < program.size then (.ok .running, m.execute op)
      else (.ok .sampleDone, (m.execute op).endSample) := by
  obtain ⟨hop, hfault⟩ := Option.filter_eq_some_iff.mp h
  unfold step
  simp only [hop, Option.isNone_iff_eq_none.mp hfault]

/-- Where no instruction is current, the program is empty and the sample done, or the
    step fails and changes nothing. Which of the two depends on the instruction pointer
    only. -/
theorem step_of_current_none {program : Program} {m : Machine} (h : m.current? program = none) :
    (∀ n : Machine, n.ip = m.ip → n.step program = (.ok .sampleDone, n.endSample)) ∨
      ∃ e, ∀ n : Machine, n.ip = m.ip → n.step program = (.error e, n) := by
  unfold current? at h
  cases hop : program[m.ip.toNat]? with
  | none =>
    by_cases hempty : program.isEmpty = true
    · left
      intro n hip
      simp only [step, hip, hop, hempty, if_true]
    · right
      refine ⟨.outsideProgram m.ip, fun n hip => ?_⟩
      simp only [step, hip, hop, hempty, if_false, Bool.false_eq_true]
  | some op =>
    rw [hop] at h
    cases hfault : m.fault? op with
    | none => simp [Option.filter, hfault] at h
    | some e =>
      right
      refine ⟨e, fun n hip => ?_⟩
      have hfault' : n.fault? op = some e := by
        rw [← hfault, fault?, fault?, hip]
      simp only [step, hip, hop, hfault']

/-- A sample that finds no instruction has seen its last step. -/
theorem stepsWithin_of_current_none {program : Program} {m : Machine}
    (h : m.current? program = none) (limit fuel : Nat) :
    (m.stepsWithin limit program (fuel + 1)).2 = (m.step program).2 := by
  unfold stepsWithin
  obtain hdone | ⟨e, hfails⟩ := step_of_current_none h
  · rw [hdone m rfl]
  · rw [hfails m rfl]

/-! ## Frames -/

/-- The machine at the first instruction of a frame. -/
def frameStart (left right : Fixed) (m : Machine) : Machine :=
  { (m.setInputs left right).advanceLfos with ip := 0 }

/-- A frame leaves the machine that its instructions lead to. -/
theorem process_snd (limit : Nat) (program : Program) (left right : Fixed) (m : Machine) :
    (m.process limit program left right).2 =
      ((m.frameStart left right).stepsWithin limit program limit).2 := by
  unfold process runSample frameStart
  split <;> rename_i heq <;> rw [heq]

/-- A frame returns the outputs of that machine, if its instructions come to an end. -/
theorem process_fst (limit : Nat) (program : Program) (left right : Fixed) (m : Machine) :
    (m.process limit program left right).1 =
      ((m.frameStart left right).stepsWithin limit program limit).1.map fun _ =>
        ((m.frameStart left right).stepsWithin limit program limit).2.outputs := by
  unfold process runSample frameStart
  split <;> rename_i heq <;> rw [heq] <;> rfl

/-- Processes the frames one after the other. A frame that fails leaves the machine to
    the next one as it is. -/
def processAll (limit : Nat) (program : Program) :
    List (Fixed × Fixed) → Machine → List (Except Fault (Fixed × Fixed)) × Machine
  | [], m => ([], m)
  | (left, right) :: frames, m =>
    let first := m.process limit program left right
    let others := processAll limit program frames first.2
    (first.1 :: others.1, others.2)

/-- The instructions that `processAll` executes. -/
def executed (limit : Nat) (program : Program) : List (Fixed × Fixed) → Machine → List Executed
  | [], _ => []
  | (left, right) :: frames, m =>
    executedWithin program limit (m.frameStart left right) ++
      executed limit program frames (m.process limit program left right).2

end Machine

/-! ## Host calls -/

/-- The operation is one that some word encodes. -/
def Operation.IsDecoded (op : Operation) : Prop :=
  ∃ word, Operation.decode word = .ok op

/-- All operations of the program are encoded by words. -/
def Program.IsDecoded (program : Program) : Prop :=
  ∀ op ∈ program, op.IsDecoded

theorem Program.isDecoded_singleton {op : Operation} (h : op.IsDecoded) :
    Program.IsDecoded #[op] := by
  intro other hother
  rw [Array.mem_singleton.mp hother]
  exact h

/-- A call of the host that changes the machine. -/
inductive HostCall where
  | step (program : Program)
  | runSample (limit : Nat) (program : Program)
  | process (limit : Nat) (program : Program) (left right : Fixed)
  | setInputs (left right : Fixed)
  | setPot (pot : Nat) (value : Fixed)
  | advanceLfos
  | endSample
  | reset

/-- The programs of the call are decoded ones. -/
def HostCall.IsDecoded : HostCall → Prop
  | .step program | .runSample _ program | .process _ program _ _ => program.IsDecoded
  | _ => True

namespace Machine

/-- The machine after a call, whether the call fails or not. -/
def afterCall (m : Machine) : HostCall → Machine
  | .step program => (m.step program).2
  | .runSample limit program => (m.runSample limit program).2
  | .process limit program left right => (m.process limit program left right).2
  | .setInputs left right => m.setInputs left right
  | .setPot pot value => m.setPot pot value
  | .advanceLfos => m.advanceLfos
  | .endSample => m.endSample
  | .reset => m.reset

/-- The machines that a host can bring about from power-on by calls with decoded programs
    and by restoring snapshots of such machines, as far as `compatible` allows a snapshot
    of the first machine for the second. Lengths are 64-bit numbers. -/
inductive Reachable (compatible : Machine → Machine → Prop) : Machine → Prop
  | start (settings : Settings) (hsize : settings.delaySize < UInt64.size) :
      Reachable compatible (ofSettings settings)
  | call {m : Machine} (call : HostCall) (hcall : call.IsDecoded) :
      Reachable compatible m → Reachable compatible (m.afterCall call)
  | restore {source m : Machine} (hcompatible : compatible source m) :
      Reachable compatible source → Reachable compatible m →
        Reachable compatible (m.restore source.snapshot).2

/-- The one cell that delay memory has at least fits the width of lengths. -/
theorem max_one_lt_size {size : Nat} (hsize : size < UInt64.size) : max size 1 < UInt64.size := by
  have hone : 1 < UInt64.size := by decide
  omega

/-! ## Invariants -/

/-- What keeps a property over every call: decoded instructions keep it, and so does what
    happens between them. -/
structure Invariant (P : Machine → Prop) : Prop where
  execute : ∀ {m : Machine} {op : Operation}, op.IsDecoded → P m → P (m.execute op)
  endSample : ∀ {m : Machine}, P m → P m.endSample
  /-- A sample starts with the first instruction. -/
  rewind : ∀ {m : Machine}, P m → P { m with ip := 0 }
  setInputs : ∀ {m : Machine} (left right : Fixed), P m → P (m.setInputs left right)
  setPot : ∀ {m : Machine} (pot : Nat) (value : Fixed), P m → P (m.setPot pot value)
  advanceLfos : ∀ {m : Machine}, P m → P m.advanceLfos
  reset : ∀ {m : Machine}, P m → P m.reset

namespace Invariant

variable {P : Machine → Prop} {m : Machine}

/-- A step executes a decoded instruction, or none. -/
theorem step (h : Invariant P) (hm : P m) {program : Program} (hprogram : program.IsDecoded) :
    P (m.step program).2 := by
  cases hcurrent : m.current? program with
  | none =>
    obtain hdone | ⟨e, hfails⟩ := step_of_current_none hcurrent
    · rw [hdone m rfl]
      exact h.endSample hm
    · rw [hfails m rfl]
      exact hm
  | some op =>
    have hafter := h.execute (hprogram op (mem_of_current hcurrent)) hm
    rw [step_of_current hcurrent]
    split
    · exact hafter
    · exact h.endSample hafter

theorem stepsWithin (h : Invariant P) (hm : P m) {program : Program}
    (hprogram : program.IsDecoded) (limit fuel : Nat) :
    P (m.stepsWithin limit program fuel).2 := by
  induction fuel generalizing m with
  | zero => exact hm
  | succ fuel ih =>
    have hstep := h.step hm hprogram
    unfold Machine.stepsWithin
    split
    · next heq =>
      rw [heq] at hstep
      exact ih hstep
    · next heq =>
      rw [heq] at hstep
      exact hstep
    · next heq =>
      rw [heq] at hstep
      exact hstep

theorem frameStart (h : Invariant P) (hm : P m) (left right : Fixed) :
    P (m.frameStart left right) :=
  h.rewind (h.advanceLfos (h.setInputs left right hm))

theorem afterCall (h : Invariant P) (hm : P m) {call : HostCall} (hcall : call.IsDecoded) :
    P (m.afterCall call) := by
  cases call with
  | step program => exact h.step hm hcall
  | runSample limit program => exact h.stepsWithin (h.rewind hm) hcall limit limit
  | process limit program left right =>
    show P (m.process limit program left right).2
    rw [process_snd]
    exact h.stepsWithin (h.frameStart hm left right) hcall limit limit
  | setInputs left right => exact h.setInputs left right hm
  | setPot pot value => exact h.setPot pot value hm
  | advanceLfos => exact h.advanceLfos hm
  | endSample => exact h.endSample hm
  | reset => exact h.reset hm

end Invariant

end Machine

/-! ## Calls one after the other -/

/-- What a host gets from a call. -/
inductive Answer where
  | done
  | progress (result : Except Fault Progress)
  | ended (result : Except Fault Unit)
  | outputs (result : Except Fault (Fixed × Fixed))

/-- A call that was made, with the machine that it found. -/
structure Called where
  before : Machine
  call : HostCall

namespace Called

def answer (c : Called) : Answer :=
  match c.call with
  | .step program => .progress (c.before.step program).1
  | .runSample limit program => .ended (c.before.runSample limit program).1
  | .process limit program left right =>
    .outputs (c.before.process limit program left right).1
  | _ => .done

/-- The machine that the call leaves. -/
def after (c : Called) : Machine :=
  c.before.afterCall c.call

/-- The instructions that the call executes. -/
def executed (c : Called) : List Executed :=
  match c.call with
  | .step program => (c.before.current? program).toList.map fun op => ⟨c.before, op⟩
  | .runSample limit program => { c.before with ip := 0 }.executedWithin program limit
  | .process limit program left right =>
    (c.before.frameStart left right).executedWithin program limit
  | _ => []

end Called

namespace Machine

/-- The calls made one after the other. -/
def session : List HostCall → Machine → List Called
  | [], _ => []
  | call :: calls, m => ⟨m, call⟩ :: session calls (m.afterCall call)

/-- The machine after all of the calls. -/
def afterCalls (calls : List HostCall) (m : Machine) : Machine :=
  calls.foldl afterCall m

end Machine
end EffectsDsp
