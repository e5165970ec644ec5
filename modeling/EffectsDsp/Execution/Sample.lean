/-
  EffectsDsp.Execution.Sample

  Running programs. A sample executes the program from its first instruction until
  the instruction pointer leaves it. A fault stops the sample and leaves the machine
  as the instructions before it did.
-/

import EffectsDsp.Execution.Step

namespace EffectsDsp

/-- Whether the sample goes on after a step. -/
inductive Progress where
  | running
  /-- The program was left, and the bookkeeping of the sample is done. -/
  | sampleDone
  deriving DecidableEq, Repr

namespace Machine

/-- Executes the instruction at the instruction pointer. -/
def step (program : Program) (m : Machine) : Except Fault Progress × Machine :=
  match program[m.ip.toNat]? with
  | some op =>
    match m.fault? op with
    | some e => (.error e, m)
    | none =>
      let m := m.execute op
      if m.ip.toNat < program.size then (.ok .running, m)
      else (.ok .sampleDone, m.endSample)
  | none =>
    if program.isEmpty then (.ok .sampleDone, m.endSample)
    else (.error (.outsideProgram m.ip), m)

/-- Executes up to `fuel` instructions until the sample is done; `limit` is the number
    that the fault names when they do not suffice. -/
def stepsWithin (limit : Nat) (program : Program) : Nat → Machine → Except Fault Unit × Machine
  | 0, m => (.error (.instructionLimit limit), m)
  | fuel + 1, m =>
    match m.step program with
    | (.ok .running, m') => stepsWithin limit program fuel m'
    | (.ok .sampleDone, m') => (.ok (), m')
    | (.error e, m') => (.error e, m')

/-- Runs the program once from its first instruction, with at most `limit`
    instructions. -/
def runSample (limit : Nat) (program : Program) (m : Machine) : Except Fault Unit × Machine :=
  stepsWithin limit program limit { m with ip := 0 }

/-- Processes one frame: sets the inputs, moves the oscillators, runs the program and
    returns the outputs. -/
def process (limit : Nat) (program : Program) (left right : Fixed) (m : Machine) :
    Except Fault (Fixed × Fixed) × Machine :=
  match ((m.setInputs left right).advanceLfos).runSample limit program with
  | (.ok (), m') => (.ok m'.outputs, m')
  | (.error e, m') => (.error e, m')

end Machine
end EffectsDsp
