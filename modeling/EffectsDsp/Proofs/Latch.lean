/-
  EffectsDsp.Proofs.Latch

  The flag REG of a CHO instruction asks for the position that an oscillator had when it last
  moved, instead of the one that it has. There is no difference: an oscillator moves by its
  advance, which latches the position, and a ramp that starts again latches its start, so that
  the latched position is the live one in every machine that a host can bring about.

  Then the flag may as well be absent. `Operation.withoutReg` takes it out of an instruction,
  and `HostCall.withoutReg` out of the programs that a host runs. What is executed, and what
  comes of it, stays the same.
-/

import EffectsDsp.Proofs.Encoding
import EffectsDsp.Proofs.Motion

namespace EffectsDsp

/-! ## Latched positions -/

/-- The latched position of every oscillator is the live one. -/
structure LfoBank.Latched (bank : LfoBank) : Prop where
  sine : ∀ lfo, (bank.sineOf lfo).latched = (bank.sineOf lfo).angle
  ramp : ∀ lfo, (bank.rampOf lfo).latched = (bank.rampOf lfo).counter

namespace LfoBank.Latched

variable {bank bank' : LfoBank}

theorem initial : LfoBank.initial.Latched := by
  constructor <;> intro lfo <;> cases lfo <;> rfl

theorem advance (bank : LfoBank) : bank.advance.Latched := by
  constructor <;> intro lfo
  · rw [sineOf_advance]
    rfl
  · rw [rampOf_advance]
    rfl

theorem tuned (h : bank.Latched) (htuned : bank.Tuned bank') : bank'.Latched where
  sine lfo := by
    rw [(htuned.sine lfo).latched, (htuned.sine lfo).angle]
    exact h.sine lfo
  ramp lfo := by
    rw [(htuned.ramp lfo).latched, (htuned.ramp lfo).counter]
    exact h.ramp lfo

theorem restart (h : bank.Latched) (lfo : LfoSelect) :
    (bank.setRamp lfo.unit (bank.rampOf lfo).restart).Latched where
  sine other := h.sine other
  ramp other := by
    rw [rampOf_setRamp]
    split
    · rfl
    · exact h.ramp other

end LfoBank.Latched

namespace Machine

variable {m : Machine}

theorem latched_execute (h : m.lfos.Latched) (op : Operation) : (m.execute op).lfos.Latched := by
  by_cases hop : op.mnemonic = .jam
  · rw [lfos_execute_jam m hop]
    exact h.restart _
  · exact h.tuned (tuned_execute m hop)

/-- Whatever is executed keeps the positions latched. -/
theorem latched_traceLaw :
    TraceLaw (fun _ => True) fun m _ n => m.lfos.Latched → n.lfos.Latched where
  refl _ h := h
  trans h h' hm := h' (h hm)
  execute _ op _ hm := latched_execute hm op
  endSample _ h := h

theorem latched_opening (h : m.lfos.Latched) (call : HostCall) :
    (call.opening m).lfos.Latched := by
  cases call with
  | process limit program left right => exact .advance m.lfos
  | setPot pot value =>
    obtain ⟨regs, heq⟩ := m.setPot_eq pot value
    show (m.setPot pot value).lfos.Latched
    rw [heq]
    exact h
  | advanceLfos => exact .advance m.lfos
  | reset => exact .initial
  | _ => exact h

theorem latched_afterCall (h : m.lfos.Latched) (call : HostCall) :
    (m.afterCall call).lfos.Latched :=
  latched_traceLaw.call (fun _ _ => trivial) (fun h => latched_opening h call) h

/-- The positions are latched in every machine that a host can bring about. -/
theorem Attainable.latched (h : Attainable m) : m.lfos.Latched := by
  induction h with
  | start settings hsize => exact .initial
  | reset m hsize => exact .initial
  | call call hcall _ ih => exact latched_afterCall ih call
  | @restore source m hsource _ ihSource ih =>
    have hsize := hsource.mirroring.delaySize
    by_cases hlength : source.delay.size = m.delay.size
    · rw [restore_snapshot_eq hlength hsize]
      exact ihSource
    · rw [restore_of_error (restored_mismatch hsize hlength)]
      exact ih

end Machine

/-! ## Words and instructions without the flag -/

namespace Mnemonic

/-- The instructions that can have the flag REG. -/
def isChorus : Mnemonic → Bool
  | choRda | choSof | choRdal | choReserved => true
  | _ => false

theorem opcode_of_isChorus {m : Mnemonic} (h : m.isChorus = true) : m.opcode = 0x14 := by
  cases m with
  | choRda | choSof | choRdal | choReserved => rfl
  | _ => cases h

end Mnemonic

/-- Flags without REG. -/
def ChorusFlag.clearReg (flags : UInt32) : UInt32 :=
  flags &&& ~~~ChorusFlag.reg.bit

def Operand.withoutReg (a : Operand) : Operand :=
  if a.role = .flags then { a with bits := ChorusFlag.clearReg a.bits } else a

namespace Operation

/-- The bits of a word but for the flag REG of a CHO instruction. -/
def regMask : UInt32 := 0xfdffffff

/-- The word without the flag REG, if it is the word of a CHO instruction. -/
def wordWithoutReg (word : UInt32) : UInt32 :=
  if word &&& 0x1f = 0x14 then word &&& regMask else word

/-- The operation without the flag REG, if it is one that can have it. -/
def withoutReg (op : Operation) : Operation :=
  if op.mnemonic.isChorus then
    { op with operands := op.operands.map Operand.withoutReg, word := op.word &&& regMask }
  else op

theorem withoutReg_of_not_isChorus {op : Operation} (h : op.mnemonic.isChorus = false) :
    op.withoutReg = op := by
  rw [withoutReg, h, if_neg Bool.false_ne_true]

@[simp] theorem mnemonic_withoutReg (op : Operation) :
    op.withoutReg.mnemonic = op.mnemonic := by
  unfold withoutReg
  split <;> rfl

end Operation

/-- The flag is bit 1 of its operand, which is the field from bit 24 of a word on. -/
theorem Operand.cut?_regMask (bits : UInt32) :
    cut? Mnemonic.choRda.fields (bits &&& (Operation.regMask >>> 5)) =
      (cut? Mnemonic.choRda.fields bits).map (List.map withoutReg) := by
  have haddress : Operation.regMask >>> 5 &&& lowMask 16 = lowMask 16 := by decide
  have hlfo : Operation.regMask >>> 5 >>> 16 &&& lowMask 2 = lowMask 2 := by decide
  have hflags : Operation.regMask >>> 5 >>> 16 >>> 2 >>> 1 &&& lowMask 6 =
      lowMask 6 &&& ~~~ChorusFlag.reg.bit := by decide
  have hsubcommand : Operation.regMask >>> 5 >>> 16 >>> 2 >>> 1 >>> 6 &&& lowMask 2 =
      lowMask 2 := by decide
  simp [cut?, Mnemonic.fields, Field.accept?, withoutReg, Field.unused, UInt32.shiftRight_and,
    UInt32.and_assoc, ChorusFlag.clearReg, haddress, hlfo, hflags, hsubcommand]

namespace Operation

variable {op : Operation} {role : Role}

theorem operand?_withoutReg (h : op.mnemonic.isChorus = true) (role : Role) :
    op.withoutReg.operand? role = (op.operand? role).map Operand.withoutReg := by
  have hrole : ((·.role == role) ∘ Operand.withoutReg) = fun a : Operand => a.role == role := by
    funext a
    show (a.withoutReg.role == role) = _
    unfold Operand.withoutReg
    split <;> rfl
  rw [withoutReg, if_pos h]
  unfold operand?
  rw [List.find?_map, hrole]

/-- The flag is taken out of the flags. -/
theorem bits_flags_withoutReg (h : op.mnemonic.isChorus = true) :
    op.withoutReg.bits .flags = ChorusFlag.clearReg (op.bits .flags) := by
  unfold bits
  rw [operand?_withoutReg h]
  cases hfind : op.operand? .flags with
  | none => rfl
  | some a =>
    show a.withoutReg.bits = _
    rw [Operand.withoutReg, if_pos (role_of_operand? hfind)]

/-- All other operands stay. -/
theorem bits_withoutReg (op : Operation) (hrole : role ≠ .flags) :
    op.withoutReg.bits role = op.bits role := by
  cases h : op.mnemonic.isChorus with
  | false => rw [withoutReg_of_not_isChorus h]
  | true =>
    unfold bits
    rw [operand?_withoutReg h]
    cases hfind : op.operand? role with
    | none => rfl
    | some a =>
      have hother : a.role ≠ .flags := by
        rw [role_of_operand? hfind]
        exact hrole
      show a.withoutReg.bits = _
      rw [Operand.withoutReg, if_neg hother]

/-- The sub-command of CHO does not depend on the flag. -/
theorem resolved_withoutReg (op : Operation) : op.withoutReg.resolved = op.resolved := by
  cases h : op.mnemonic.isChorus with
  | false => rw [withoutReg_of_not_isChorus h]
  | true =>
    unfold resolved
    rw [mnemonic_withoutReg, bits_withoutReg op (show Role.subcommand ≠ .flags by decide)]
    cases hop : op.mnemonic with
    | choRda | choSof | choRdal | choReserved => rfl
    | _ => exact absurd h (by rw [hop]; decide)

theorem isChorus_resolved (op : Operation) : op.resolved.isChorus = op.mnemonic.isChorus := by
  unfold resolved
  cases op.mnemonic with
  | and | xor | rdfx | maxx | skp | choRda => dsimp only; split <;> rfl
  | _ => rfl

/-- Taking the flag out of a word takes it out of the operation that the word encodes. -/
theorem decode_wordWithoutReg (word : UInt32) :
    decode (wordWithoutReg word) = (decode word).map withoutReg := by
  unfold wordWithoutReg
  by_cases hopcode : word &&& 0x1f = 0x14
  · have hopcode' : word &&& regMask &&& 0x1f = 0x14 := by
      rw [UInt32.and_assoc, ← hopcode]
      rfl
    have hfamily : ∀ {w : UInt32}, w &&& 0x1f = 0x14 → Mnemonic.ofWord? w = some .choRda :=
      fun h => Mnemonic.ofWord?_eq_some_iff.mpr ⟨rfl, h, nofun, nofun⟩
    -- No field of CHO refuses its bits.
    obtain ⟨operands, hcut⟩ : ∃ operands,
        Operand.cut? Mnemonic.choRda.fields (word >>> 5) = some operands := ⟨_, rfl⟩
    have hcut' : Operand.cut? Mnemonic.choRda.fields ((word &&& regMask) >>> 5) =
        some (operands.map Operand.withoutReg) := by
      rw [UInt32.shiftRight_and, Operand.cut?_regMask, hcut]
      rfl
    have hresolved : resolved ⟨.choRda, operands.map Operand.withoutReg, word &&& regMask⟩ =
        resolved ⟨.choRda, operands, word⟩ := resolved_withoutReg ⟨.choRda, operands, word⟩
    have hchorus : (resolved ⟨.choRda, operands, word⟩).isChorus = true := isChorus_resolved _
    rw [if_pos hopcode, decode_eq_ok_iff.mpr ⟨_, _, hfamily hopcode, hcut, rfl⟩,
      decode_eq_ok_iff.mpr ⟨_, _, hfamily hopcode', hcut', rfl⟩, hresolved]
    show _ = Except.ok (withoutReg _)
    rw [withoutReg, if_pos hchorus]
  · rw [if_neg hopcode]
    cases hdecode : decode word with
    | error e => rfl
    | ok op =>
      obtain ⟨family, operands, hfamily, -, rfl⟩ := decode_eq_ok_iff.mp hdecode
      have hother : (resolved ⟨family, operands, word⟩).isChorus = false := by
        rw [isChorus_resolved, Bool.eq_false_iff]
        intro hchorus
        have hopcode' := Mnemonic.opcode_of_ofWord hfamily
        rw [Mnemonic.opcode_of_isChorus hchorus] at hopcode'
        exact hopcode hopcode'
      show _ = Except.ok (withoutReg _)
      rw [withoutReg_of_not_isChorus hother]

end Operation

/-! ## What the flag does not do -/

theorem ChorusFlag.isIn_clearReg {flag : ChorusFlag} (h : flag ≠ .reg) (flags : UInt32) :
    flag.isIn (clearReg flags) = flag.isIn flags := by
  have hbit : ~~~ChorusFlag.reg.bit &&& flag.bit = flag.bit := by
    revert h
    cases flag <;> decide
  rw [isIn, clearReg, UInt32.and_assoc, hbit]
  rfl

/-- Which flag an oscillator does not provide has nothing to do with REG. -/
theorem ChorusFlag.misfit?_clearReg (flags : UInt32) (lfo : LfoSelect) :
    misfit? (clearReg flags) lfo = misfit? flags lfo := by
  have hcos := isIn_clearReg (show cos ≠ reg by decide) flags
  have hrptr2 := isIn_clearReg (show rptr2 ≠ reg by decide) flags
  have hna := isIn_clearReg (show na ≠ reg by decide) flags
  simp only [misfit?, List.find?, hcos, hrptr2, hna]

theorem Sine.wave_of_latched {s : Sine} (h : s.latched = s.angle) (cosine latched : Bool) :
    s.wave cosine latched = s.wave cosine false := by
  unfold wave
  rw [h]
  cases latched <;> rfl

theorem Ramp.value_of_latched {r : Ramp} (h : r.latched = r.counter) (latched : Bool) :
    r.value latched = r.value false := by
  unfold value
  rw [h]
  cases latched <;> rfl

namespace LfoReading

theorem ofSine_clearReg {s : Sine} (h : s.latched = s.angle) (flags : UInt32) :
    ofSine s (ChorusFlag.clearReg flags) = ofSine s flags := by
  unfold ofSine
  rw [Sine.wave_of_latched h, Sine.wave_of_latched h _ (ChorusFlag.reg.isIn flags),
    ChorusFlag.isIn_clearReg (show ChorusFlag.cos ≠ .reg by decide),
    ChorusFlag.isIn_clearReg (show ChorusFlag.compa ≠ .reg by decide)]

theorem ofRamp_clearReg {r : Ramp} (h : r.latched = r.counter) (flags : UInt32) :
    ofRamp r (ChorusFlag.clearReg flags) = ofRamp r flags := by
  unfold ofRamp
  rw [Ramp.value_of_latched h, Ramp.value_of_latched h (ChorusFlag.reg.isIn flags),
    ChorusFlag.isIn_clearReg (show ChorusFlag.rptr2 ≠ .reg by decide),
    ChorusFlag.isIn_clearReg (show ChorusFlag.compa ≠ .reg by decide),
    ChorusFlag.isIn_clearReg (show ChorusFlag.na ≠ .reg by decide)]

/-- The live position is read in either case. -/
theorem ofBank_clearReg {bank : LfoBank} (h : bank.Latched) (lfo : LfoSelect) (flags : UInt32) :
    ofBank bank lfo (ChorusFlag.clearReg flags) = ofBank bank lfo flags := by
  unfold ofBank
  rw [ofSine_clearReg (h.sine lfo), ofRamp_clearReg (h.ramp lfo)]

end LfoReading

namespace Machine

variable {m : Machine} {op : Operation}

theorem chorusReading_withoutReg (h : m.lfos.Latched) (hop : op.mnemonic.isChorus = true) :
    m.chorusReading op.withoutReg = m.chorusReading op := by
  unfold chorusReading chorusLfo
  rw [Operation.bits_withoutReg op (show Role.oscillator ≠ .flags by decide),
    Operation.bits_flags_withoutReg hop, LfoReading.ofBank_clearReg h]

theorem chorusComplements_withoutReg (hop : op.mnemonic.isChorus = true) :
    chorusComplements op.withoutReg = chorusComplements op := by
  unfold chorusComplements
  rw [Operation.bits_flags_withoutReg hop,
    ChorusFlag.isIn_clearReg (show ChorusFlag.compc ≠ .reg by decide)]

theorem fault?_withoutReg (m : Machine) (op : Operation) :
    m.fault? op.withoutReg = m.fault? op := by
  cases hop : op.mnemonic.isChorus with
  | false => rw [Operation.withoutReg_of_not_isChorus hop]
  | true =>
    unfold fault? chorusLfo
    rw [Operation.mnemonic_withoutReg, Operation.bits_flags_withoutReg hop,
      Operation.bits_withoutReg op (show Role.oscillator ≠ .flags by decide)]
    simp only [ChorusFlag.misfit?_clearReg]

theorem execute_withoutReg (h : m.lfos.Latched) (op : Operation) :
    m.execute op.withoutReg = m.execute op := by
  cases hop : op.mnemonic.isChorus with
  | false => rw [Operation.withoutReg_of_not_isChorus hop]
  | true =>
    have hreading := chorusReading_withoutReg h hop
    have hcomplements := chorusComplements_withoutReg hop
    have haddress := op.bits_withoutReg (show Role.address ≠ .flags by decide)
    have hmnemonic := op.mnemonic_withoutReg
    unfold execute nextIp effect chorusRead chorusScale chorusLoad chorusCoefficient
    cases hcho : op.mnemonic with
    | choRda | choSof | choRdal | choReserved =>
      simp only [hmnemonic, hcho, hreading, hcomplements, haddress, reduceCtorEq, false_and,
        if_false]
    | _ => exact absurd hop (by rw [hcho]; decide)

end Machine

/-! ## Runs without the flag -/

def Program.withoutReg (program : Program) : Program :=
  program.map Operation.withoutReg

/-- The call with a program without the flag. -/
def HostCall.withoutReg : HostCall → HostCall
  | .step program => .step program.withoutReg
  | .runSample limit program => .runSample limit program.withoutReg
  | .process limit program left right => .process limit program.withoutReg left right
  | call => call

/-- What comes of a call: the answer, and the machine that it leaves. -/
def Called.outcome (c : Called) : Answer × Machine :=
  (c.answer, c.after)

namespace Machine

variable {m : Machine}

theorem step_withoutReg (h : m.lfos.Latched) (program : Program) :
    m.step program.withoutReg = m.step program := by
  unfold step Program.withoutReg
  rw [Array.getElem?_map]
  cases program[m.ip.toNat]? with
  | none =>
    have hempty : (program.map Operation.withoutReg).isEmpty = program.isEmpty := by
      unfold Array.isEmpty
      rw [Array.size_map]
    simp only [Option.map_none, hempty]
  | some op =>
    simp only [Option.map_some, fault?_withoutReg, execute_withoutReg h, Array.size_map]

theorem stepsWithin_withoutReg (h : m.lfos.Latched) (limit : Nat) (program : Program)
    (fuel : Nat) :
    m.stepsWithin limit program.withoutReg fuel = m.stepsWithin limit program fuel := by
  induction fuel generalizing m with
  | zero => rfl
  | succ fuel ih =>
    -- The next machine is latched as well, which the induction asks for.
    have hafter := latched_traceLaw.step (fun op (_ : op ∈ program) => trivial) m h
    unfold stepsWithin
    rw [step_withoutReg h]
    generalize m.step program = r at hafter ⊢
    obtain ⟨result, n⟩ := r
    cases result with
    | error e => rfl
    | ok progress =>
      cases progress with
      | running => exact ih hafter
      | sampleDone => rfl

/-- A call answers the same and leaves the same machine without the flag. -/
theorem outcome_withoutReg (h : m.lfos.Latched) (call : HostCall) :
    Called.outcome ⟨m, call.withoutReg⟩ = Called.outcome ⟨m, call⟩ := by
  cases call with
  | step program =>
    show (Answer.progress (m.step program.withoutReg).1, (m.step program.withoutReg).2) = _
    rw [step_withoutReg h]
    rfl
  | runSample limit program =>
    have hrun : m.runSample limit program.withoutReg = m.runSample limit program :=
      stepsWithin_withoutReg (m := { m with ip := 0 }) h limit program limit
    show (Answer.ended (m.runSample limit program.withoutReg).1,
      (m.runSample limit program.withoutReg).2) = _
    rw [hrun]
    rfl
  | process limit program left right =>
    have hframe : (m.frameStart left right).lfos.Latched := .advance m.lfos
    show (Answer.outputs (m.process limit program.withoutReg left right).1,
        (m.process limit program.withoutReg left right).2) =
      (Answer.outputs (m.process limit program left right).1,
        (m.process limit program left right).2)
    rw [process_fst, process_snd, stepsWithin_withoutReg hframe, process_fst, process_snd]
  | _ => rfl

theorem session_withoutReg (h : m.lfos.Latched) (calls : List HostCall) :
    (session (calls.map HostCall.withoutReg) m).map Called.outcome =
      (session calls m).map Called.outcome := by
  induction calls generalizing m with
  | nil => rfl
  | cons call calls ih =>
    have hfirst := outcome_withoutReg h call
    have hafter : m.afterCall call.withoutReg = m.afterCall call := congrArg Prod.snd hfirst
    have hothers := ih (latched_afterCall h call)
    show Called.outcome ⟨m, call.withoutReg⟩ ::
      (session (calls.map HostCall.withoutReg) (m.afterCall call.withoutReg)).map _ = _
    rw [hfirst, hafter, hothers]
    rfl

/-- In every machine that a host can bring about the latched position of each oscillator is the
    live one, so that REG has no effect: instructions that differ in it fail alike and do the
    same, and calls with programs that differ in it answer the same and leave the same machines.
    Instructions differ in it exactly as their words do. -/
theorem reg_flag_has_no_effect (h : Attainable m) :
    (∀ lfo, (m.lfos.sineOf lfo).latched = (m.lfos.sineOf lfo).angle ∧
        (m.lfos.rampOf lfo).latched = (m.lfos.rampOf lfo).counter) ∧
      (∀ word, Operation.decode (Operation.wordWithoutReg word) =
        (Operation.decode word).map Operation.withoutReg) ∧
      (∀ op op' : Operation, op.withoutReg = op'.withoutReg →
        m.fault? op = m.fault? op' ∧ m.execute op = m.execute op') ∧
      ∀ calls calls' : List HostCall,
        calls.map HostCall.withoutReg = calls'.map HostCall.withoutReg →
        (session calls m).map Called.outcome = (session calls' m).map Called.outcome := by
  have hlatched := h.latched
  refine ⟨fun lfo => ⟨hlatched.sine lfo, hlatched.ramp lfo⟩, Operation.decode_wordWithoutReg,
    fun op op' hsame => ⟨?_, ?_⟩, fun calls calls' hsame => ?_⟩
  · rw [← fault?_withoutReg m op, hsame, fault?_withoutReg m op']
  · rw [← execute_withoutReg hlatched op, hsame, execute_withoutReg hlatched op']
  · rw [← session_withoutReg hlatched calls, hsame, session_withoutReg hlatched calls']

/-- CHO RDA, SIN0, REG, 5. -/
def latchedRead : Operation :=
  { mnemonic := .choRda
    operands :=
      [⟨⟨.address, 16, .binary⟩, 5⟩, ⟨⟨.oscillator, 2, .unsigned⟩, 0⟩, ⟨.unused 1, 0⟩,
        ⟨⟨.flags, 6, .flags⟩, 2⟩, ⟨⟨.subcommand, 2, .unsigned⟩, 0⟩]
    word := 0x020000b4 }

/-- After a frame in which the oscillators moved a modulated read is the same without REG. -/
theorem reg_flag_has_no_effect_on_read :
    Attainable ((powerOn 8 true).reset.afterCall (.process 4 #[loadSin1] .zero .zero)) ∧
      latchedRead.withoutReg ≠ latchedRead ∧
      ((powerOn 8 true).reset.afterCall (.process 4 #[loadSin1] .zero .zero)).execute
          latchedRead =
        ((powerOn 8 true).reset.afterCall (.process 4 #[loadSin1] .zero .zero)).execute
          latchedRead.withoutReg := by
  have hprogram : Program.IsDecoded #[loadSin1] :=
    Program.isDecoded_singleton ⟨0x20c01412, by decide⟩
  have hframe := Attainable.call (.process 4 #[loadSin1] .zero .zero) hprogram
    (.reset (powerOn 8 true) (by decide))
  obtain ⟨-, -, hsame, -⟩ := reg_flag_has_no_effect hframe
  exact ⟨hframe, by decide, (hsame latchedRead latchedRead.withoutReg (by decide)).2⟩

end Machine
end EffectsDsp
