/-
  EffectsDsp.Proofs.Motion

  What moves an oscillator. All four move once at the beginning of a frame, by the rates that
  they have there. After that a program can set them to other rates and read them as often as
  it likes, and they stand still: `Tuned` says so of what an instruction does to the bank. The
  one exception is JAM, which starts a ramp again.

  So the angle of a sine after some frames is found from its rates at their beginnings, and
  the counter of a ramp that is not started again has gone down by the sum of their quarters,
  modulo its cycle.
-/

import EffectsDsp.Proofs.Mirror
import EffectsDsp.Proofs.Trace

namespace EffectsDsp

/-! ## Oscillators that stand still -/

/-- The oscillator has kept its phases, whatever it was set to. -/
structure Sine.Tuned (s s' : Sine) : Prop where
  angle : s'.angle = s.angle
  latched : s'.latched = s.latched

/-- The oscillator has kept its counters, and its rate unless that was set to a legal one. -/
structure Ramp.Tuned (r r' : Ramp) : Prop where
  counter : r'.counter = r.counter
  latched : r'.latched = r.latched
  rate : r'.rate = r.rate ∨ -16384 ≤ r'.rate.toInt ∧ r'.rate.toInt ≤ 32767

/-- All four oscillators stand where they stood. -/
structure LfoBank.Tuned (bank bank' : LfoBank) : Prop where
  sine : ∀ lfo, (bank.sineOf lfo).Tuned (bank'.sineOf lfo)
  ramp : ∀ lfo, (bank.rampOf lfo).Tuned (bank'.rampOf lfo)

theorem Ramp.tuned_setAmplitude (r : Ramp) (raw : Int32) : r.Tuned (r.setAmplitude raw).1 := by
  unfold setAmplitude
  -- The search for the nearest length is not to be unfolded.
  generalize nearestAmplitude raw = nearest
  exact ⟨rfl, rfl, .inl rfl⟩

theorem Ramp.InCycle.tuned {r r' : Ramp} (h : r.InCycle) (htuned : r.Tuned r') : r'.InCycle where
  counter := by
    rw [htuned.counter]
    exact h.counter
  rate := by
    rcases htuned.rate with hkept | hset
    · rw [hkept]
      exact h.rate
    · exact hset

namespace LfoBank.Tuned

variable {bank : LfoBank}

theorem refl (bank : LfoBank) : bank.Tuned bank :=
  ⟨fun _ => ⟨rfl, rfl⟩, fun _ => ⟨rfl, rfl, .inl rfl⟩⟩

/-- A sine may be replaced by one of the same phases. -/
theorem setSine {lfo : LfoSelect} {s : Sine} (hs : (bank.sineOf lfo).Tuned s) :
    bank.Tuned (bank.setSine lfo.unit s) where
  sine other := by
    rw [sineOf_setSine]
    split
    · next hunit =>
      rw [← bank.sineOf_congr hunit]
      exact hs
    · exact (refl bank).sine other
  ramp other := (refl bank).ramp other

theorem setRamp {lfo : LfoSelect} {r : Ramp} (hr : (bank.rampOf lfo).Tuned r) :
    bank.Tuned (bank.setRamp lfo.unit r) where
  sine other := (refl bank).sine other
  ramp other := by
    rw [rampOf_setRamp]
    split
    · next hunit =>
      rw [← bank.rampOf_congr hunit]
      exact hr
    · exact (refl bank).ramp other

theorem setParam (lfo : LfoSelect) (p : LfoParam) (raw : Int32) :
    bank.Tuned (bank.setParam lfo p raw).1 := by
  unfold LfoBank.setParam
  cases lfo.isRamp with
  | false => cases p <;> exact setSine ⟨rfl, rfl⟩
  | true =>
    cases p with
    | rate => exact setRamp ⟨rfl, rfl, .inr (Ramp.bounds_clampRate raw)⟩
    | range => exact setRamp (Ramp.tuned_setAmplitude _ raw)

end LfoBank.Tuned

/-! ## Instructions -/

/-- The operation starts the ramp again. -/
def Operation.jams (op : Operation) (lfo : LfoSelect) : Bool :=
  op.mnemonic == .jam && LfoSelect.ofBits (2 ||| op.bits .oscillator) == lfo

theorem Operation.jams_of_ne {op : Operation} (hop : op.mnemonic ≠ .jam) (lfo : LfoSelect) :
    op.jams lfo = false := by
  unfold jams
  rw [beq_eq_false_iff_ne.mpr hop, Bool.false_and]

/-- Ramps are told by their numbers. -/
theorem LfoSelect.unit_eq_iff {lfo other : LfoSelect} (h : lfo.isRamp = true)
    (hother : other.isRamp = true) : lfo.unit = other.unit ↔ lfo = other := by
  revert h hother
  cases lfo <;> cases other <;> decide

namespace Machine

variable {m n : Machine}

theorem lfos_execute (m : Machine) (op : Operation) :
    (m.execute op).lfos = (m.outward op).lfos := by
  rw [execute_eq]
  rfl

theorem tuned_writeRegister (m : Machine) (address : UInt8) :
    m.lfos.Tuned (m.writeRegister address).lfos := by
  unfold writeRegister
  split
  · next lfo p _ =>
    obtain ⟨diagnostics, heq⟩ := programLfo_eq m lfo p
      (Int32.ofInt (m.acc.raw.toInt >>> Address.paramShift lfo p))
    rw [heq]
    exact .setParam lfo p _
  · rw [noteRail_eq]
    exact .refl m.lfos

/-- No instruction but JAM moves an oscillator. -/
theorem tuned_execute (m : Machine) {op : Operation} (hop : op.mnemonic ≠ .jam) :
    m.lfos.Tuned (m.execute op).lfos := by
  rw [lfos_execute]
  unfold outward
  cases hmnemonic : op.mnemonic with
  | jam => exact absurd hmnemonic hop
  | rda | rmpa | choRda =>
    dsimp only
    unfold loadDelay
    rw [noteAccess_eq]
    exact .refl m.lfos
  | wra | wrap =>
    dsimp only
    unfold writeDelay
    rw [noteSample_eq, noteAccess_eq]
    exact .refl m.lfos
  | wrax | wrhx | wrlx => exact tuned_writeRegister m op.registerAddress
  | wlds =>
    obtain ⟨diagnostics, heq⟩ := loadSine_eq m (.ofBits (op.bits .oscillator))
      (op.bits .frequency).toInt32 (op.bits .amplitude).toInt32
    dsimp only
    rw [heq]
    exact .setSine ⟨rfl, rfl⟩
  | wldr =>
    obtain ⟨diagnostics, heq⟩ := loadRamp_eq m (.ofBits (2 ||| op.bits .oscillator))
      ((op.operand? .frequency).map (·.signed)) (op.bits .amplitude)
    dsimp only
    rw [heq]
    cases (op.operand? .frequency).map (·.signed) with
    | none => exact .setRamp ⟨rfl, rfl, .inl rfl⟩
    | some rate => exact .setRamp ⟨rfl, rfl, .inr (Ramp.bounds_clampRate rate)⟩
  | _ => exact .refl m.lfos

/-- JAM starts its ramp again and leaves the rest of the bank alone. -/
theorem lfos_execute_jam (m : Machine) {op : Operation} (hop : op.mnemonic = .jam) :
    (m.execute op).lfos =
      let lfo := LfoSelect.ofBits (2 ||| op.bits .oscillator)
      m.lfos.setRamp lfo.unit (m.lfos.rampOf lfo).restart := by
  rw [lfos_execute]
  unfold outward
  rw [hop]
  rfl

/-! ## Runs -/

/-- What instructions do to the oscillators: none moves, but for the ramps that are started
    again. -/
structure Moved (m : Machine) (executed : List Executed) (n : Machine) : Prop where
  angle : ∀ lfo, (n.lfos.sineOf lfo).angle = (m.lfos.sineOf lfo).angle
  counter : ∀ lfo : LfoSelect, lfo.isRamp = true → (n.lfos.rampOf lfo).counter =
    if executed.any (·.op.jams lfo) then 0 else (m.lfos.rampOf lfo).counter
  inCycle : (∀ lfo, (m.lfos.rampOf lfo).InCycle) → ∀ lfo, (n.lfos.rampOf lfo).InCycle

theorem moved_execute (m : Machine) (op : Operation) : Moved m [⟨m, op⟩] (m.execute op) := by
  by_cases hop : op.mnemonic = .jam
  · -- The ramp that JAM names starts again.
    let started := LfoSelect.ofBits (2 ||| op.bits .oscillator)
    have hramp : started.isRamp = true := LfoSelect.isRamp_ofBits_or _
    have hlfos : (m.execute op).lfos =
        m.lfos.setRamp started.unit (m.lfos.rampOf started).restart := lfos_execute_jam m hop
    have hjams : ∀ lfo, op.jams lfo = (started == lfo) := fun lfo => by
      unfold Operation.jams
      rw [hop]
      rfl
    refine ⟨fun lfo => ?_, fun lfo hlfo => ?_, fun h lfo => ?_⟩
    · rw [hlfos, LfoBank.sineOf_setRamp]
    · rw [hlfos, LfoBank.rampOf_setRamp, List.any_cons, List.any_nil, Bool.or_false, hjams]
      simp only [LfoSelect.unit_eq_iff hramp hlfo, beq_iff_eq]
      split <;> rfl
    · rw [hlfos, LfoBank.rampOf_setRamp]
      split
      · have hzero : Ramp.IsCount 0 := ⟨by decide, by decide⟩
        exact ⟨hzero, (h started).rate⟩
      · exact h lfo
  · have htuned := tuned_execute m hop
    refine ⟨fun lfo => (htuned.sine lfo).angle, fun lfo _ => ?_, fun h lfo => ?_⟩
    · rw [List.any_cons, List.any_nil, Bool.or_false, Operation.jams_of_ne hop]
      exact (htuned.ramp lfo).counter
    · exact (h lfo).tuned (htuned.ramp lfo)

theorem Moved.traceLaw : TraceLaw (fun _ => True) Moved where
  refl m := ⟨fun _ => rfl, fun _ _ => rfl, fun h => h⟩
  trans {m n k first second} h h' := by
    refine ⟨fun lfo => (h'.angle lfo).trans (h.angle lfo), fun lfo hlfo => ?_,
      fun hm => h'.inCycle (h.inCycle hm)⟩
    rw [h'.counter lfo hlfo, h.counter lfo hlfo, List.any_append]
    -- It is enough that the ramp is started again once.
    cases first.any (·.op.jams lfo) <;> cases second.any (·.op.jams lfo) <;> rfl
  execute m op _ := moved_execute m op
  endSample m := ⟨fun _ => rfl, fun _ _ => rfl, fun h => h⟩

end Machine

/-! ## Frames -/

/-- The call processes a frame. -/
def HostCall.IsFrame : HostCall → Prop
  | .process .. => True
  | _ => False

namespace Sine

/-- The oscillator after as many moves as there are rates, each by the next of them. -/
def movedBy (s : Sine) (rates : List Int32) : Sine :=
  rates.foldl (fun s rate => { s with rate }.advance) s

theorem movedBy_cons (s : Sine) (rate : Int32) (rates : List Int32) :
    s.movedBy (rate :: rates) = { s with rate }.advance.movedBy rates := rfl

/-- Where an oscillator gets depends on where it starts and on the rates that it gets. -/
theorem angle_movedBy_congr {s t : Sine} (h : s.angle = t.angle) (rates : List Int32) :
    (s.movedBy rates).angle = (t.movedBy rates).angle := by
  induction rates generalizing s t with
  | nil => exact h
  | cons rate rates ih =>
    have hmoved : { s with rate }.advance.angle = { t with rate }.advance.angle := by
      show s.angle.advance _ = t.angle.advance _
      rw [h]
      rfl
    rw [movedBy_cons, movedBy_cons]
    exact ih hmoved

end Sine

/-- How far a ramp goes down in as many moves as there are rates. -/
def Ramp.descent : List Int32 → Int
  | [] => 0
  | rate :: rates => rate.toInt / 4 + descent rates

namespace Machine

variable {m : Machine} {calls : List HostCall}

/-- The rates that a sine has where the calls begin. -/
def sineRates (calls : List HostCall) (m : Machine) (lfo : LfoSelect) : List Int32 :=
  (session calls m).map fun c => (c.before.lfos.sineOf lfo).rate

/-- The rates that a ramp has where the calls begin. -/
def rampRates (calls : List HostCall) (m : Machine) (lfo : LfoSelect) : List Int32 :=
  (session calls m).map fun c => (c.before.lfos.rampOf lfo).rate

theorem length_session (calls : List HostCall) (m : Machine) :
    (session calls m).length = calls.length := by
  induction calls generalizing m with
  | nil => rfl
  | cons call calls ih => exact congrArg (· + 1) (ih (m.afterCall call))

/-- A frame moves the oscillators, and then its instructions. -/
theorem moved_frame (m : Machine) {call : HostCall} (hcall : call.IsFrame) :
    Moved m.advanceLfos (Called.executed ⟨m, call⟩) (m.afterCall call) := by
  cases call with
  | process limit program left right =>
    have hsample := Moved.traceLaw.stepsWithin (fun op (_ : op ∈ program) => trivial) limit limit
      (m.frameStart left right)
    show Moved m.advanceLfos _ (m.process limit program left right).2
    rw [process_snd]
    exact ⟨hsample.angle, hsample.counter, hsample.inCycle⟩
  | _ => exact hcall.elim

theorem inCycle_advance (h : ∀ lfo, (m.lfos.rampOf lfo).InCycle) (lfo : LfoSelect) :
    (m.advanceLfos.lfos.rampOf lfo).InCycle := by
  show (m.lfos.advance.rampOf lfo).InCycle
  rw [LfoBank.rampOf_advance]
  exact ⟨(h lfo).isCount_nextCounter, (h lfo).rate⟩

theorem inCycle_frame (h : ∀ lfo, (m.lfos.rampOf lfo).InCycle) {call : HostCall}
    (hcall : call.IsFrame) (lfo : LfoSelect) : ((m.afterCall call).lfos.rampOf lfo).InCycle :=
  (moved_frame m hcall).inCycle (inCycle_advance h) lfo

/-- A frame that does not start a ramp again takes a quarter of its rate away. -/
theorem counter_frame (h : ∀ lfo, (m.lfos.rampOf lfo).InCycle) {call : HostCall}
    (hcall : call.IsFrame) {lfo : LfoSelect} (hlfo : lfo.isRamp = true) :
    ((m.afterCall call).lfos.rampOf lfo).counter.toInt =
      if (Called.executed ⟨m, call⟩).any (·.op.jams lfo) then 0
      else ((m.lfos.rampOf lfo).counter.toInt - (m.lfos.rampOf lfo).rate.toInt / 4) % 8388608 := by
  have hstart : (m.advanceLfos.lfos.rampOf lfo).counter = (m.lfos.rampOf lfo).nextCounter := by
    show (m.lfos.advance.rampOf lfo).counter = _
    rw [LfoBank.rampOf_advance]
    rfl
  rw [(moved_frame m hcall).counter lfo hlfo, hstart, ← (h lfo).toInt_nextCounter]
  split <;> rfl

/-- A sine moves once in every frame, by the rate that it has when the frame begins. -/
theorem angle_frames (hcalls : ∀ call ∈ calls, call.IsFrame) (m : Machine) (lfo : LfoSelect) :
    ((afterCalls calls m).lfos.sineOf lfo).angle =
      ((m.lfos.sineOf lfo).movedBy (sineRates calls m lfo)).angle := by
  induction calls generalizing m with
  | nil => rfl
  | cons call calls ih =>
    have hfirst : ((m.afterCall call).lfos.sineOf lfo).angle =
        (m.lfos.sineOf lfo).advance.angle := by
      rw [(moved_frame m (hcalls call List.mem_cons_self)).angle lfo]
      show (m.lfos.advance.sineOf lfo).angle = _
      rw [LfoBank.sineOf_advance]
    have hothers := ih (fun c hc => hcalls c (List.mem_cons_of_mem _ hc)) (m.afterCall call)
    exact hothers.trans (Sine.angle_movedBy_congr hfirst _)

/-- Every frame begins and ends with ramps in their cycles. -/
theorem inCycle_of_mem_session (h : ∀ lfo, (m.lfos.rampOf lfo).InCycle)
    (hcalls : ∀ call ∈ calls, call.IsFrame) {c : Called} (hc : c ∈ session calls m) :
    (∀ lfo, (c.before.lfos.rampOf lfo).InCycle) ∧ c.call.IsFrame := by
  induction calls generalizing m with
  | nil => cases hc
  | cons call calls ih =>
    rcases List.mem_cons.mp hc with rfl | hc
    · exact ⟨h, hcalls _ List.mem_cons_self⟩
    · exact ih (inCycle_frame h (hcalls call List.mem_cons_self))
        (fun c hc => hcalls c (List.mem_cons_of_mem _ hc)) hc

/-- A ramp that is not started again has gone down by the quarters of its rates. -/
theorem counter_frames (h : ∀ lfo, (m.lfos.rampOf lfo).InCycle)
    (hcalls : ∀ call ∈ calls, call.IsFrame) {lfo : LfoSelect} (hlfo : lfo.isRamp = true)
    (hjams : (executedIn calls m).any (·.op.jams lfo) = false) :
    ((afterCalls calls m).lfos.rampOf lfo).counter.toInt =
      ((m.lfos.rampOf lfo).counter.toInt - Ramp.descent (rampRates calls m lfo)) % 8388608 := by
  induction calls generalizing m with
  | nil =>
    obtain ⟨hlo, hhi⟩ := (h lfo).counter
    show (m.lfos.rampOf lfo).counter.toInt = ((m.lfos.rampOf lfo).counter.toInt - 0) % 8388608
    omega
  | cons call calls ih =>
    have hsplit : executedIn (call :: calls) m =
        Called.executed ⟨m, call⟩ ++ executedIn calls (m.afterCall call) := rfl
    rw [hsplit, List.any_append, Bool.or_eq_false_iff] at hjams
    have hcall := hcalls call List.mem_cons_self
    have hfirst := counter_frame h hcall hlfo
    rw [hjams.1, if_neg Bool.false_ne_true] at hfirst
    have hothers := ih (inCycle_frame h hcall) (fun c hc => hcalls c (List.mem_cons_of_mem _ hc))
      hjams.2
    have hsum : Ramp.descent (rampRates (call :: calls) m lfo) =
        (m.lfos.rampOf lfo).rate.toInt / 4 +
          Ramp.descent (rampRates calls (m.afterCall call) lfo) := rfl
    show ((afterCalls calls (m.afterCall call)).lfos.rampOf lfo).counter.toInt = _
    rw [hothers, hfirst, hsum, Int.emod_sub_emod, Int.sub_sub]

/-- The oscillators move once per frame, whatever the programs do and however their samples end:
    a sine by the rate that it has when the frame begins, and a ramp down by a quarter of that,
    modulo its cycle. After that instructions leave all of them where they are, but for JAM, which
    starts its own ramp again. -/
theorem oscillators_move_once_per_frame (hcycle : ∀ lfo, (m.lfos.rampOf lfo).InCycle) :
    (∀ (n : Machine) (op : Operation) (lfo : LfoSelect),
        ((n.execute op).lfos.sineOf lfo).angle = (n.lfos.sineOf lfo).angle ∧
          (lfo.isRamp = true → ((n.execute op).lfos.rampOf lfo).counter =
            if op.jams lfo then 0 else (n.lfos.rampOf lfo).counter)) ∧
      ∀ calls : List HostCall, (∀ call ∈ calls, call.IsFrame) → ∀ lfo : LfoSelect,
        ((sineRates calls m lfo).length = calls.length ∧
          ((afterCalls calls m).lfos.sineOf lfo).angle =
            ((m.lfos.sineOf lfo).movedBy (sineRates calls m lfo)).angle) ∧
        (lfo.isRamp = true →
          (∀ c ∈ session calls m, (c.after.lfos.rampOf lfo).counter.toInt =
            if c.executed.any (·.op.jams lfo) then 0
            else ((c.before.lfos.rampOf lfo).counter.toInt -
              (c.before.lfos.rampOf lfo).rate.toInt / 4) % 8388608) ∧
          ((executedIn calls m).any (·.op.jams lfo) = false →
            ((afterCalls calls m).lfos.rampOf lfo).counter.toInt =
              ((m.lfos.rampOf lfo).counter.toInt - Ramp.descent (rampRates calls m lfo)) %
                8388608)) := by
  constructor
  · intro n op lfo
    have hmoved := moved_execute n op
    refine ⟨hmoved.angle lfo, fun hlfo => ?_⟩
    rw [hmoved.counter lfo hlfo, List.any_cons, List.any_nil, Bool.or_false]
  · intro calls hcalls lfo
    have hlength : (sineRates calls m lfo).length = calls.length := by
      rw [sineRates, List.length_map, length_session]
    refine ⟨⟨hlength, angle_frames hcalls m lfo⟩, fun hlfo => ⟨fun c hc => ?_, ?_⟩⟩
    · obtain ⟨hbefore, hcall⟩ := inCycle_of_mem_session hcycle hcalls hc
      exact counter_frame hbefore hcall hlfo
    · exact counter_frames hcycle hcalls hlfo

/-- WLDR RMP0, -5, 4096. -/
def loadRmp0 : Operation :=
  { mnemonic := .wldr
    operands :=
      [⟨⟨.amplitude, 2, .unsigned⟩, 0⟩, ⟨.unused 6, 0⟩,
        ⟨⟨.frequency, 16, .real .fraction16⟩, 0xfffb⟩,
        ⟨⟨.oscillator, 1, .unsigned⟩, 0⟩, ⟨⟨.selector, 2, .constant 1⟩, 1⟩]
    word := 0x5fff6012 }

/-- The first of three frames moves a ramp by the rate of power-on and the others by the one that
    the program sets, a quarter of which is -2. -/
theorem oscillators_move_once_per_frame_up :
    (∀ lfo, ((powerOn 1 true).lfos.rampOf lfo).InCycle) ∧
      ((afterCalls (List.replicate 3 (.process 2 #[loadRmp0] .zero .zero))
        (powerOn 1 true)).lfos.rampOf .rmp0).counter.toInt = 4 := by
  have hcycle : ∀ lfo, ((powerOn 1 true).lfos.rampOf lfo).InCycle :=
    fun lfo => (LfoBank.WithinLimits.initial.ramp lfo).inCycle
  have hcalls : ∀ call ∈ List.replicate 3 (HostCall.process 2 #[loadRmp0] .zero .zero),
      call.IsFrame := by
    intro call hcall
    rw [(List.mem_replicate.mp hcall).2]
    trivial
  obtain ⟨-, hframes⟩ := oscillators_move_once_per_frame hcycle
  obtain ⟨-, hramp⟩ := hframes _ hcalls .rmp0
  have hcounter := (hramp rfl).2 (by decide)
  have hrates : rampRates (List.replicate 3 (.process 2 #[loadRmp0] .zero .zero))
      (powerOn 1 true) .rmp0 = [0, -5, -5] := by decide +kernel
  rw [hrates] at hcounter
  exact ⟨hcycle, hcounter⟩

end Machine
end EffectsDsp
