/-
  EffectsDsp.Proofs.Lockstep

  A machine that clamps and one that does not, next to each other. Both do the same as
  long as no result leaves the datapath, and the first result that does is counted by
  both: the counters of clamps tell a host from where on the two modes may differ.

  An instruction that clamps nothing computes one number in both modes, which is
  `Fixed.Coincide` for its accumulator and `Machine.Related` for all else. The runs are
  then compared by induction on the fuel of a sample and on the frames.
-/

import Mathlib.Data.List.Forall2
import EffectsDsp.Proofs.Comparison

namespace EffectsDsp

/-! ## Values -/

/-- Values that are equal but for their saturation mode. -/
structure Fixed.EqUpToMode (x y : Fixed) : Prop where
  raw : x.raw = y.raw
  format : x.format = y.format
  clamps : x.clamps = y.clamps

namespace Fixed

theorem EqUpToMode.comparison : Comparison EqUpToMode where
  refl _ := ⟨rfl, rfl, rfl⟩
  raw_eq h := h.raw
  withSaturating h _ _ := ⟨h.raw, h.format, h.clamps⟩
  withFormat h _ := ⟨h.raw, rfl, h.clamps⟩

theorem EqUpToMode.coincide {x y : Fixed} (h : EqUpToMode x y) : Coincide x y := by
  refine ⟨h.format, ?_⟩
  by_cases hx : x.clamps = 0
  · exact .inl ⟨hx, h.clamps ▸ hx, h.raw⟩
  · exact .inr ⟨hx, h.clamps ▸ hx⟩

theorem Coincide.refl (x : Fixed) : Coincide x x :=
  (EqUpToMode.comparison.refl x).coincide

/-- Values that coincide without clamps are equal but for their mode. -/
theorem Coincide.eqUpToMode {x y : Fixed} (h : Coincide x y) (hx : x.clamps = 0) :
    EqUpToMode x.withoutClamps y.withoutClamps :=
  ⟨h.raw_eq hx, h.1, rfl⟩

end Fixed

namespace Machine

open Fixed (EqUpToMode Coincide)

variable {m n : Machine}

/-! ## Counts of clamps -/

theorem toUInt64_eq_zero {a : UInt16} : a.toUInt64 = 0 ↔ a = 0 := by
  rw [← UInt64.toNat_inj, ← UInt16.toNat_inj]
  rfl

/-- Counts of single values do not wrap when they are added. -/
theorem toUInt64_add_eq_zero {a b : UInt16} :
    a.toUInt64 + b.toUInt64 = 0 ↔ a = 0 ∧ b = 0 := by
  have ha := a.toNat_lt
  have hb := b.toNat_lt
  rw [← UInt64.toNat_inj, ← UInt16.toNat_inj, ← UInt16.toNat_inj, UInt64.toNat_add,
    UInt16.toNat_toUInt64, UInt16.toNat_toUInt64]
  simp only [UInt64.toNat_zero, UInt16.toNat_zero]
  omega

/-! ## One accumulator in two modes -/

theorem logarithm_congr {x y : Fixed} (h : x.raw = y.raw) : logarithm x = logarithm y := by
  unfold logarithm Fixed.toFloat
  rw [h]

theorem exponential_congr {x y : Fixed} (h : x.raw = y.raw) :
    exponential x = exponential y := by
  unfold exponential Fixed.isNegative Fixed.toFloat
  rw [h]

/-- The magnitude that MAXX compares with is one computation in both modes. -/
theorem coincide_scaledMagnitude (h : Related EqUpToMode m n) (op : Operation) :
    Coincide (m.scaledMagnitude op) (n.scaledMagnitude op) := by
  have hregister := (h.regs.read EqUpToMode.comparison op.registerAddress).coincide
  exact ((hregister.withSaturating _ _).mul (.refl _)).abs

theorem coincide_accDifference (h : Related EqUpToMode m n) :
    Coincide m.accDifference n.accDifference :=
  (h.pacc.coincide.withSaturating _ _).sub h.acc.coincide

/-- If nothing is counted before the accumulator is complete, its last computation is one
    computation in both modes. -/
theorem coincide_computed (h : Related EqUpToMode m n) {op : Operation}
    (hearly : m.earlyClamps op = 0) (hdiff : m.paccClamps op = 0) :
    Coincide (m.computed op) (n.computed op) := by
  have hacc := h.acc.coincide
  have hpacc := h.pacc.coincide
  have hlr := h.lr.coincide
  have hregister := (h.regs.read EqUpToMode.comparison op.registerAddress).coincide
  have hvalue : ∀ {x y : Fixed}, Coincide x y → Coincide (m.value x) (n.value y) :=
    fun hxy => hxy.withSaturating _ _
  unfold earlyClamps at hearly
  unfold paccClamps at hdiff
  unfold computed
  cases hmnemonic : op.mnemonic with
  | rda | rmpa => exact hacc.add (hlr.mul (.refl _))
  | wra | wrax => exact hacc.mul (.refl _)
  | wrap => exact (hacc.mul (.refl _)).add hlr
  | rdax => exact hacc.add ((hvalue hregister).mul (.refl _))
  | rdfx => exact ((hacc.sub hregister).mul (.refl _)).add hregister
  | ldax => exact hvalue hregister
  | wrhx => exact (hacc.mul (.refl _)).add hpacc
  | wrlx =>
    -- The difference lost its clamps before the product, but it had none.
    simp only [hmnemonic] at hdiff
    have hdifference := coincide_accDifference h
    exact ((hdifference.withoutClamps (toUInt64_eq_zero.mp hdiff)).mul (.refl _)).add hpacc
  | maxx =>
    -- Which magnitude is larger is only clear if neither was clamped.
    simp only [hmnemonic] at hearly
    obtain ⟨hscaled, hmagnitude⟩ := toUInt64_add_eq_zero.mp hearly
    have hlarger := (hacc.abs.withoutClamps hmagnitude).larger
      ((coincide_scaledMagnitude h op).withoutClamps hscaled) rfl rfl
    exact hvalue hlarger
  | absa => exact hacc.abs
  | mulx => exact hacc.mul hregister
  | log =>
    rw [logarithm_congr h.acc.raw]
    exact ((hvalue (.refl _)).mul (.refl _)).add (.refl _)
  | exp =>
    rw [exponential_congr h.acc.raw]
    exact ((hvalue (.refl _)).mul (.refl _)).add (.refl _)
  | sof => exact ((hvalue hacc).mul (.refl _)).add (.refl _)
  | and | clr | or | xor | not => exact hacc.mapBits _
  | choRda =>
    rw [h.chorusDisplacement_eq op]
    exact hacc.add (hlr.mul (.refl _))
  | choSof =>
    rw [h.chorusCoefficient_eq op]
    exact (hacc.mul (.refl _)).add (.refl _)
  | choRdal =>
    rw [h.chorusCoefficient_eq op]
    exact (hvalue (.refl _)).add (.refl _)
  | skp | nop | wlds | wldr | jam | choReserved => exact hacc

/-! ## Instructions without clamps -/

/-- No computation of the instruction clamps. -/
structure ClampFree (m : Machine) (op : Operation) : Prop where
  early : m.earlyClamps op = 0
  difference : m.paccClamps op = 0
  acc : (m.computed op).clamps = 0

theorem earlyClamps_eq_zero_iff (h : Related EqUpToMode m n) (op : Operation) :
    m.earlyClamps op = 0 ↔ n.earlyClamps op = 0 := by
  unfold earlyClamps
  cases op.mnemonic with
  | maxx =>
    have hscaled := (coincide_scaledMagnitude h op).clamps_eq_zero_iff
    have hmagnitude := h.acc.coincide.abs.clamps_eq_zero_iff
    simp only [toUInt64_add_eq_zero]
    rw [hscaled, hmagnitude]
  | _ => exact Iff.rfl

theorem paccClamps_eq_zero_iff (h : Related EqUpToMode m n) (op : Operation) :
    m.paccClamps op = 0 ↔ n.paccClamps op = 0 := by
  unfold paccClamps
  cases op.mnemonic with
  | wrlx =>
    simp only [toUInt64_eq_zero]
    exact (coincide_accDifference h).clamps_eq_zero_iff
  | _ => exact Iff.rfl

/-- A clamp on one side is a clamp on the other. -/
theorem clampFree_iff (h : Related EqUpToMode m n) (op : Operation) :
    m.ClampFree op ↔ n.ClampFree op := by
  have hcomputed : m.earlyClamps op = 0 → m.paccClamps op = 0 →
      ((m.computed op).clamps = 0 ↔ (n.computed op).clamps = 0) :=
    fun hearly hdiff => (coincide_computed h hearly hdiff).clamps_eq_zero_iff
  constructor
  · rintro ⟨hearly, hdiff, hacc⟩
    exact ⟨(earlyClamps_eq_zero_iff h op).mp hearly, (paccClamps_eq_zero_iff h op).mp hdiff,
      (hcomputed hearly hdiff).mp hacc⟩
  · rintro ⟨hearly, hdiff, hacc⟩
    have hearly' := (earlyClamps_eq_zero_iff h op).mpr hearly
    have hdiff' := (paccClamps_eq_zero_iff h op).mpr hdiff
    exact ⟨hearly', hdiff', (hcomputed hearly' hdiff').mpr hacc⟩

/-- What MAXX counts early is at most what two values carry. -/
theorem toNat_earlyClamps_le (m : Machine) (op : Operation) :
    (m.earlyClamps op).toNat ≤ 131070 := by
  unfold earlyClamps
  cases op.mnemonic with
  | maxx =>
    have hscaled := (m.scaledMagnitude op).clamps.toNat_lt
    have hmagnitude := m.acc.abs.clamps.toNat_lt
    simp only [UInt64.toNat_add, UInt16.toNat_toUInt64]
    omega
  | _ => exact Nat.zero_le _

theorem accClamps_eq_zero_iff (m : Machine) (op : Operation) :
    m.accClamps op = 0 ↔ m.earlyClamps op = 0 ∧ (m.computed op).clamps = 0 := by
  have hearly := m.toNat_earlyClamps_le op
  have hacc := (m.computed op).clamps.toNat_lt
  unfold accClamps
  rw [← UInt64.toNat_inj, ← UInt64.toNat_inj, ← UInt16.toNat_inj, UInt64.toNat_add,
    UInt16.toNat_toUInt64]
  simp only [UInt64.toNat_zero, UInt16.toNat_zero]
  omega

/-- The counters of clamps stay as they are exactly if no computation clamps. -/
theorem clamps_eq_false_iff (e : Executed) :
    e.clamps = false ↔ (e.before.outward e.op).ClampFree e.op := by
  unfold Executed.clamps Executed.after
  rw [diagnostics_execute, Bool.or_eq_false_iff, bne_eq_false_iff_eq, bne_eq_false_iff_eq,
    UInt64.add_eq_left, UInt64.add_eq_left, accClamps_eq_zero_iff]
  constructor
  · rintro ⟨⟨hearly, hacc⟩, hdiff⟩
    exact ⟨hearly, hdiff, hacc⟩
  · rintro ⟨hearly, hdiff, hacc⟩
    exact ⟨⟨hearly, hacc⟩, hdiff⟩

/-- An instruction that clamps nothing keeps machines equal up to modes. -/
theorem Related.execute (h : Related EqUpToMode m n) {op : Operation}
    (hfree : (m.outward op).ClampFree op) :
    Related EqUpToMode (m.execute op) (n.execute op) := by
  have houtward := h.outward EqUpToMode.comparison op
  have hfree' := (clampFree_iff houtward op).mp hfree
  have hcomputed := coincide_computed houtward hfree.early hfree.difference
  -- Neither machine counts anything beyond its outward part.
  have hcount := (accClamps_eq_zero_iff _ op).mpr ⟨hfree.early, hfree.acc⟩
  have hcount' := (accClamps_eq_zero_iff _ op).mpr ⟨hfree'.early, hfree'.acc⟩
  have hpacc : EqUpToMode (m.execute op).pacc (n.execute op).pacc := by
    rw [pacc_execute, pacc_execute]
    split
    · exact h.acc
    · exact h.pacc
  have hdiagnostics : (m.execute op).diagnostics = (n.execute op).diagnostics := by
    rw [diagnostics_execute, diagnostics_execute, hcount, hcount', hfree.difference,
      hfree'.difference, houtward.diagnostics, h.diagnostics]
  rw [execute_eq, execute_eq] at hpacc hdiagnostics ⊢
  exact { houtward with
    ip := h.nextIp_eq EqUpToMode.comparison op
    acc := hcomputed.eqUpToMode hfree.acc
    pacc := hpacc
    diagnostics := hdiagnostics }

end Machine

/-! ## Runs side by side -/

/-- A machine that clamps and one that does not, which are equal in everything but the
    saturation modes. -/
structure Parallel (s u : Machine) : Prop where
  related : s.Related Fixed.EqUpToMode u
  clamping : s.HasMode true
  unclamped : u.HasMode false

/-- The instructions of two runs, side by side: the same ones on machines that are parallel
    before and after them, until both runs end or one instruction clamps in both. -/
inductive Lockstep : List Executed → List Executed → Prop
  | done : Lockstep [] []
  | quiet {a b : Executed} {as bs : List Executed} (hop : a.op = b.op)
      (hbefore : Parallel a.before b.before) (hafter : Parallel a.after b.after)
      (ha : a.clamps = false) (hb : b.clamps = false) (rest : Lockstep as bs) :
      Lockstep (a :: as) (b :: bs)
  | clamp {a b : Executed} {as bs : List Executed} (hop : a.op = b.op)
      (hbefore : Parallel a.before b.before) (ha : a.clamps = true) (hb : b.clamps = true) :
      Lockstep (a :: as) (b :: bs)

namespace Lockstep

variable {as bs cs ds : List Executed}

/-- Runs that are continued in lockstep, unless they clamped before, are in lockstep. -/
theorem append (h : Lockstep as bs)
    (hnext : (∀ e ∈ as, e.clamps = false) → Lockstep cs ds) :
    Lockstep (as ++ cs) (bs ++ ds) := by
  induction h with
  | done => exact hnext fun e he => absurd he List.not_mem_nil
  | @quiet a b as bs hop hbefore hafter ha hb _ ih =>
    refine .quiet hop hbefore hafter ha hb (ih fun hfree => hnext fun e he => ?_)
    obtain rfl | he := List.mem_cons.mp he
    · exact ha
    · exact hfree e he
  | clamp hop hbefore ha hb => exact .clamp hop hbefore ha hb

/-- The first instruction that clamps stands at the same place in both runs. -/
theorem findIdx?_eq (h : Lockstep as bs) :
    as.findIdx? Executed.clamps = bs.findIdx? Executed.clamps := by
  induction h with
  | done => rfl
  | quiet _ _ _ ha hb _ ih => rw [List.findIdx?_cons, List.findIdx?_cons, ha, hb, ih]
  | clamp _ _ ha hb =>
    rw [List.findIdx?_cons, List.findIdx?_cons, ha, hb]
    rfl

end Lockstep

namespace Parallel

variable {s u : Machine} {program : Program}

/-- An instruction clamps on both sides or on none, and in the second case the machines
    stay parallel. -/
theorem execute (h : Parallel s u) (op : Operation) :
    (Executed.clamps ⟨s, op⟩ = true ∧ Executed.clamps ⟨u, op⟩ = true) ∨
      (Executed.clamps ⟨s, op⟩ = false ∧ Executed.clamps ⟨u, op⟩ = false ∧
        Parallel (s.execute op) (u.execute op)) := by
  have hfree := Machine.clampFree_iff (h.related.outward Fixed.EqUpToMode.comparison op) op
  by_cases hs : Executed.clamps ⟨s, op⟩ = false
  · have hsfree := (Machine.clamps_eq_false_iff ⟨s, op⟩).mp hs
    have hu := (Machine.clamps_eq_false_iff ⟨u, op⟩).mpr (hfree.mp hsfree)
    exact .inr ⟨hs, hu, h.related.execute hsfree, h.clamping.execute op, h.unclamped.execute op⟩
  · have hu : ¬ Executed.clamps ⟨u, op⟩ = false := by
      intro hu
      have hufree := (Machine.clamps_eq_false_iff ⟨u, op⟩).mp hu
      exact hs ((Machine.clamps_eq_false_iff ⟨s, op⟩).mpr (hfree.mpr hufree))
    exact .inl ⟨eq_true_of_ne_false hs, eq_true_of_ne_false hu⟩

theorem endSample (h : Parallel s u) : Parallel s.endSample u.endSample :=
  ⟨h.related.endSample, ⟨h.clamping.machine, h.clamping.acc, h.clamping.pacc⟩,
    ⟨h.unclamped.machine, h.unclamped.acc, h.unclamped.pacc⟩⟩

theorem frameStart (h : Parallel s u) (left right : Fixed) :
    Parallel (s.frameStart left right) (u.frameStart left right) :=
  ⟨h.related.frameStart Fixed.EqUpToMode.comparison (Fixed.EqUpToMode.comparison.refl _)
      (Fixed.EqUpToMode.comparison.refl _),
    ⟨h.clamping.machine, h.clamping.acc, h.clamping.pacc⟩,
    ⟨h.unclamped.machine, h.unclamped.acc, h.unclamped.pacc⟩⟩

/-! ### One sample -/

theorem lockstep_executedWithin (h : Parallel s u) (fuel : Nat) :
    Lockstep (s.executedWithin program fuel) (u.executedWithin program fuel) := by
  induction fuel generalizing s u with
  | zero => exact .done
  | succ fuel ih =>
    unfold Machine.executedWithin
    rw [← h.related.current?_eq]
    cases s.current? program with
    | none => exact .done
    | some op =>
      have hip : (u.execute op).ip = (s.execute op).ip :=
        (h.related.nextIp_eq Fixed.EqUpToMode.comparison op).symm
      simp only [hip]
      -- A clamp ends the comparison; without one the machines stay parallel.
      obtain ⟨hs, hu⟩ | ⟨hs, hu, hafter⟩ := h.execute op
      · exact .clamp rfl h hs hu
      · refine .quiet rfl h hafter hs hu ?_
        by_cases hrunning : (s.execute op).ip.toNat < program.size
        · rw [if_pos hrunning, if_pos hrunning]
          exact ih hafter
        · rw [if_neg hrunning, if_neg hrunning]
          exact .done

/-- A sample without clamps has one result in both modes. -/
theorem stepsWithin (h : Parallel s u) (limit fuel : Nat)
    (hfree : ∀ e ∈ s.executedWithin program fuel, e.clamps = false) :
    (s.stepsWithin limit program fuel).1 = (u.stepsWithin limit program fuel).1 ∧
      Parallel (s.stepsWithin limit program fuel).2 (u.stepsWithin limit program fuel).2 := by
  induction fuel generalizing s u with
  | zero => exact ⟨rfl, h⟩
  | succ fuel ih =>
    unfold Machine.executedWithin at hfree
    unfold Machine.stepsWithin
    cases hcurrent : s.current? program with
    | none =>
      obtain hdone | ⟨e, hfails⟩ := Machine.step_of_current_none hcurrent
      · rw [hdone s rfl, hdone u h.related.ip.symm]
        exact ⟨rfl, h.endSample⟩
      · rw [hfails s rfl, hfails u h.related.ip.symm]
        exact ⟨rfl, h⟩
    | some op =>
      have hcurrent' : u.current? program = some op := h.related.current?_eq program ▸ hcurrent
      have hip : (u.execute op).ip = (s.execute op).ip :=
        (h.related.nextIp_eq Fixed.EqUpToMode.comparison op).symm
      rw [hcurrent] at hfree
      obtain ⟨hs, -⟩ | ⟨-, -, hafter⟩ := h.execute op
      · -- A clamp is excluded by the hypothesis.
        have hfirst := hfree ⟨s, op⟩ List.mem_cons_self
        rw [hs] at hfirst
        contradiction
      · rw [Machine.step_of_current hcurrent, Machine.step_of_current hcurrent', hip]
        by_cases hrunning : (s.execute op).ip.toNat < program.size
        · simp only [if_pos hrunning] at hfree ⊢
          exact ih hafter fun e he => hfree e (List.mem_cons_of_mem _ he)
        · simp only [if_neg hrunning]
          exact ⟨trivial, hafter.endSample⟩

/-! ### Frames -/

/-- A frame without clamps has one outcome in both modes. -/
theorem process (h : Parallel s u) (limit : Nat) (left right : Fixed)
    (hfree : ∀ e ∈ (s.frameStart left right).executedWithin program limit, e.clamps = false) :
    OutputsRelated Fixed.EqUpToMode (s.process limit program left right).1
        (u.process limit program left right).1 ∧
      Parallel (s.process limit program left right).2 (u.process limit program left right).2 := by
  obtain ⟨hresult, hafter⟩ := (h.frameStart left right).stepsWithin limit limit hfree
  obtain ⟨hleft, hright⟩ := hafter.related.outputs Fixed.EqUpToMode.comparison
  rw [Machine.process_fst, Machine.process_fst, Machine.process_snd, Machine.process_snd,
    ← hresult]
  refine ⟨?_, hafter⟩
  cases ((s.frameStart left right).stepsWithin limit program limit).1 with
  | error e => exact .error e
  | ok _ => exact .ok hleft hright

theorem lockstep_executed (h : Parallel s u) (limit : Nat) (frames : List (Fixed × Fixed)) :
    Lockstep (s.executed limit program frames) (u.executed limit program frames) := by
  induction frames generalizing s u with
  | nil => exact .done
  | cons frame frames ih =>
    obtain ⟨left, right⟩ := frame
    -- The next frame starts on parallel machines only if this one clamped nothing.
    refine ((h.frameStart left right).lockstep_executedWithin limit).append fun hfree => ?_
    exact ih (h.process limit left right hfree).2

theorem processAll (h : Parallel s u) (limit : Nat) (frames : List (Fixed × Fixed))
    (hfree : ∀ e ∈ s.executed limit program frames, e.clamps = false) :
    List.Forall₂ (OutputsRelated Fixed.EqUpToMode) (s.processAll limit program frames).1
        (u.processAll limit program frames).1 ∧
      Parallel (s.processAll limit program frames).2 (u.processAll limit program frames).2 := by
  induction frames generalizing s u with
  | nil => exact ⟨.nil, h⟩
  | cons frame frames ih =>
    obtain ⟨left, right⟩ := frame
    obtain ⟨hfirst, hafter⟩ := h.process limit left right fun e he =>
      hfree e (List.mem_append_left _ he)
    obtain ⟨hothers, hend⟩ := ih hafter fun e he => hfree e (List.mem_append_right _ he)
    exact ⟨.cons hfirst hothers, hend⟩

/-- Two machines at power-on, one for each mode. -/
theorem powerOn (size : Nat) : Parallel (.powerOn size true) (.powerOn size false) where
  related :=
    { ip := rfl
      acc := ⟨rfl, rfl, rfl⟩
      pacc := ⟨rfl, rfl, rfl⟩
      lr := ⟨rfl, rfl, rfl⟩
      regs := .refl Fixed.EqUpToMode.comparison _
      delay := rfl
      delayPtr := rfl
      runFlag := rfl
      lfos := rfl
      diagnostics := rfl }
  clamping := ⟨rfl, rfl, rfl⟩
  unclamped := ⟨rfl, rfl, rfl⟩

end Parallel

/-- Machines that are equal but for their modes, one of which clamps, stay so over every
    sequence of frames until an instruction clamps; this is the same instruction in both
    runs. If none does, the frames have the same outputs and faults. -/
theorem lockstep_until_clamp (limit : Nat) (program : Program) (frames : List (Fixed × Fixed))
    {s u : Machine} (h : Parallel s u) :
    Lockstep (s.executed limit program frames) (u.executed limit program frames) ∧
      (s.executed limit program frames).findIdx? Executed.clamps =
        (u.executed limit program frames).findIdx? Executed.clamps ∧
      ((∀ e ∈ s.executed limit program frames, e.clamps = false) →
        List.Forall₂ (OutputsRelated Fixed.EqUpToMode) (s.processAll limit program frames).1
            (u.processAll limit program frames).1 ∧
          Parallel (s.processAll limit program frames).2
            (u.processAll limit program frames).2) := by
  have hlockstep : Lockstep (s.executed limit program frames)
      (u.executed limit program frames) := h.lockstep_executed limit frames
  exact ⟨hlockstep, hlockstep.findIdx?_eq, h.processAll limit frames⟩

/-- The complement of zero and its magnitude stay in the datapath, so that two machines are
    parallel after them. -/
theorem lockstep_powerOn_not_absa :
    Parallel (.powerOn 1 true) (.powerOn 1 false) ∧
      (∀ e ∈ (Machine.powerOn 1 true).executed 4 #[⟨.not, [], 0⟩, ⟨.absa, [], 0⟩] [(.zero, .zero)],
        e.clamps = false) ∧
      Parallel
        ((Machine.powerOn 1 true).processAll 4 #[⟨.not, [], 0⟩, ⟨.absa, [], 0⟩] [(.zero, .zero)]).2
        ((Machine.powerOn 1 false).processAll 4 #[⟨.not, [], 0⟩, ⟨.absa, [], 0⟩]
          [(.zero, .zero)]).2 := by
  have hstart : Parallel (.powerOn 1 true) (.powerOn 1 false) := .powerOn 1
  have hfree : ∀ e ∈ (Machine.powerOn 1 true).executed 4 #[⟨.not, [], 0⟩, ⟨.absa, [], 0⟩]
      [(.zero, .zero)], e.clamps = false := by
    decide
  exact ⟨hstart, hfree, ((lockstep_until_clamp 4 _ _ hstart).2.2 hfree).2⟩

end EffectsDsp
