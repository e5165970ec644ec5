/-
  EffectsDsp.Proofs.Skip

  Skips. The flags of a skip are a set of conditions, one of which has to hold, so that the
  condition of a union is the disjunction of the conditions (`skips_or`). A skip leads to an index
  behind it, taken or not, and does nothing else (`step_skp`).

  What is passed over has no effect. Programs run alike from a machine on if all instructions
  that the run of one of them comes to are in the same places of the other (`SameRun`), and a run
  does not come to what a taken skip passes over, neither before the skip nor behind it
  (`Running.ip_not_skipped`).
-/

import EffectsDsp.Proofs.Effect
import EffectsDsp.Proofs.Termination

namespace EffectsDsp

/-! ## Flags -/

theorem or_and_ne_zero_iff {f g b : UInt32} :
    (f ||| g) &&& b ≠ 0 ↔ f &&& b ≠ 0 ∨ g &&& b ≠ 0 := by
  have hdistrib : (f ||| g) &&& b = (f &&& b) ||| (g &&& b) := by
    apply UInt32.toBitVec_inj.mp
    apply BitVec.eq_of_getLsbD_eq
    intro i _
    simp [Bool.and_or_distrib_right]
  rw [hdistrib, Ne, UInt32.or_eq_zero_iff, Classical.not_and_iff_not_or_not]

theorem SkipCondition.bit_and_bit {c d : SkipCondition} : c.bit &&& d.bit ≠ 0 ↔ c = d := by
  cases c <;> cases d <;> decide

namespace Machine

variable {p q program : Program} {m n s : Machine} {j k : Nat} {op : Operation}
  {r : Except Fault Unit × Machine}

/-- The condition of a union of flag sets is the disjunction of their conditions. -/
theorem skips_or (m : Machine) (f g : UInt32) : m.skips (f ||| g) = (m.skips f || m.skips g) := by
  apply Bool.eq_iff_iff.mpr
  rw [Bool.or_eq_true, skips_iff, skips_iff, skips_iff, ← exists_or]
  simp only [or_and_ne_zero_iff, or_and_right]

@[simp] theorem skips_bit (m : Machine) (c : SkipCondition) : m.skips c.bit = m.skipHolds c := by
  apply Bool.eq_iff_iff.mpr
  rw [skips_iff]
  simp only [SkipCondition.bit_and_bit, exists_eq_left']

/-- A number has a sign or it has none. -/
theorem skips_of_sign (m : Machine) :
    m.skips (SkipCondition.negative.bit ||| SkipCondition.notNegative.bit) = true := by
  rw [skips_or, skips_bit, skips_bit, Bool.or_eq_true]
  simp only [skipHolds, decide_eq_true_eq, Int32.lt_iff_toInt_lt, Int32.le_iff_toInt_le]
  omega

/-! ## One skip -/

/-- The index that a skip leads to. -/
def skipTarget (m : Machine) (op : Operation) : Nat :=
  m.ip.toNat + 1 + if m.skips (op.bits .flags) then (op.bits .distance).toNat else 0

theorem commitAcc_of_clamps_eq_zero (h : m.acc.clamps = 0) : m.commitAcc = m := by
  have hacc : m.acc.withoutClamps = m.acc := by
    rw [Fixed.withoutClamps, ← h]
  have hcount : m.diagnostics.accOverflows + m.acc.clamps.toUInt64 =
      m.diagnostics.accOverflows := by
    rw [h]
    exact UInt64.add_zero _
  rw [commitAcc, hacc, hcount]

theorem fault?_skp (hskp : op.mnemonic = .skp) (m : Machine) : m.fault? op = none := by
  rw [fault?, hskp]

/-- A skip counts the clamps of the accumulator, as every instruction does. -/
theorem execute_skp (hskp : op.mnemonic = .skp) (m : Machine) :
    m.execute op = { m.commitAcc with ip := m.nextIp op } := by
  have heffect : m.effect op = m := by
    rw [effect, hskp]
  rw [execute, heffect]

/-- The index of an instruction is too small for a distance to wrap around. -/
theorem toNat_nextIp_skp (hsize : 2 * program.size < UInt64.size)
    (hip : m.ip.toNat < program.size) (hskp : op.mnemonic = .skp) :
    (m.nextIp op).toNat = m.skipTarget op := by
  have hwidth : 2 * program.size < 18446744073709551616 := hsize
  have hone : (m.ip + 1).toNat = m.ip.toNat + 1 := by
    rw [UInt64.toNat_add, UInt64.toNat_one]
    omega
  have hdistance := (op.bits .distance).toNat_lt
  rw [nextIp, skipTarget]
  by_cases hskips : m.skips (op.bits .flags) = true
  · rw [if_pos ⟨hskp, hskips⟩, if_pos hskips, UInt64.toNat_add, hone, UInt32.toNat_toUInt64]
    omega
  · rw [if_neg fun h => hskips h.2, if_neg hskips, hone]

theorem step_skp (hop : program[m.ip.toNat]? = some op) (hskp : op.mnemonic = .skp) :
    m.step program =
      if (m.nextIp op).toNat < program.size then
        (.ok .running, { m.commitAcc with ip := m.nextIp op })
      else (.ok .sampleDone, m.commitAcc.endSample) := by
  have hcurrent : m.current? program = some op :=
    Option.filter_eq_some_iff.mpr ⟨hop, by rw [fault?_skp hskp]; rfl⟩
  rw [step_of_current hcurrent, execute_skp hskp]
  rfl

/-! ## Programs that run alike -/

theorem step_congr (hsize : p.size = q.size) (hop : p[m.ip.toNat]? = q[m.ip.toNat]?) :
    m.step p = m.step q := by
  have hempty : p.isEmpty = q.isEmpty := by
    rw [Array.isEmpty, Array.isEmpty, hsize]
  rw [step, step, hop, hsize, hempty]

/-- All that a run of `p` from `m` comes to is in the same places of `q`. -/
structure SameRun (m : Machine) (p q : Program) : Prop where
  size : p.size = q.size
  met : ∀ k n, Running p k m n → p[n.ip.toNat]? = q[n.ip.toNat]?

namespace SameRun

theorem first (h : SameRun m p q) : p[m.ip.toNat]? = q[m.ip.toNat]? :=
  h.met 0 m (.start m)

theorem execute (h : SameRun m p q) (hop : m.current? p = some op)
    (hinside : (m.execute op).ip.toNat < p.size) : SameRun (m.execute op) p q where
  size := h.size
  met k n hrun := h.met (k + 1) n (.execute hop hinside hrun)

theorem running (h : SameRun m p q) (hrun : Running p k m n) : Running q k m n := by
  induction hrun with
  | start m => exact .start m
  | @execute k m n op hop hinside _ ih =>
    refine .execute ?_ (h.size ▸ hinside) (ih (h.execute hop hinside))
    rw [current?, ← h.first]
    exact hop

/-- Runs of `q` come to nothing else, as both programs start with the same instruction and go on
    alike. -/
theorem symm (h : SameRun m p q) : SameRun m q p where
  size := h.size.symm
  met k n hrun := by
    induction hrun with
    | start m => exact h.first.symm
    | @execute k m n op hop hinside _ ih =>
      rw [current?, ← h.first] at hop
      exact ih (h.execute hop (h.size ▸ hinside))

theorem finishes (h : SameRun m p q) (hr : Finishes p k m r) : Finishes q k m r := by
  obtain ⟨hrun, hstep⟩ | ⟨hrun, hstep⟩ := hr
  · rw [step_congr h.size (h.met _ _ hrun)] at hstep
    exact .done (h.running hrun) hstep
  · rw [step_congr h.size (h.met _ _ hrun)] at hstep
    exact .failed (h.running hrun) hstep

theorem finishes_iff (h : SameRun m p q) : Finishes p k m r ↔ Finishes q k m r :=
  ⟨h.finishes, h.symm.finishes⟩

theorem stepsWithin_eq (h : SameRun m p q) (limit fuel : Nat) :
    m.stepsWithin limit p fuel = m.stepsWithin limit q fuel := by
  apply stepsWithin_eq_iff.mpr
  obtain ⟨k, hk, hfinishes⟩ | ⟨n, hrun, hlimit⟩ := stepsWithin_cases limit q fuel m
  · exact .inl ⟨k, hk, h.symm.finishes hfinishes⟩
  · exact .inr ⟨n, h.symm.running hrun, hlimit⟩

end SameRun

/-! ## What a skip passes over -/

/-- The programs are of one length and have the same instructions but for those from `first` up to
    the one before `last`. -/
structure DifferWithin (first last : Nat) (p q : Program) : Prop where
  size : p.size = q.size
  same : ∀ i, i < first ∨ last ≤ i → p[i]? = q[i]?

theorem differWithin_setIfInBounds {first last i : Nat} (hfirst : first ≤ i) (hlast : i < last)
    (op : Operation) : DifferWithin first last p (p.setIfInBounds i op) where
  size := Array.size_setIfInBounds.symm
  same j hj := (Array.getElem?_setIfInBounds_ne (by omega)).symm

/-- A run that goes on behind a skip does so where the skip leads to. -/
theorem Running.skipTarget_le (hsize : 2 * program.size < UInt64.size)
    (hop : program[m.ip.toNat]? = some op) (hskp : op.mnemonic = .skp)
    (h : Running program (k + 1) m n) : m.skipTarget op ≤ n.ip.toNat := by
  obtain _ | ⟨hcurrent, hinside, hrest⟩ := h
  obtain rfl := Option.some.inj (hop.symm.trans (Option.filter_eq_some_iff.mp hcurrent).1)
  have hreaches := hrest.reaches hsize
  rw [execute_skp hskp, toNat_nextIp_skp hsize (ip_lt_size hcurrent) hskp] at hreaches
  omega

/-- A run that comes to a skip does not come to anything between the skip and where this leads
    to, whether before it or behind it. -/
theorem Running.ip_not_skipped (hsize : 2 * program.size < UInt64.size)
    (hop : program[m.ip.toNat]? = some op) (hskp : op.mnemonic = .skp)
    (hskip : Running program j s m) (h : Running program k s n) :
    n.ip.toNat < m.ip.toNat + 1 ∨ m.skipTarget op ≤ n.ip.toNat := by
  obtain hbefore | hbehind := Nat.lt_or_ge j k
  · obtain ⟨i, rfl⟩ := Nat.exists_eq_add_of_lt hbefore
    exact .inr ((hskip.rest h).skipTarget_le hsize hop hskp)
  · obtain ⟨i, rfl⟩ := Nat.exists_eq_add_of_le hbehind
    have hreaches := (h.rest hskip).reaches hsize
    exact .inl (by omega)

theorem sameRun_of_differWithin (hsize : 2 * p.size < UInt64.size)
    (hop : p[m.ip.toNat]? = some op) (hskp : op.mnemonic = .skp)
    (hdiffer : DifferWithin (m.ip.toNat + 1) (m.skipTarget op) p q) (hskip : Running p j s m) :
    SameRun s p q where
  size := hdiffer.size
  met _ _ hrun := hdiffer.same _ (hskip.ip_not_skipped hsize hop hskp hrun)

/-- A skip is a disjunction and a jump forward, and nothing else. Its condition is that of any of
    its flags, in every state, and does not hold without flags; it always holds for both signs. An
    instruction pointer at a skip in a program goes to the next index, or to the one that is
    farther by the distance if the condition holds, and the sample is done if that is not inside the
    program; but for clamps that the accumulator has to count, nothing else changes. What a taken
    skip passes over does not matter: for programs that differ in no more, the sample finishes
    alike from there on, with any limit, and so does a whole sample that comes to the skip. All
    programs that fit in memory are short enough. -/
theorem skip_jumps_forward (m : Machine) :
    (∀ f g, m.skips (f ||| g) = (m.skips f || m.skips g)) ∧
      (∀ c, m.skips (SkipCondition.bit c) = m.skipHolds c) ∧
      m.skips 0 = false ∧
      m.skips (SkipCondition.negative.bit ||| SkipCondition.notNegative.bit) = true ∧
      ∀ p op, 2 * p.size < UInt64.size → p[m.ip.toNat]? = some op → op.mnemonic = .skp →
        (∃ next : UInt64,
          next.toNat = m.ip.toNat + 1 +
            (if m.skips (op.bits .flags) then (op.bits .distance).toNat else 0) ∧
          m.step p = (if next.toNat < p.size then (.ok .running, { m.commitAcc with ip := next })
            else (.ok .sampleDone, m.commitAcc.endSample)) ∧
          (m.acc.clamps = 0 → m.commitAcc = m)) ∧
        ∀ q, m.skips (op.bits .flags) = true →
          DifferWithin (m.ip.toNat + 1) (m.ip.toNat + 1 + (op.bits .distance).toNat) p q →
            (∀ k r, Finishes p k m r ↔ Finishes q k m r) ∧
            (∀ limit fuel, m.stepsWithin limit p fuel = m.stepsWithin limit q fuel) ∧
            ∀ (s : Machine) j limit, Running p j { s with ip := 0 } m →
              s.runSample limit p = s.runSample limit q := by
  refine ⟨m.skips_or, m.skips_bit, m.skips_zero, m.skips_of_sign, ?_⟩
  intro p op hsize hop hskp
  have hip : m.ip.toNat < p.size := (Array.getElem?_eq_some_iff.mp hop).1
  refine ⟨⟨m.nextIp op, toNat_nextIp_skp hsize hip hskp, step_skp hop hskp,
    commitAcc_of_clamps_eq_zero⟩, ?_⟩
  intro q hskips hdiffer
  have htarget : m.skipTarget op = m.ip.toNat + 1 + (op.bits .distance).toNat := by
    rw [skipTarget, if_pos hskips]
  rw [← htarget] at hdiffer
  have hsame : SameRun m p q := sameRun_of_differWithin hsize hop hskp hdiffer (.start m)
  refine ⟨fun k r => hsame.finishes_iff, hsame.stepsWithin_eq, fun s j limit hskip => ?_⟩
  exact (sameRun_of_differWithin hsize hop hskp hdiffer hskip).stepsWithin_eq limit limit

/-- A program that skips one instruction where the accumulator is not negative. -/
def skipOne : Program :=
  #[⟨.skp, [⟨⟨.flags, 5, .flags⟩, 0x02⟩, ⟨⟨.distance, 6, .unsigned⟩, 1⟩], 0⟩, ⟨.not, [], 0⟩,
    ⟨.absa, [], 0⟩]

/-- What is skipped can as well be a reserved encoding. -/
theorem skip_jumps_forward_over_reserved :
    2 * skipOne.size < UInt64.size ∧ (powerOn 1 true).skips 0x02 = true ∧
      (powerOn 1 true).runSample 2 skipOne =
        (powerOn 1 true).runSample 2 (skipOne.setIfInBounds 1 ⟨.choReserved, [], 0⟩) ∧
      ((powerOn 1 true).runSample 2 skipOne).1 = .ok () := by
  have hsize : 2 * skipOne.size < UInt64.size := by decide
  have hskips : (powerOn 1 true).skips 0x02 = true := by decide
  have hdiffer : DifferWithin 1 2 skipOne (skipOne.setIfInBounds 1 ⟨.choReserved, [], 0⟩) :=
    differWithin_setIfInBounds (Nat.le_refl 1) (Nat.lt_succ_self 1) _
  obtain ⟨-, -, -, -, hskip⟩ := skip_jumps_forward (powerOn 1 true)
  obtain ⟨-, hover⟩ := hskip skipOne _ hsize rfl rfl
  obtain ⟨-, -, hsample⟩ := hover _ hskips hdiffer
  exact ⟨hsize, hskips, hsample (powerOn 1 true) 0 2 (.start _), rfl⟩

end Machine
end EffectsDsp
