/-
  EffectsDsp.Proofs.ClampCount

  No clamp is lost, and none is counted twice. On its way to a counter a clamp travels within
  a value: an operation takes over the clamps of its operand, a copy has them too, and taking
  the count leaves none behind.

  A `Computation` says apart from this what an instruction computes: which sums, differences,
  products and magnitudes of the numbers that it finds, each brought into its range before the
  next one sees it. `clamped` is the number of those that do not fit the datapath. A fixed-point
  value that `Follows` a computation has its number and as many clamps, so that the counters of
  a machine grow by what its instructions clamp, one by one and over every run.
-/

import EffectsDsp.Proofs.Effect
import EffectsDsp.Proofs.Trace

namespace EffectsDsp

/-! ## Computations -/

/-- A computation on numbers. -/
inductive Computation where
  /-- A number that the instruction finds, and whether what is computed from it saturates. -/
  | found (saturating : Bool) (number : Int)
  | sum (x y : Computation)
  | difference (x y : Computation)
  | product (x y : Computation)
  | magnitude (x : Computation)

namespace Computation

/-- The number of a value. -/
def ofFixed (x : Fixed) : Computation :=
  .found x.saturating x.raw.toInt

instance : Coe Fixed Computation := ⟨ofFixed⟩

/-- Results saturate if those of the first operand do. -/
def saturating : Computation → Bool
  | found mode _ => mode
  | sum x _ | difference x _ | product x _ | magnitude x => x.saturating

/-- The number that is kept of an exact result: within the datapath, or within the container
    if results do not saturate. -/
def kept (saturating : Bool) (exact : Int) : Int :=
  if saturating then clampInt datapathMin datapathMax exact
  else clampInt (-2147483648) 2147483647 exact

/-- The product of two numbers of units of 2^-23, rounded down. -/
def scaled (x y : Int) : Int :=
  (x * y) >>> (23 : Nat)

/-- The number that comes out. -/
def value : Computation → Int
  | found _ v => v
  | sum x y => kept x.saturating (x.value + y.value)
  | difference x y => kept x.saturating (x.value - y.value)
  | product x y => kept x.saturating (scaled x.value y.value)
  | magnitude x => kept x.saturating x.value.natAbs

/-- The exact results of all operations. -/
def results : Computation → List Int
  | found _ _ => []
  | sum x y => x.results ++ y.results ++ [x.value + y.value]
  | difference x y => x.results ++ y.results ++ [x.value - y.value]
  | product x y => x.results ++ y.results ++ [scaled x.value y.value]
  | magnitude x => x.results ++ [(x.value.natAbs : Int)]

/-- The number of operations whose exact result does not fit the datapath. -/
def clamped (e : Computation) : Nat :=
  e.results.countP fun v => ¬ InDatapath v

theorem clamped_le (e : Computation) : e.clamped ≤ e.results.length :=
  List.countP_le_length

/-- One operation more. -/
theorem countP_concat (results : List Int) (exact : Int) :
    (results ++ [exact]).countP (fun v => ¬ InDatapath v) =
      results.countP (fun v => ¬ InDatapath v) + if InDatapath exact then 0 else 1 := by
  rw [List.countP_append, List.countP_singleton]
  by_cases h : InDatapath exact
  · simp [h]
  · simp [h]

end Computation

/-! ## Values and computations -/

namespace Fixed

/-- The value is what the computation comes to, with the clamps that were made on the way. -/
structure Follows (x : Fixed) (e : Computation) : Prop where
  number : x.raw.toInt = e.value
  saturating : x.saturating = e.saturating
  /-- A value counts no further than its width allows. -/
  clamps : x.clamps.toNat = min e.clamped 65535

theorem toInt_bounded (mode : Bool) (exact : Int) :
    (bounded mode exact).toInt = Computation.kept mode exact := by
  unfold bounded Computation.kept
  cases mode with
  | true => exact toInt_ofInt_clampInt (by decide) (by decide) (by decide) exact
  | false => exact toInt_ofInt_clampInt (by decide) (by decide) (by decide) exact

namespace Follows

variable {x y : Fixed} {e f : Computation}

/-- A value without clamps is found as it is. -/
theorem ofFixed (h : x.clamps = 0) : x.Follows (.ofFixed x) where
  number := rfl
  saturating := rfl
  clamps := by
    rw [h]
    rfl

/-- An operation has the clamps of both operands and its own. The results of the operand are
    none for an operation that has one operand only. -/
theorem store (hx : x.Follows e) {operand : List Int} {inherited : UInt16}
    (hinherited : inherited.toNat = min (operand.countP fun v => ¬ InDatapath v) 65535)
    {exact : Int} {g : Computation} (hvalue : g.value = Computation.kept e.saturating exact)
    (hsaturating : g.saturating = e.saturating)
    (hresults : g.results = e.results ++ operand ++ [exact]) :
    (x.store exact inherited).Follows g where
  number := by
    rw [hvalue, ← hx.saturating]
    exact toInt_bounded x.saturating exact
  saturating := hx.saturating.trans hsaturating.symm
  clamps := by
    have hlast : (if InDatapath exact then (0 : UInt16) else 1).toNat =
        if InDatapath exact then 0 else 1 := by
      split <;> rfl
    have hcount : g.clamped = e.clamped + (operand.countP fun v => ¬ InDatapath v) +
        if InDatapath exact then 0 else 1 := by
      unfold Computation.clamped
      rw [hresults, Computation.countP_concat, List.countP_append]
    show (addClamps (addClamps x.clamps inherited) _).toNat = _
    rw [toNat_addClamps, toNat_addClamps, hx.clamps, hinherited, hlast, hcount]
    -- Counts that stop at the width on the way stop there in the end.
    omega

theorem add (hx : x.Follows e) (hy : y.Follows f) : (x.add y).Follows (.sum e f) := by
  unfold Fixed.add
  rw [hx.number, hy.number]
  exact hx.store hy.clamps rfl rfl rfl

theorem sub (hx : x.Follows e) (hy : y.Follows f) : (x.sub y).Follows (.difference e f) := by
  unfold Fixed.sub
  rw [hx.number, hy.number]
  exact hx.store hy.clamps rfl rfl rfl

theorem mul (hx : x.Follows e) (hy : y.Follows f) : (x.mul y).Follows (.product e f) := by
  unfold Fixed.mul
  rw [hx.number, hy.number]
  exact hx.store hy.clamps rfl rfl rfl

theorem abs (hx : x.Follows e) : x.abs.Follows (.magnitude e) := by
  -- There is no other operand, and so there are no results and no clamps of one.
  have hresults : (Computation.magnitude e).results =
      e.results ++ [] ++ [(e.value.natAbs : Int)] := by
    rw [List.append_nil]
    rfl
  unfold Fixed.abs
  rw [hx.number]
  exact hx.store rfl rfl rfl hresults

/-- A value whose clamps were counted is found anew. -/
theorem withoutClamps (hx : x.Follows e) :
    x.withoutClamps.Follows (.found e.saturating e.value) where
  number := hx.number
  saturating := hx.saturating
  clamps := rfl

/-- The larger of two values that were counted has the larger number. -/
theorem larger {a b : Bool} {v w : Int} (hx : x.Follows (.found a v)) (hy : y.Follows (.found b w))
    (mode : Bool) : ((x.larger y).withSaturating mode).Follows (.found mode (max v w)) := by
  have hxv : x.raw.toInt = v := hx.number
  have hyw : y.raw.toInt = w := hy.number
  unfold Fixed.larger
  by_cases hlt : x.raw < y.raw
  · have hmax : max v w = w := by
      have := Int32.lt_iff_toInt_lt.mp hlt
      omega
    rw [if_pos hlt, hmax]
    exact ⟨hyw, rfl, hy.clamps⟩
  · have hmax : max v w = v := by
      have := Int32.le_iff_toInt_le.mp (Int32.not_lt.mp hlt)
      omega
    rw [if_neg hlt, hmax]
    exact ⟨hxv, rfl, hx.clamps⟩

/-- A count that fits the width is exact. -/
theorem toUInt64_clamps (hx : x.Follows e) (hsmall : e.results.length ≤ 3) :
    x.clamps.toUInt64 = UInt64.ofNat e.clamped := by
  have hclamped := e.clamped_le
  have hclamps := hx.clamps
  rw [← UInt64.toNat_inj, UInt16.toNat_toUInt64, UInt64.toNat_ofNat_of_lt']
  · omega
  · have hsize : 65536 ≤ UInt64.size := by decide
    omega

end Follows
end Fixed

/-! ## What an instruction computes -/

namespace Machine

/-- The difference that WRLX scales. -/
def differenceComputation (m : Machine) : Computation :=
  .difference (m.value m.pacc) m.acc

/-- The magnitude that MAXX compares the accumulator with. -/
def magnitudeComputation (m : Machine) (op : Operation) : Computation :=
  .magnitude (.product (m.value (m.regs.read op.registerAddress)) (op.real .coefficient))

/-- The computation that ends with the new accumulator. What reads bits, compares or loads is no
    operation on numbers, and neither are logarithm and exponential. -/
def accComputation (m : Machine) (op : Operation) : Computation :=
  let c := op.real .coefficient
  let d := op.real .offset
  let register := m.regs.read op.registerAddress
  match op.mnemonic with
  | .rda => .sum m.acc (.product (m.delayWord (op.bits .address).toInt32) c)
  | .rmpa => .sum m.acc (.product (m.delayWord m.indirectOffset) c)
  | .wra | .wrax => .product m.acc c
  | .wrap => .sum (.product m.acc c) m.lr
  | .rdax => .sum m.acc (.product (m.value register) c)
  | .rdfx => .sum (.product (.difference m.acc register) c) register
  | .ldax => m.value register
  | .wrhx => .sum (.product m.acc c) m.pacc
  | .wrlx => .sum (.product (.found m.saturating m.differenceComputation.value) c) m.pacc
  | .maxx =>
    .found m.saturating (max (Computation.magnitude m.acc).value (m.magnitudeComputation op).value)
  | .absa => .magnitude m.acc
  | .mulx => .product m.acc register
  | .log => .sum (.product (m.value (logarithm m.acc)) c) d
  | .exp => .sum (.product (m.value (exponential m.acc)) c) d
  | .sof => .sum (.product (m.value m.acc) c) d
  | .and | .clr => m.acc.and (op.bits .mask)
  | .or => m.acc.or (op.bits .mask)
  | .xor => m.acc.xor (op.bits .mask)
  | .not => m.acc.not
  | .choRda =>
    let (offset, scale) := m.chorusDisplacement op
    .sum m.acc
      (.product (m.delayWord ((op.bits .address).toInt32 + offset)) (Fixed.ofFloat scale))
  | .choSof =>
    .sum (.product m.acc (m.chorusCoefficient op)) (Fixed.ofQ (op.bits .address) .fraction16)
  | .choRdal => .sum (m.value .zero) (m.chorusCoefficient op)
  | .skp | .nop | .wlds | .wldr | .jam | .choReserved => m.acc

/-- The computations whose clamps belong to the accumulator. -/
def accComputations (m : Machine) (op : Operation) : List Computation :=
  match op.mnemonic with
  | .maxx => [m.magnitudeComputation op, .magnitude m.acc, m.accComputation op]
  | _ => [m.accComputation op]

/-- The computations whose clamps are counted apart. -/
def paccComputations (m : Machine) (op : Operation) : List Computation :=
  match op.mnemonic with
  | .wrlx => [m.differenceComputation]
  | _ => []

/-- The number of operations in all of the computations whose exact result does not fit the
    datapath. -/
def clampedIn (computations : List Computation) : Nat :=
  (computations.flatMap Computation.results).countP fun v => ¬ InDatapath v

theorem clampedIn_append (es fs : List Computation) :
    clampedIn (es ++ fs) = clampedIn es + clampedIn fs := by
  unfold clampedIn
  rw [List.flatMap_append, List.countP_append]

theorem clampedIn_cons (e : Computation) (es : List Computation) :
    clampedIn (e :: es) = e.clamped + clampedIn es := by
  unfold clampedIn
  rw [List.flatMap_cons, List.countP_append]
  rfl

theorem clampedIn_singleton (e : Computation) : clampedIn [e] = e.clamped :=
  clampedIn_cons e []

/-! ## Machines without pending clamps -/

/-- No value of the machine has clamps behind it that are still to be counted. -/
structure Settled (m : Machine) : Prop where
  acc : m.acc.clamps = 0
  pacc : m.pacc.clamps = 0
  lr : m.lr.clamps = 0
  regs : ∀ address x, m.regs.slot address = .audio x → x.clamps = 0

namespace Settled

variable {m : Machine}

/-- A parameter that is read has no clamps. -/
theorem clamps_read (h : m.Settled) (address : UInt8) : (m.regs.read address).clamps = 0 := by
  unfold RegisterFile.read
  cases hslot : m.regs.slot address with
  | config v =>
    unfold Register.read
    dsimp only
    split <;> rfl
  | audio x => exact h.regs address x hslot

theorem write (h : m.Settled) (address : UInt8) {x : Fixed} (hx : x.clamps = 0) :
    { m with regs := m.regs.write address x }.Settled := by
  refine { h with regs := fun other y hslot => ?_ }
  obtain ⟨-, rfl⟩ | hold := RegisterFile.audio_of_slot_write hslot
  · exact hx
  · exact h.regs other y hold

theorem setConfig (h : m.Settled) (address : UInt8) (value : Int32) :
    { m with regs := m.regs.setConfig address value }.Settled := by
  refine { h with regs := fun other x hslot => ?_ }
  exact h.regs other x (RegisterFile.audio_of_slot_setConfig hslot)

theorem loadDelay (h : m.Settled) (offset : Int32) : (m.loadDelay offset).Settled := by
  unfold Machine.loadDelay
  rw [noteAccess_eq]
  exact { h with lr := rfl }

theorem writeDelay (h : m.Settled) (offset : Int32) (v : Fixed) :
    (m.writeDelay offset v).Settled := by
  unfold Machine.writeDelay
  rw [noteSample_eq, noteAccess_eq]
  exact { h with }

theorem programLfo (h : m.Settled) (lfo : LfoSelect) (p : LfoParam) (raw : Int32) :
    (m.programLfo lfo p raw).Settled := by
  obtain ⟨diagnostics, heq⟩ := programLfo_eq m lfo p raw
  rw [heq]
  exact { h.setConfig _ _ with }

theorem loadSine (h : m.Settled) (lfo : LfoSelect) (rate amplitude : Int32) :
    (m.loadSine lfo rate amplitude).Settled := by
  obtain ⟨diagnostics, heq⟩ := loadSine_eq m lfo rate amplitude
  rw [heq]
  exact { (h.setConfig _ _).setConfig _ _ with }

theorem loadRamp (h : m.Settled) (lfo : LfoSelect) (rate? : Option Int32) (idx : UInt32) :
    (m.loadRamp lfo rate? idx).Settled := by
  obtain ⟨diagnostics, heq⟩ := loadRamp_eq m lfo rate? idx
  rw [heq]
  exact { (h.setConfig _ _).setConfig _ _ with }

/-- The accumulator that a program writes was counted before. -/
theorem writeRegister (h : m.Settled) (address : UInt8) : (m.writeRegister address).Settled := by
  unfold Machine.writeRegister
  split
  · exact h.programLfo _ _ _
  · rw [noteRail_eq]
    exact { h.write address h.acc with }

theorem outward (h : m.Settled) (op : Operation) : (m.outward op).Settled := by
  unfold Machine.outward
  cases op.mnemonic with
  | rda | rmpa | choRda => exact h.loadDelay _
  | wra | wrap => exact h.writeDelay _ _
  | wrax | wrhx | wrlx => exact h.writeRegister _
  | wlds => exact h.loadSine _ _ _
  | wldr => exact h.loadRamp _ _ _
  | jam => exact { h with }
  | _ => exact h

/-- An instruction leaves no clamps behind that it does not count. -/
theorem execute (h : m.Settled) (op : Operation) : (m.execute op).Settled := by
  have houtward := h.outward op
  refine ⟨?_, ?_, ?_, ?_⟩
  · rw [acc_execute, Fixed.clamps_withoutClamps]
  · rw [pacc_execute]
    split
    · exact h.acc
    · exact h.pacc
  · rw [lr_execute]
    exact houtward.lr
  · rw [regs_execute]
    exact houtward.regs

end Settled

/-! ## The count of an instruction -/

variable {m : Machine}

/-- No operand of an instruction word has clamps. -/
theorem clamps_real (op : Operation) (role : Role) : (op.real role).clamps = 0 := by
  unfold Operation.real
  cases op.operand? role with
  | none => rfl
  | some a =>
    show a.real.clamps = 0
    unfold Operand.real
    split <;> rfl

theorem lr_writeDelay (m : Machine) (offset : Int32) (v : Fixed) :
    (m.writeDelay offset v).lr = m.lr := by
  unfold writeDelay
  rw [noteSample_eq, noteAccess_eq]

theorem follows_word (m : Machine) (offset : Int32) :
    (m.delayWord offset).Follows (m.delayWord offset) :=
  .ofFixed rfl

theorem Settled.follows_register (h : m.Settled) (address : UInt8) :
    (m.regs.read address).Follows (m.regs.read address) :=
  .ofFixed (h.clamps_read address)

/-- What is brought into the mode of the machine may have had any mode before. -/
theorem follows_value (m : Machine) {x : Fixed} (hx : x.clamps = 0) :
    (m.value x).Follows (m.value x) :=
  .ofFixed hx

theorem clamps_exponential (x : Fixed) : (exponential x).clamps = 0 := by
  unfold exponential
  split <;> rfl

theorem Settled.follows_acc (h : m.Settled) (op : Operation) :
    (m.outward op).acc.Follows m.acc := by
  rw [(framed_outward m op).acc]
  exact .ofFixed h.acc

theorem Settled.follows_pacc (h : m.Settled) (op : Operation) :
    (m.outward op).pacc.Follows m.pacc := by
  rw [(framed_outward m op).pacc]
  exact .ofFixed h.pacc

theorem Settled.follows_difference (h : m.Settled) (op : Operation) :
    (m.outward op).accDifference.Follows m.differenceComputation := by
  unfold accDifference value
  rw [(framed_outward m op).pacc, (framed_outward m op).saturating]
  exact (m.follows_value h.pacc).sub (h.follows_acc op)

theorem Settled.follows_magnitude (h : m.Settled) (op : Operation) :
    (m.scaledMagnitude op).Follows (m.magnitudeComputation op) :=
  ((m.follows_value (h.clamps_read _)).mul (.ofFixed (clamps_real op _))).abs

/-- The accumulator that an instruction leaves follows its computation. -/
theorem Settled.follows_computed (h : m.Settled) (op : Operation) :
    ((m.outward op).computed op).Follows (m.accComputation op) := by
  have hacc := h.follows_acc op
  have hpacc := h.follows_pacc op
  have hdifference := h.follows_difference op
  have hregister := h.follows_register op.registerAddress
  have hc : (op.real .coefficient).Follows (op.real .coefficient) := .ofFixed (clamps_real op _)
  have hd : (op.real .offset).Follows (op.real .offset) := .ofFixed (clamps_real op _)
  have hmagnitude := h.follows_magnitude op
  have hmoved : ∀ offset, (m.loadDelay offset).chorusDisplacement op = m.chorusDisplacement op :=
    fun offset => chorusDisplacement_loadDelay m offset op
  -- Once the mnemonic is known, value and computation are built up in the same way.
  obtain ⟨mnemonic, operands, word⟩ := op
  cases mnemonic with
  | rda | rmpa => exact hacc.add ((m.follows_word _).mul hc)
  | wra | wrax => exact hacc.mul hc
  | wrap =>
    -- The word in LR is the one that was read last, which a write does not change.
    have hlr : (m.outward ⟨.wrap, operands, word⟩).lr.Follows m.lr := by
      rw [show (m.outward ⟨.wrap, operands, word⟩).lr = m.lr from lr_writeDelay m _ _]
      exact .ofFixed h.lr
    exact (hacc.mul hc).add hlr
  | rdax => exact hacc.add ((m.follows_value (h.clamps_read _)).mul hc)
  | rdfx => exact ((hacc.sub hregister).mul hc).add hregister
  | ldax => exact m.follows_value (h.clamps_read _)
  | wrhx => exact (hacc.mul hc).add hpacc
  | wrlx => exact (hdifference.withoutClamps.mul hc).add hpacc
  | maxx =>
    -- Both magnitudes were counted when they are compared.
    exact hacc.abs.withoutClamps.larger hmagnitude.withoutClamps m.saturating
  | absa => exact hacc.abs
  | mulx => exact hacc.mul hregister
  | log => exact ((m.follows_value rfl).mul hc).add hd
  | exp => exact ((m.follows_value (clamps_exponential _)).mul hc).add hd
  | sof => exact ((m.follows_value h.acc).mul hc).add hd
  | and | clr | or | xor | not => exact .ofFixed h.acc
  | choRda =>
    have hself : (m.outward ⟨.choRda, operands, word⟩).chorusDisplacement
        ⟨.choRda, operands, word⟩ = m.chorusDisplacement ⟨.choRda, operands, word⟩ := hmoved _
    unfold computed
    simp only [hself]
    exact hacc.add ((m.follows_word _).mul (.ofFixed rfl))
  | choSof => exact (hacc.mul (.ofFixed rfl)).add (.ofFixed rfl)
  | choRdal => exact (m.follows_value rfl).add (.ofFixed rfl)
  | skp | nop | wlds | wldr | jam | choReserved => exact hacc

/-! ### Counters -/

/-- No computation has more than three operations, so that no count reaches its width. -/
theorem length_results_accComputation (m : Machine) (op : Operation) :
    (m.accComputation op).results.length ≤ 3 := by
  unfold accComputation
  cases op.mnemonic <;> simp [Computation.results, Computation.ofFixed]

theorem length_results_magnitude (m : Machine) (op : Operation) :
    (m.magnitudeComputation op).results.length ≤ 3 := by
  simp [magnitudeComputation, Computation.results, Computation.ofFixed]

theorem length_results_difference (m : Machine) : m.differenceComputation.results.length ≤ 3 := by
  simp [differenceComputation, Computation.results, Computation.ofFixed]

/-- The clamps that are counted for the accumulator are those of its computations. -/
theorem Settled.accClamps_eq (h : m.Settled) (op : Operation) :
    (m.outward op).accClamps op = UInt64.ofNat (clampedIn (m.accComputations op)) := by
  have hcomputed := (h.follows_computed op).toUInt64_clamps (m.length_results_accComputation op)
  have hmagnitude := (h.follows_magnitude op).toUInt64_clamps (m.length_results_magnitude op)
  unfold accClamps earlyClamps accComputations
  rw [hcomputed]
  cases hmnemonic : op.mnemonic with
  | maxx =>
    have hself : m.outward op = m := by
      unfold Machine.outward
      rw [hmnemonic]
    have hacc : m.acc.abs.clamps.toUInt64 = UInt64.ofNat (Computation.magnitude m.acc).clamped := by
      apply (Fixed.Follows.ofFixed h.acc).abs.toUInt64_clamps
      simp [Computation.results, Computation.ofFixed]
    rw [clampedIn_cons, clampedIn_cons, clampedIn_singleton, UInt64.ofNat_add, UInt64.ofNat_add,
      ← UInt64.add_assoc, ← hmagnitude, ← hacc, hself]
  | _ =>
    rw [clampedIn_singleton]
    exact UInt64.zero_add _

theorem Settled.paccClamps_eq (h : m.Settled) (op : Operation) :
    (m.outward op).paccClamps op = UInt64.ofNat (clampedIn (m.paccComputations op)) := by
  have hdifference := (h.follows_difference op).toUInt64_clamps m.length_results_difference
  unfold paccClamps paccComputations
  cases op.mnemonic with
  | wrlx =>
    rw [clampedIn_singleton]
    exact hdifference
  | _ => rfl

/-- An instruction has at most three operations. -/
theorem clampedIn_accComputations_le (m : Machine) (op : Operation) :
    clampedIn (m.accComputations op) ≤ 3 := by
  apply Nat.le_trans List.countP_le_length
  unfold accComputations accComputation
  cases op.mnemonic <;> simp [magnitudeComputation, Computation.results, Computation.ofFixed]

theorem clampedIn_paccComputations_le (m : Machine) (op : Operation) :
    clampedIn (m.paccComputations op) ≤ 3 := by
  apply Nat.le_trans List.countP_le_length
  unfold paccComputations
  cases op.mnemonic <;> simp [differenceComputation, Computation.results, Computation.ofFixed]

/-! ## Runs -/

/-- The clamps that instructions count for the accumulator. -/
def accClamped (executed : List Executed) : Nat :=
  clampedIn (executed.flatMap fun e => e.before.accComputations e.op)

/-- The clamps that instructions count for a difference. -/
def paccClamped (executed : List Executed) : Nat :=
  clampedIn (executed.flatMap fun e => e.before.paccComputations e.op)

theorem accClamped_singleton (m : Machine) (op : Operation) :
    accClamped [⟨m, op⟩] = clampedIn (m.accComputations op) := by
  unfold accClamped
  rw [List.flatMap_singleton]

theorem paccClamped_singleton (m : Machine) (op : Operation) :
    paccClamped [⟨m, op⟩] = clampedIn (m.paccComputations op) := by
  unfold paccClamped
  rw [List.flatMap_singleton]

/-- From `m` to `n` the counters grow by the clamps of the instructions in between. Counters
    wrap at their width. -/
structure Counted (m : Machine) (executed : List Executed) (n : Machine) : Prop where
  settled : n.Settled
  acc : n.diagnostics.accOverflows =
    m.diagnostics.accOverflows + UInt64.ofNat (accClamped executed)
  pacc : n.diagnostics.paccOverflows =
    m.diagnostics.paccOverflows + UInt64.ofNat (paccClamped executed)

namespace Counted

variable {m n k : Machine} {first second : List Executed}

/-- What executes nothing counts nothing. -/
theorem nil (h : n.Settled) (hdiagnostics : n.diagnostics = m.diagnostics) : Counted m [] n where
  settled := h
  acc := by
    rw [hdiagnostics]
    exact (UInt64.add_zero _).symm
  pacc := by
    rw [hdiagnostics]
    exact (UInt64.add_zero _).symm

theorem append (h : Counted m first n) (h' : Counted n second k) :
    Counted m (first ++ second) k where
  settled := h'.settled
  acc := by
    unfold accClamped
    rw [h'.acc, h.acc, List.flatMap_append, clampedIn_append, UInt64.ofNat_add, UInt64.add_assoc]
    rfl
  pacc := by
    unfold paccClamped
    rw [h'.pacc, h.pacc, List.flatMap_append, clampedIn_append, UInt64.ofNat_add,
      UInt64.add_assoc]
    rfl

theorem execute (h : m.Settled) (op : Operation) : Counted m [⟨m, op⟩] (m.execute op) where
  settled := h.execute op
  acc := by
    rw [diagnostics_execute, accClamped_singleton, ← h.accClamps_eq op]
  pacc := by
    rw [diagnostics_execute, paccClamped_singleton, ← h.paccClamps_eq op]

/-- Machines without pending clamps stay so, and their counters count along every run. -/
theorem traceLaw :
    TraceLaw (fun _ => True) fun m executed n => m.Settled → Counted m executed n where
  refl _ h := .nil h rfl
  trans hfirst hsecond h := (hfirst h).append (hsecond (hfirst h).settled)
  execute _ op _ h := .execute h op
  endSample _ h := .nil { h with } rfl

end Counted

end Machine

/-! ## Calls -/

/-- The call brings no clamps to the machine, and does not start the counts again. -/
def HostCall.IsClean : HostCall → Prop
  | .process _ _ left right | .setInputs left right => left.clamps = 0 ∧ right.clamps = 0
  | .setPot _ value => value.clamps = 0
  | .reset => False
  | _ => True

namespace Machine

variable {m : Machine}

namespace Settled

theorem powerOn (size : Nat) (saturating : Bool) : (Machine.powerOn size saturating).Settled where
  acc := rfl
  pacc := rfl
  lr := rfl
  regs address x hslot := by
    have hinitial : RegisterFile.initial.slot address = .audio x := hslot
    rw [RegisterFile.slot_initial] at hinitial
    split at hinitial
    · cases hinitial
    · obtain rfl := Register.audio.inj hinitial
      rfl

theorem setInputs (h : m.Settled) {left right : Fixed} (hleft : left.clamps = 0)
    (hright : right.clamps = 0) : (m.setInputs left right).Settled :=
  (h.write Address.inputLeft (x := left.withFormat .sample) hleft).write Address.inputRight
    (x := right.withFormat .sample) hright

theorem frameStart (h : m.Settled) {left right : Fixed} (hleft : left.clamps = 0)
    (hright : right.clamps = 0) : (m.frameStart left right).Settled :=
  { h.setInputs hleft hright with }

theorem setPot (h : m.Settled) (pot : Nat) {value : Fixed} (hvalue : value.clamps = 0) :
    (m.setPot pot value).Settled := by
  unfold Machine.setPot
  split
  · exact h.write _ hvalue
  · exact h

end Settled

namespace Counted

/-- Nothing is counted before the first instruction of a call. -/
theorem opening (h : m.Settled) {call : HostCall} (hcall : call.IsClean) :
    Counted m [] (call.opening m) := by
  refine .nil ?_ (m.diagnostics_opening ?_)
  · cases call with
    | process limit program left right => exact h.frameStart hcall.1 hcall.2
    | setInputs left right => exact h.setInputs hcall.1 hcall.2
    | setPot pot value => exact h.setPot pot hcall
    | reset => cases hcall
    | _ => exact { h with }
  · rintro rfl
    cases hcall

theorem calls (h : m.Settled) {calls : List HostCall} (hcalls : ∀ call ∈ calls, call.IsClean) :
    Counted m (executedIn calls m) (afterCalls calls m) :=
  traceLaw.calls (fun _ _ _ _ => trivial) (fun call hcall _ hn => .opening hn (hcalls call hcall))
    m h

end Counted

/-- The counters of a machine without pending clamps grow by the operations whose exact result
    does not fit the datapath: by those of an instruction, which leaves no clamps pending, and by
    those of all instructions of a run. The difference of WRLX is counted apart from all others,
    and as long as the counters do not wrap, their numbers say how many there were. -/
theorem clamps_counted_once (h : m.Settled) :
    (∀ op : Operation,
      m.diagnostics.accOverflows.toNat < UInt64.size - 4 →
        m.diagnostics.paccOverflows.toNat < UInt64.size - 4 →
          (m.execute op).diagnostics.accOverflows.toNat =
              m.diagnostics.accOverflows.toNat + clampedIn (m.accComputations op) ∧
            (m.execute op).diagnostics.paccOverflows.toNat =
              m.diagnostics.paccOverflows.toNat + clampedIn (m.paccComputations op) ∧
            (m.execute op).Settled) ∧
      ∀ calls : List HostCall, (∀ call ∈ calls, call.IsClean) →
        m.diagnostics.accOverflows.toNat + accClamped (executedIn calls m) < UInt64.size →
          m.diagnostics.paccOverflows.toNat + paccClamped (executedIn calls m) < UInt64.size →
            (afterCalls calls m).diagnostics.accOverflows.toNat =
                m.diagnostics.accOverflows.toNat + accClamped (executedIn calls m) ∧
              (afterCalls calls m).diagnostics.paccOverflows.toNat =
                m.diagnostics.paccOverflows.toNat + paccClamped (executedIn calls m) ∧
              (afterCalls calls m).Settled := by
  constructor
  · intro op hacc hpacc
    have hcounted := Counted.execute h op
    have haccLe := m.clampedIn_accComputations_le op
    have hpaccLe := m.clampedIn_paccComputations_le op
    rw [hcounted.acc, hcounted.pacc, accClamped_singleton, paccClamped_singleton]
    exact ⟨toNat_add_ofNat (by omega), toNat_add_ofNat (by omega), hcounted.settled⟩
  · intro calls hcalls hacc hpacc
    have hcounted := Counted.calls h hcalls
    rw [hcounted.acc, hcounted.pacc]
    exact ⟨toNat_add_ofNat hacc, toNat_add_ofNat hpacc, hcounted.settled⟩

/-- A machine whose accumulators are at the two ends of the datapath. -/
def swung : Machine :=
  { powerOn 1 true with acc := .ofRaw (-8388608), pacc := .ofRaw 8388607 }

/-- WRLX REG0, 1.0. -/
def shelveRegister : Operation :=
  ⟨.wrlx, [⟨⟨.register, 6, .unsigned⟩, 0x20⟩,
    ⟨⟨.coefficient, 16, .real .coefficient16⟩, 0x4000⟩], 0⟩

/-- The first WRLX computes a difference that clamps and a sum that clamps again, and from
    there the second one swings back. -/
theorem clamps_counted_once_swung :
    swung.Settled ∧
      (swung.execute shelveRegister).diagnostics.accOverflows.toNat = 1 ∧
      (swung.execute shelveRegister).diagnostics.paccOverflows.toNat = 1 ∧
      (afterCalls [.runSample 2 #[shelveRegister, shelveRegister]]
        swung).diagnostics.accOverflows.toNat = 2 := by
  have hsettled : swung.Settled := { Settled.powerOn 1 true with acc := rfl, pacc := rfl }
  have hacc : clampedIn (swung.accComputations shelveRegister) = 1 := by decide
  have hpacc : clampedIn (swung.paccComputations shelveRegister) = 1 := by decide
  have hrun : accClamped (executedIn [.runSample 2 #[shelveRegister, shelveRegister]] swung) = 2 ∧
      paccClamped (executedIn [.runSample 2 #[shelveRegister, shelveRegister]] swung) = 2 := by
    decide
  have hclean : ∀ call ∈ [HostCall.runSample 2 #[shelveRegister, shelveRegister]],
      call.IsClean := by
    intro call hcall
    obtain rfl := List.mem_singleton.mp hcall
    trivial
  obtain ⟨hinstruction, hcalls⟩ := clamps_counted_once hsettled
  obtain ⟨haccAfter, hpaccAfter, -⟩ := hinstruction shelveRegister (by decide) (by decide)
  obtain ⟨hrunAfter, -, -⟩ := hcalls _ hclean (by rw [hrun.1]; decide) (by rw [hrun.2]; decide)
  rw [haccAfter, hpaccAfter, hrunAfter, hacc, hpacc, hrun.1]
  exact ⟨hsettled, rfl, rfl, rfl⟩

end Machine
end EffectsDsp
