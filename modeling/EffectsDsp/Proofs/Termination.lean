/-
  EffectsDsp.Proofs.Termination

  Samples come to an end. An instruction leads forwards only, so that a run has no more
  instructions than the program (`Running.reaches`), and as it stays inside the program there
  is no way to fail but for a flag or a reserved encoding. The second kind is not in a decoded
  program.

  A limit matters only where it is too small. Then the machine is left in the middle of a run,
  which can be finished step by step and finishes as it would have done anyway.
-/

import EffectsDsp.Proofs.Faults
import EffectsDsp.Proofs.ProgramImage

namespace EffectsDsp
namespace Machine

variable {program : Program} {m n n' : Machine} {j k : Nat} {op : Operation}

/-! ## Forwards only -/

theorem ip_lt_size (hop : m.current? program = some op) : m.ip.toNat < program.size :=
  (Array.getElem?_eq_some_iff.mp (Option.filter_eq_some_iff.mp hop).1).1

/-- The next instruction is behind the executed one. An array takes at most half of the address
    space, which is short enough for no distance to wrap around the instruction pointer. -/
theorem ip_lt_execute (hsize : 2 * program.size < UInt64.size)
    (hop : m.current? program = some op) : m.ip.toNat < (m.execute op).ip.toNat := by
  have hip := ip_lt_size hop
  have hdistance : (op.bits .distance).toUInt64.toNat < 4294967296 :=
    (UInt32.toNat_toUInt64 _).symm ▸ (op.bits .distance).toNat_lt
  -- Neither sum comes to the width of the instruction pointer.
  have hwidth : 2 * program.size < 18446744073709551616 := hsize
  show m.ip.toNat < (m.nextIp op).toNat
  unfold nextIp
  split
  · rw [UInt64.toNat_add, UInt64.toNat_add, UInt64.toNat_one]
    omega
  · rw [UInt64.toNat_add, UInt64.toNat_one]
    omega

namespace Running

/-- Every instruction of a run leads at least one further. -/
theorem reaches (hsize : 2 * program.size < UInt64.size) (h : Running program k m n) :
    m.ip.toNat + k ≤ n.ip.toNat := by
  induction h with
  | start => exact Nat.le_refl _
  | execute hop hinside _ ih =>
    have hforwards := ip_lt_execute hsize hop
    omega

/-- A run that starts in the program stays there. -/
theorem inside (h : Running program k m n) (hm : m.ip.toNat < program.size) :
    n.ip.toNat < program.size := by
  induction h with
  | start => exact hm
  | execute _ hinside _ ih => exact ih hinside

/-- A run of a sample is shorter than the program, and one that has not begun has no length. -/
theorem length_lt (hsize : 2 * program.size < UInt64.size)
    (h : Running program k { m with ip := 0 } n) : k < max 1 program.size := by
  have hreaches := h.reaches hsize
  cases k with
  | zero => omega
  | succ k =>
    -- There is a first instruction, so the last index is one of the program.
    obtain _ | ⟨hop, hinside, hrest⟩ := h
    have hlast := hrest.inside hinside
    omega

/-- What is left of a run when its first instructions have been executed. -/
theorem rest (h : Running program j m n) (h' : Running program (j + k) m n') :
    Running program k n n' := by
  induction h with
  | start => rwa [Nat.zero_add] at h'
  | execute hop hinside _ ih =>
    rw [Nat.succ_add] at h'
    exact ih ((running_succ hop hinside).mp h')

/-- The indices that a run comes to increase. -/
theorem ip_lt (hsize : 2 * program.size < UInt64.size) (hjk : j < k)
    (h : Running program j m n) (h' : Running program k m n') : n.ip < n'.ip := by
  obtain ⟨i, rfl⟩ := Nat.le.dest (Nat.le_of_lt hjk)
  have hreaches := (h.rest h').reaches hsize
  rw [UInt64.lt_iff_toNat_lt]
  omega

end Running

theorem step_forwards (hsize : 2 * program.size < UInt64.size) {p : Progress}
    (h : (m.step program).1 = .ok p) : p = .sampleDone ∨ m.ip < (m.step program).2.ip := by
  obtain ⟨op, hop, -, hstep⟩ | ⟨n, hstep⟩ | ⟨e, hstep⟩ := step_cases program m
  · rw [hstep]
    exact .inr (UInt64.lt_iff_toNat_lt.mpr (ip_lt_execute hsize hop))
  · rw [hstep] at h
    exact .inl (Except.ok.inj h).symm
  · rw [hstep] at h
    cases h

/-! ## Limits -/

/-- The limit does not stop the sample. -/
def Suffices (limit : Nat) (program : Program) (m : Machine) : Prop :=
  ∀ number, (m.runSample limit program).1 ≠ .error (.instructionLimit number)

variable {limit : Nat} {e : Fault}

/-- Reasons to refuse an instruction are not about limits. -/
theorem not_refuses_limit {number : Nat} : ¬ Refuses program m (.instructionLimit number) := by
  rintro ⟨⟩

theorem runSample_of_limit {number : Nat}
    (h : m.runSample limit program = (.error (.instructionLimit number), n)) :
    number = limit ∧ Running program limit { m with ip := 0 } n := by
  obtain ⟨k, -, -, hrefuses⟩ | ⟨hrun, hlimit⟩ := runSample_eq_error_iff.mp h
  · exact absurd hrefuses not_refuses_limit
  · exact ⟨Fault.instructionLimit.inj hlimit, hrun⟩

theorem suffices_of_le (hsize : 2 * program.size < UInt64.size)
    (hlimit : max 1 program.size ≤ limit) (m : Machine) : Suffices limit program m := by
  intro number h
  have hrun := (runSample_of_limit (Prod.ext h rfl)).2
  exact absurd (hrun.length_lt hsize) (by omega)

/-- A sample that is not stopped is a run that finishes. -/
theorem Suffices.finishes (h : Suffices limit program m) :
    ∃ k, Finishes program k { m with ip := 0 } (m.runSample limit program) := by
  obtain ⟨k, -, hfinishes⟩ | ⟨n, -, hlimit⟩ :=
    stepsWithin_cases limit program limit { m with ip := 0 }
  · exact ⟨k, hfinishes⟩
  · exact absurd (congrArg Prod.fst hlimit) (h limit)

theorem Suffices.runSample_eq {limit' : Nat} (h : Suffices limit program m)
    (h' : Suffices limit' program m) :
    m.runSample limit program = m.runSample limit' program := by
  obtain ⟨k, hk⟩ := h.finishes
  obtain ⟨k', hk'⟩ := h'.finishes
  exact hk.unique hk'

/-- What a sample that was stopped comes to in the end. -/
theorem Suffices.finishes_rest (h : Suffices limit program m)
    (hrun : Running program j { m with ip := 0 } n) :
    ∃ k, Finishes program k n (m.runSample limit program) := by
  obtain ⟨k, hk⟩ := h.finishes
  obtain ⟨i, rfl⟩ := Nat.le.dest (hrun.le_of_finishes hk)
  exact ⟨i, hrun.finishes_iff.mp hk⟩

/-! ## Faults of samples -/

theorem not_outsideProgram (limit : Nat) (program : Program) (m : Machine) (ip : UInt64) :
    (m.runSample limit program).1 ≠ .error (.outsideProgram ip) := by
  intro h
  obtain ⟨k, -, hrun, hrefuses⟩ | ⟨-, hlimit⟩ := runSample_eq_error_iff.mp (Prod.ext h rfl)
  · obtain ⟨hprogram, hip⟩ := hrefuses
    have hinside := hrun.inside (Nat.pos_of_ne_zero hprogram)
    omega
  · cases hlimit

/-- A program without reserved encodings fails for flags only, if the limit allows. -/
theorem incompatibleFlag_of_error (hknown : ∀ op ∈ program, op.mnemonic ≠ .choReserved)
    (hlimit : Suffices limit program m) (h : (m.runSample limit program).1 = .error e) :
    ∃ ip flag lfo, e = .incompatibleFlag ip flag lfo := by
  obtain ⟨k, -, -, hrefuses⟩ | ⟨-, rfl⟩ := runSample_eq_error_iff.mp (Prod.ext h rfl)
  · obtain _ | ⟨hop, hreserved⟩ | _ := hrefuses
    · exact absurd h (not_outsideProgram limit program m _)
    · exact absurd hreserved (hknown _ (Array.mem_of_getElem? hop))
    · exact ⟨_, _, _, rfl⟩
  · exact absurd h (hlimit limit)

/-- A frame fails as the sample in it does. -/
theorem runSample_of_process {left right : Fixed}
    (h : (m.process limit program left right).1 = .error e) :
    (((m.setInputs left right).advanceLfos).runSample limit program).1 = .error e := by
  unfold process at h
  split at h
  · cases h
  · next heq =>
    obtain rfl := Except.error.inj h
    rw [heq]

/-- A sample ends within the length of its program. Successful steps lead forwards or end the
    sample, so the indices of a run increase and do not leave the program, and a limit of the
    program's length is never reached. A decoded program fails for flags only. A limit that is
    too small leaves the machine after as many instructions, and from there on the steps lead to
    what every sufficient limit gives. All programs that fit in memory are short enough. -/
theorem runSample_ends (hsize : 2 * program.size < UInt64.size) (m : Machine) :
    (∀ p, (m.step program).1 = .ok p → p = .sampleDone ∨ m.ip < (m.step program).2.ip) ∧
      (∀ j k a b, j < k → Running program j { m with ip := 0 } a →
        Running program k { m with ip := 0 } b → a.ip < b.ip) ∧
      (∀ limit, max 1 program.size ≤ limit → Suffices limit program m) ∧
      (∀ limit ip, (m.runSample limit program).1 ≠ .error (.outsideProgram ip)) ∧
      (∀ capacity words, Program.ofWords capacity words = .ok program →
        ∀ limit, max 1 program.size ≤ limit →
          (∀ e, (m.runSample limit program).1 = .error e →
            ∃ ip flag lfo, e = .incompatibleFlag ip flag lfo) ∧
          ∀ left right e, (m.process limit program left right).1 = .error e →
            ∃ ip flag lfo, e = .incompatibleFlag ip flag lfo) ∧
      (∀ limit number n, m.runSample limit program = (.error (.instructionLimit number), n) →
        number = limit ∧ Running program limit { m with ip := 0 } n ∧
          ∀ enough, Suffices enough program m →
            ∃ k, Finishes program k n (m.runSample enough program)) ∧
      ∀ limit limit', Suffices limit program m → Suffices limit' program m →
        m.runSample limit program = m.runSample limit' program := by
  refine ⟨fun p => step_forwards hsize, fun j k a b => Running.ip_lt hsize, ?_,
    fun limit => not_outsideProgram limit program m, ?_, ?_, fun _ _ => Suffices.runSample_eq⟩
  · exact fun limit hlimit => suffices_of_le hsize hlimit m
  · intro capacity words hwords limit hlimit
    have hknown : ∀ op ∈ program, op.mnemonic ≠ .choReserved := fun op hop => by
      obtain ⟨word, hordinary⟩ := (Program.ordinary_of_ofWords hwords).2 op hop
      exact hordinary.2.2
    refine ⟨fun e => incompatibleFlag_of_error hknown (suffices_of_le hsize hlimit m), ?_⟩
    intro left right e h
    exact incompatibleFlag_of_error hknown (suffices_of_le hsize hlimit _) (runSample_of_process h)
  · intro limit number n h
    obtain ⟨hnumber, hrun⟩ := runSample_of_limit h
    exact ⟨hnumber, hrun, fun enough henough => henough.finishes_rest hrun⟩

/-- One instruction is not enough for a program of two, and the second is what is missing. -/
theorem runSample_ends_not_absa :
    2 * (#[⟨.not, [], 0⟩, ⟨.absa, [], 0⟩] : Program).size < UInt64.size ∧
      ((powerOn 1 true).runSample 1 #[⟨.not, [], 0⟩, ⟨.absa, [], 0⟩]).1 =
        .error (.instructionLimit 1) ∧
      ∃ k, Finishes #[⟨.not, [], 0⟩, ⟨.absa, [], 0⟩] k
        ((powerOn 1 true).runSample 1 #[⟨.not, [], 0⟩, ⟨.absa, [], 0⟩]).2
        ((powerOn 1 true).runSample 2 #[⟨.not, [], 0⟩, ⟨.absa, [], 0⟩]) := by
  have hsize : 2 * (#[⟨.not, [], 0⟩, ⟨.absa, [], 0⟩] : Program).size < UInt64.size := by decide
  have hstopped : ((powerOn 1 true).runSample 1 #[⟨.not, [], 0⟩, ⟨.absa, [], 0⟩]).1 =
      .error (.instructionLimit 1) := rfl
  obtain ⟨-, -, hsuffices, -, -, hresumes, -⟩ := runSample_ends hsize (powerOn 1 true)
  exact ⟨hsize, hstopped,
    (hresumes 1 1 _ (Prod.ext hstopped rfl)).2.2 2 (hsuffices 2 (by decide))⟩

end Machine
end EffectsDsp
