/-
  EffectsDsp.Proofs.Structure

  What restoring does not check. The address map wants parameters in the lowest eight slots
  and values in the others, delay memory a pointer within it and words of 24 bits. Bytes that
  are accepted may say otherwise: of a tag, a pointer and a word all values are taken, and
  only a format that cannot be represented is replaced.

  Every machine of the right delay length and mode is therefore reached, structured or not.
  It is the one who keeps the snapshots that has to keep them intact.
-/

import EffectsDsp.Proofs.Mirror
import EffectsDsp.Proofs.Normalisation

namespace EffectsDsp

/-! ## Slots -/

namespace Register

/-- The tag zero stands before a parameter. -/
theorem head?_eq_zero_iff {target r : Register} {bytes rest : List UInt8}
    (h : layout.Reads target bytes r rest) :
    bytes.head? = some 0 ↔ r.config?.isSome = true := by
  obtain ⟨content, hcontent, rfl⟩ := Layout.reads_view.mp h
  obtain ⟨tag, body, rfl, ⟨rfl, v, -, rfl⟩ | ⟨htag, x, -, rfl⟩⟩ := Layout.reads_either.mp hcontent
  · exact iff_of_true rfl rfl
  · refine iff_of_false (fun hhead => htag (Option.some.inj hhead)) ?_
    intro hsome
    cases hsome

theorem length_write (r : Register) :
    (layout.write r).length = if r.config?.isSome = true then 5 else 10 := by
  cases r <;> rfl

end Register

namespace RegisterFile

/-- Every slot has an address. -/
theorem kinded_iff {regs : RegisterFile} :
    regs.Kinded ↔ ∀ i (hi : i < 64), (regs.slots[i].config?.isSome = true ↔ i < 8) := by
  constructor
  · intro h i hi
    have hindex : (index (UInt8.ofNat i)).val = i := by
      show (UInt8.ofNat i).toNat % 64 = i
      rw [UInt8.toNat_ofNat']
      omega
    have haddress := h (UInt8.ofNat i)
    unfold config? slot at haddress
    simp only [Fin.getElem_fin, hindex] at haddress
    exact haddress
  · intro h address
    exact h (index address).val (index address).isLt

/-- Where a slot begins if those before it have their kinds. -/
def place (i : Nat) : Nat :=
  5 * min i 8 + 10 * (i - 8)

/-- The bytes of slots that have their kinds, up to the one with this index. -/
theorem length_flatMap_write {slots : List Register} {i : Nat} (hi : i ≤ slots.length)
    (hkinds : ∀ j (hj : j < slots.length), j < i → (slots[j].config?.isSome = true ↔ j < 8)) :
    ((slots.take i).flatMap Register.layout.write).length = place i := by
  induction i with
  | zero => rfl
  | succ i ih =>
    have hprefix := ih (Nat.le_of_succ_le hi) fun j hj hji => hkinds j hj (by omega)
    rw [List.take_succ_eq_append_getElem hi, List.flatMap_append, List.length_append, hprefix,
      List.flatMap_singleton, Register.length_write]
    have hkind := hkinds i hi (Nat.lt_succ_self i)
    unfold place
    by_cases hi8 : i < 8
    · rw [if_pos (hkind.mpr hi8)]
      omega
    · rw [if_neg (mt hkind.mp hi8)]
      omega

theorem Kinded.length_write {regs : RegisterFile} (h : regs.Kinded) :
    (layout.write regs).length = 600 := by
  have hlength : regs.slots.toList.length = 64 := Vector.length_toList
  have hall := length_flatMap_write (Nat.le_refl regs.slots.toList.length)
    fun j hj _ => kinded_iff.mp h j (hlength ▸ hj)
  rw [List.take_length, hlength] at hall
  exact hall

/-- The slots have their kinds if the tags do, at the places that they then have. -/
theorem kinded_iff_of_reads {target regs : RegisterFile} {bytes rest : List UInt8}
    (h : layout.Reads target bytes regs rest) :
    regs.Kinded ↔ ∀ i, i < 64 → (bytes[place i]? = some 0 ↔ i < 8) := by
  obtain ⟨slots, hslots, rfl⟩ := Layout.reads_view.mp h
  have heach := Layout.reads_array.mp hslots
  have hlength : slots.toList.length = 64 := Vector.length_toList
  have htag : ∀ i (hi : i < 64), (∀ j (hj : j < 64), j < i →
      (slots[j].config?.isSome = true ↔ j < 8)) →
      (bytes[place i]? = some 0 ↔ slots[i].config?.isSome = true) := by
    intro i hi hkinds
    have hi' : i < slots.toList.length := hlength.symm ▸ hi
    obtain ⟨other, left, hread⟩ := Layout.reads_getElem Register.keepsLength_layout heach hi'
    have hplace := length_flatMap_write (Nat.le_of_lt hi') fun j hj hji =>
      hkinds j (hlength ▸ hj) hji
    rw [hplace] at hread
    rw [← List.head?_drop]
    exact Register.head?_eq_zero_iff hread
  rw [kinded_iff]
  constructor
  · intro h i hi
    exact (htag i hi fun j hj _ => h j hj).trans (h i hi)
  · intro h i
    -- The place of a tag depends on the kinds of all slots before it.
    induction i using Nat.strongRecOn with
    | ind i ih =>
      intro hi
      exact (htag i hi fun j hj hji => ih j hji hj).symm.trans (h i hi)

end RegisterFile

/-! ## Structured machines -/

namespace Machine

/-- What the address map and the accesses to delay memory rely on. -/
structure Structured (m : Machine) : Prop where
  kinded : m.regs.Kinded
  pointer : m.delayPtr.toNat < m.delay.size
  words : ∀ word ∈ m.delay, InDatapath word.toInt

theorem structured_powerOn {n : Nat} (hn : 0 < n) (mode : Bool) : (powerOn n mode).Structured := by
  refine ⟨.initial, ?_, ?_⟩
  · rw [size_delay_powerOn]
    exact hn
  · intro word hword
    obtain rfl := (Array.mem_replicate.mp hword).2
    exact inDatapath_zero

theorem Structured.inMode {m : Machine} (h : m.Structured) (mode : Bool) :
    (m.inMode mode).Structured :=
  ⟨h.kinded, h.pointer, h.words⟩

/-! ## Accepted bytes -/

variable {target m : Machine} {bytes : List UInt8}

/-- The registers, delay memory and its pointer, as they stand behind the magic number. -/
theorem parts_of_restore (h : target.restore bytes = (.ok (), m)) :
    ∃ fromDelay fromPtr left,
      RegisterFile.layout.Reads target.regs (bytes.drop 39) m.regs fromDelay ∧
      (Layout.sequence (.scalar .i32) 0).Reads target.delay fromDelay m.delay fromPtr ∧
      (Layout.scalar .u64).Reads target.delayPtr fromPtr m.delayPtr left := by
  obtain ⟨body, read, rfl, hread, -, rfl⟩ := restore_eq_ok_iff.mp h
  obtain ⟨fromDelay, fromPtr, left, hregs, hdelay, hptr, -⟩ := parts_of_reads hread
  exact ⟨fromDelay, fromPtr, left, hregs, hdelay, hptr⟩

/-- The bytes have the tags that the address map wants, words of 24 bits, and a pointer within
    delay memory of the given length. Before the slots stand 39 bytes, and eight more for
    the length of delay memory behind the 600 that slots of these kinds have. -/
structure SayStructure (size : Nat) (bytes : List UInt8) : Prop where
  tags : ∀ i, i < 64 → (bytes[39 + RegisterFile.place i]? = some 0 ↔ i < 8)
  words : ∀ i, i < size → InDatapath (Scalar.i32.decode ((bytes.drop (647 + i * 4)).take 4)).toInt
  pointer : (Scalar.u64.decode ((bytes.drop (647 + size * 4)).take 8)).toNat < size

/-- Where the tags are right, the words and the pointer stand at fixed places. -/
theorem words_of_kinded (h : target.restore bytes = (.ok (), m)) (hkinded : m.regs.Kinded) :
    (∀ i (hi : i < m.delay.size),
        m.delay[i] = Scalar.i32.decode ((bytes.drop (647 + i * 4)).take 4)) ∧
      m.delayPtr = Scalar.u64.decode ((bytes.drop (647 + m.delay.size * 4)).take 8) := by
  obtain ⟨fromDelay, fromPtr, left, hregs, hdelay, hptr⟩ := parts_of_restore h
  obtain rfl : fromDelay = bytes.drop 639 := by
    rw [Layout.rest_eq_drop RegisterFile.keepsLength_layout hregs, hkinded.length_write,
      List.drop_drop]
  obtain ⟨count, body, hcount, hbytes, -, hwords⟩ := Layout.reads_sequence.mp hdelay
  have hbody : body = bytes.drop 647 := by
    have hdrop := congrArg (List.drop 8) hbytes
    rw [List.drop_left' hcount, List.drop_drop] at hdrop
    exact hdrop.symm
  have hencode : ∀ words : List Int32,
      (words.flatMap (Layout.scalar Scalar.i32).write).length = words.length * 4 :=
    Layout.length_flatMap_encode Scalar.i32
  constructor
  · intro i hi
    have hi' : i < m.delay.toList.length := hi
    have hkeeps : (Layout.scalar Scalar.i32).KeepsLength := trivial
    obtain ⟨other, next, hread⟩ := Layout.reads_getElem hkeeps hwords hi'
    have hword := (Layout.scalar_of_reads hread).1
    rw [hencode, List.length_take, Nat.min_eq_left (Nat.le_of_lt hi'), hbody,
      List.drop_drop] at hword
    exact hword
  · -- The pointer stands behind the length field and all words.
    have hkeeps : (Layout.sequence (.scalar Scalar.i32) 0).KeepsLength := trivial
    have hlength : ((Layout.sequence (.scalar Scalar.i32) 0).write m.delay).length =
        8 + m.delay.size * 4 := by
      rw [Layout.write, List.length_append, Scalar.u64.length_encode, hencode,
        Array.length_toList]
      rfl
    have hrest := Layout.rest_eq_drop hkeeps hdelay
    rw [hlength, List.drop_drop, ← Nat.add_assoc] at hrest
    rw [← hrest]
    exact (Layout.scalar_of_reads hptr).1

/-- An accepted snapshot makes a structured machine if its bytes say so, and not otherwise. -/
theorem structured_iff_of_restore (h : target.restore bytes = (.ok (), m)) :
    m.Structured ↔ SayStructure m.delay.size bytes := by
  obtain ⟨fromDelay, fromPtr, left, hregs, -, -⟩ := parts_of_restore h
  have htags := RegisterFile.kinded_iff_of_reads hregs
  simp only [List.getElem?_drop] at htags
  constructor
  · intro hstructured
    obtain ⟨hwords, hptr⟩ := words_of_kinded h hstructured.kinded
    refine ⟨htags.mp hstructured.kinded, fun i hi => ?_, ?_⟩
    · rw [← hwords i hi]
      exact hstructured.words _ (Array.getElem_mem hi)
    · rw [← hptr]
      exact hstructured.pointer
  · intro hsay
    have hkinded := htags.mpr hsay.tags
    obtain ⟨hwords, hptr⟩ := words_of_kinded h hkinded
    refine ⟨hkinded, ?_, fun word hword => ?_⟩
    · rw [hptr]
      exact hsay.pointer
    · obtain ⟨i, hi, rfl⟩ := Array.mem_iff_getElem.mp hword
      rw [hwords i hi]
      exact hsay.words i hi

/-- Restoring reaches every machine with delay memory of the right length and with the mode
    of the target. -/
theorem exists_restore_iff (hsize : target.delay.size < UInt64.size) :
    (∃ bytes, target.restore bytes = (.ok (), m)) ↔
      m.delay.size = target.delay.size ∧ m.HasMode target.saturating := by
  constructor
  · rintro ⟨bytes, h⟩
    obtain ⟨hmode, hlength, -⟩ := hasMode_of_restore h
    exact ⟨hlength, hmode⟩
  · rintro ⟨hlength, hmode⟩
    refine ⟨m.snapshot, ?_⟩
    rw [restore_snapshot_eq hlength (hlength ▸ hsize), inMode_of_hasMode hmode]

/-- Whether a restored machine is structured is for its bytes to say. All formats in it can be
    represented, whatever the bytes are, but tags, words and the pointer are taken as they
    stand: restoring reaches every machine with delay memory of the right length and with
    the mode of the target, and a structured one exactly from bytes that say so. Snapshots of
    structured machines do, also if their truth values were disturbed. -/
theorem restored_structured_iff (target : Machine) (hsize : target.delay.size < UInt64.size) :
    (∀ bytes m, target.restore bytes = (.ok (), m) →
        (∀ x, m.Holds x → x.format.intBits ≤ 8 ∧ x.format.fracBits ≤ 23) ∧
          (m.Structured ↔ SayStructure target.delay.size bytes)) ∧
      (∀ m, (∃ bytes, target.restore bytes = (.ok (), m)) ↔
        m.delay.size = target.delay.size ∧ m.HasMode target.saturating) ∧
      ∀ (saved : Machine) (bytes : List UInt8), saved.Structured →
        saved.delay.size = target.delay.size → saved.IsDisturbedSnapshot bytes →
        ∃ m, target.restore bytes = (.ok (), m) ∧ m.Structured := by
  refine ⟨?_, fun m => exists_restore_iff hsize, ?_⟩
  · intro bytes m h
    obtain ⟨-, hlength, -⟩ := hasMode_of_restore h
    rw [← hlength]
    exact ⟨fun x _ => ⟨x.format.intBits_le, x.format.fracBits_le⟩, structured_iff_of_restore h⟩
  · intro saved bytes hstructured hlength hdisturbed
    exact ⟨_, restore_of_isDisturbedSnapshot hlength (hlength ▸ hsize) hdisturbed,
      hstructured.inMode target.saturating⟩

/-- The snapshot of a machine that was just switched on says so, and restores a structured one. -/
theorem restored_structured_iff_powerOn :
    (powerOn 1 true).delay.size < UInt64.size ∧
      (powerOn 1 true).Structured ∧
      SayStructure 1 (powerOn 1 true).snapshot ∧
      ∃ m, (powerOn 1 true).restore (powerOn 1 true).snapshot = (.ok (), m) ∧ m.Structured := by
  have hsize : (powerOn 1 true).delay.size < UInt64.size := by decide
  have hstructured := structured_powerOn Nat.one_pos true
  have hdisturbed : (powerOn 1 true).IsDisturbedSnapshot (powerOn 1 true).snapshot :=
    ⟨layout.write (powerOn 1 true), rfl, Layout.disturbed_write _ _⟩
  obtain ⟨hbytes, -, hintact⟩ := restored_structured_iff (powerOn 1 true) hsize
  obtain ⟨m, hrestore, hm⟩ := hintact _ _ hstructured rfl hdisturbed
  exact ⟨hsize, hstructured, (hbytes _ m hrestore).2.mp hm, m, hrestore, hm⟩

/-- A snapshot of a structured machine in which the tags of two slots and the delay pointer
    were changed. It is accepted, and leaves a value where the length of a ramp is looked for,
    a parameter among the values, and a pointer behind the only word of delay memory. -/
theorem restore_breaks_structure :
    let intact := (powerOn 1 true).snapshot
    let bytes := intact.take 74 ++ [1, 0, 0, 0, 0, 8, 0x17, 0xff, 0, 0, 0, 0, 0, 0, 0] ++
      (intact.take 651).drop 89 ++ [5, 0, 0, 0, 0, 0, 0, 0] ++ intact.drop 659
    let m := ((powerOn 1 true).restore bytes).2
    (powerOn 1 true).Structured ∧ ((powerOn 1 true).restore bytes).1 = .ok () ∧
      m.regs.slot 7 = .audio .zero ∧ m.regs.slot 8 = .config 0 ∧ m.delayPtr = 5 ∧
      ¬ m.Structured := by
  intro intact bytes m
  -- The restored machine is computed once, and all that matters of it is read off.
  obtain ⟨hok, hvalue, hparameter, hpointer, hlength⟩ :
      ((powerOn 1 true).restore bytes).1 = .ok () ∧ m.regs.slot 7 = .audio .zero ∧
        m.regs.slot 8 = .config 0 ∧ m.delayPtr = 5 ∧ m.delay.size = 1 := by decide +kernel
  refine ⟨structured_powerOn Nat.one_pos true, hok, hvalue, hparameter, hpointer, fun h => ?_⟩
  have hbound := h.pointer
  rw [hpointer, hlength] at hbound
  exact absurd hbound (by decide)

end Machine
end EffectsDsp
