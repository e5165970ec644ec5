/-
  EffectsDsp.Proofs.Tape

  Delay memory is a tape that scrolls. The machine keeps its words in place and moves a
  pointer down instead, once per sample; read from the pointer upwards the memory is a list
  that shifts by one word with every sample. `Machine.tape` is this list, `Tape` has the
  operations on it, and the two are a simulation: what holds of a tape holds of the machine.

  The only place where the circle of the memory shows is `wrap`: the pointer and an offset
  are both below the size, so that their sum goes around once at most.
-/

import EffectsDsp.Proofs.Effect

namespace EffectsDsp

/-! ## Accesses to delay memory -/

/-- A host or an instruction uses delay memory. -/
inductive DelayCall where
  | read (offset : Int32)
  | write (offset : Int32) (value : Fixed)
  | endSample

namespace DelayCall

/-- The samples that end in a sequence of calls. -/
def samples : List DelayCall → Nat
  | [] => 0
  | .endSample :: calls => samples calls + 1
  | _ :: calls => samples calls

end DelayCall

/-! ## The tape -/

namespace Tape

/-- The place on a tape of `size` words that an offset denotes. -/
def place (size : Nat) (offset : Int32) : Nat :=
  (clampInt 0 (size - 1) offset.toInt).toNat

/-- Shifts the words by one place; the last one comes back as the first. -/
def scroll (words : List Int32) : List Int32 :=
  words.getLast?.toList ++ words.dropLast

/-- The words that a sequence of calls reads, and the tape that it leaves. A write stores
    the low 24 bits of a value as a two's complement number. -/
def performAll : List DelayCall → List Int32 → List Int32 × List Int32
  | [], words => ([], words)
  | .read offset :: calls, words =>
    let others := performAll calls words
    (words[place words.length offset]?.getD 0 :: others.1, others.2)
  | .write offset value :: calls, words =>
    performAll calls
      (words.set (place words.length offset) (signExtend value.raw.toUInt32 24))
  | .endSample :: calls, words => performAll calls (scroll words)

/-- No call writes to the word that stands at `cell` before the first of them. -/
def Spares (size : Nat) : Nat → List DelayCall → Prop
  | _, [] => True
  | cell, .read _ :: calls => Spares size cell calls
  | cell, .write offset _ :: calls => place size offset ≠ cell ∧ Spares size cell calls
  | cell, .endSample :: calls => Spares size (cell + 1) calls

variable {words : List Int32}

theorem place_lt {size : Nat} (hsize : 0 < size) (offset : Int32) : place size offset < size := by
  have hle := clampInt_le (show (0 : Int) ≤ size - 1 by omega) offset.toInt
  unfold place
  omega

theorem length_scroll (words : List Int32) : (scroll words).length = words.length := by
  unfold scroll
  cases hlast : words.getLast? with
  | none =>
    obtain rfl := List.getLast?_eq_none_iff.mp hlast
    rfl
  | some last =>
    have hne : words ≠ [] := by
      rintro rfl
      cases hlast
    have hpos := List.length_pos_iff.mpr hne
    rw [List.length_append, List.length_dropLast]
    show 1 + (words.length - 1) = words.length
    omega

/-- A word moves one place up. -/
theorem getElem?_scroll_succ {i : Nat} (hi : i + 1 < words.length) :
    (scroll words)[i + 1]? = words[i]? := by
  have hne : words ≠ [] := by
    rintro rfl
    cases hi
  unfold scroll
  rw [List.getLast?_eq_some_getLast hne]
  show (_ :: words.dropLast)[i + 1]? = _
  rw [List.getElem?_cons_succ, List.getElem?_dropLast, if_pos (by omega)]

/-- The last word comes back as the first. -/
theorem getElem?_scroll_zero (words : List Int32) :
    (scroll words)[0]? = words[words.length - 1]? := by
  unfold scroll
  rw [← List.getLast?_eq_getElem?]
  cases hlast : words.getLast? with
  | none =>
    obtain rfl := List.getLast?_eq_none_iff.mp hlast
    rfl
  | some last => rfl

/-- A word that is spared stands one place further up after every sample. -/
theorem getElem?_performAll {calls : List DelayCall} {cell : Nat} {word : Int32}
    (hword : words[cell]? = some word) (hspares : Spares words.length cell calls)
    (hlt : cell + DelayCall.samples calls < words.length) :
    (performAll calls words).2[cell + DelayCall.samples calls]? = some word := by
  -- The place of the word moves with the calls, and so does the tape it is on.
  induction calls generalizing words cell with
  | nil => exact hword
  | cons call calls ih =>
    cases call with
    | read offset => exact ih hword hspares hlt
    | write offset value =>
      obtain ⟨hother, hspares⟩ := hspares
      refine ih ?_ ?_ ?_
      · rw [List.getElem?_set_ne hother]
        exact hword
      · rw [List.length_set]
        exact hspares
      · rw [List.length_set]
        exact hlt
    | endSample =>
      have hcell : cell + DelayCall.samples (.endSample :: calls) =
          cell + 1 + DelayCall.samples calls := by
        show cell + (DelayCall.samples calls + 1) = _
        omega
      rw [hcell] at hlt ⊢
      refine ih ?_ ?_ ?_
      · rw [getElem?_scroll_succ (by omega)]
        exact hword
      · rw [length_scroll]
        exact hspares
      · rw [length_scroll]
        exact hlt

end Tape

/-! ## The tape of a machine -/

namespace Machine

/-- The words of delay memory from offset zero upwards. -/
def tape (m : Machine) : List Int32 :=
  (List.range m.delay.size).map fun offset =>
    m.delay[(offset + m.delayPtr.toNat) % m.delay.size]?.getD 0

/-- A delay memory word as a value of the machine. -/
def wordValue (m : Machine) (word : Int32) : Fixed :=
  m.value ((Fixed.ofRaw word).withFormat .sample)

/-- The values that a sequence of calls reads, and the machine that it leaves. -/
def performAll : List DelayCall → Machine → List Fixed × Machine
  | [], m => ([], m)
  | .read offset :: calls, m =>
    let (value, m) := m.readDelay offset
    let others := performAll calls m
    (value :: others.1, others.2)
  | .write offset value :: calls, m => performAll calls (m.writeDelay offset value)
  | .endSample :: calls, m => performAll calls m.endSample

theorem wordValue_congr {m n : Machine} (h : m.saturating = n.saturating) :
    m.wordValue = n.wordValue := by
  funext word
  unfold wordValue value
  rw [h]

/-- The pointer stands in the memory, and all of the memory can be addressed. -/
structure HasTape (m : Machine) : Prop where
  ptr_lt : m.delayPtr.toNat < m.delay.size
  size_lt : m.delay.size < 2147483648

/-- An offset and the pointer go around the memory once at most. -/
theorem wrap {i p n : Nat} (hi : i < n) (hp : p < n) :
    (i + p) % n = if i + p < n then i + p else i + p - n := by
  split
  · next hlt => exact Nat.mod_eq_of_lt hlt
  · next hge =>
    rw [Nat.mod_eq_sub_mod (Nat.le_of_not_lt hge)]
    exact Nat.mod_eq_of_lt (by omega)

variable {m : Machine}

theorem length_tape (m : Machine) : m.tape.length = m.delay.size := by
  unfold tape
  rw [List.length_map, List.length_range]

/-- The tape shows the cells of delay memory. -/
theorem getElem?_tape {i : Nat} (hi : i < m.delay.size) :
    m.tape[i]? = m.delay[(i + m.delayPtr.toNat) % m.delay.size]? := by
  have hcell : (i + m.delayPtr.toNat) % m.delay.size < m.delay.size := Nat.mod_lt _ (by omega)
  unfold tape
  rw [List.getElem?_map, List.getElem?_range hi, Option.map_some,
    Array.getElem?_eq_getElem hcell, Option.getD_some]

/-- Two tapes are equal if they show equal cells. -/
theorem tape_eq_iff {words : List Int32} (hlength : words.length = m.delay.size) :
    m.tape = words ↔
      ∀ i < m.delay.size, m.delay[(i + m.delayPtr.toNat) % m.delay.size]? = words[i]? := by
  constructor
  · rintro rfl i hi
    exact (getElem?_tape hi).symm
  · intro hcells
    apply List.ext_getElem?
    intro i
    by_cases hi : i < m.delay.size
    · rw [getElem?_tape hi, hcells i hi]
    · have hout : m.tape.length ≤ i := by
        rw [length_tape]
        omega
      have hout' : words.length ≤ i := by omega
      rw [List.getElem?_eq_none hout, List.getElem?_eq_none hout']

/-- The end of a sample moves the pointer down by one cell, from the first one to the last. -/
theorem toNat_delayPtr_endSample_of_lt (hptr : m.delayPtr.toNat < m.delay.size)
    (hsize : m.delay.size < UInt64.size) :
    m.endSample.delayPtr.toNat =
      if m.delayPtr.toNat = 0 then m.delay.size - 1 else m.delayPtr.toNat - 1 := by
  have hone : (1 : UInt64).toNat = 1 := rfl
  show ((if m.delayPtr = 0 then UInt64.ofNat m.delay.size else m.delayPtr) - 1).toNat = _
  by_cases hzero : m.delayPtr = 0
  · have hle : 1 ≤ UInt64.ofNat m.delay.size := by
      rw [UInt64.le_iff_toNat_le, UInt64.toNat_ofNat_of_lt' hsize]
      omega
    rw [if_pos hzero, hzero, UInt64.toNat_sub_of_le _ _ hle, UInt64.toNat_ofNat_of_lt' hsize]
    rfl
  · have hne : m.delayPtr.toNat ≠ 0 := fun heq => hzero (UInt64.toNat_inj.mp heq)
    have hle : 1 ≤ m.delayPtr := by
      rw [UInt64.le_iff_toNat_le]
      omega
    rw [if_neg hzero, if_neg hne, UInt64.toNat_sub_of_le _ _ hle]
    rfl

namespace HasTape

/-- The index of a cell does not wrap at 64 bits. -/
theorem delayIndex_eq (h : m.HasTape) (offset : Int32) :
    m.delayIndex offset =
      (Tape.place m.delay.size offset + m.delayPtr.toNat) % m.delay.size := by
  obtain ⟨hptr, hsize⟩ := h
  have hplace := Tape.place_lt (show 0 < m.delay.size by omega) offset
  have hsum : (UInt64.ofNat (m.clampOffset offset) + m.delayPtr).toNat =
      Tape.place m.delay.size offset + m.delayPtr.toNat := by
    show (UInt64.ofNat (Tape.place m.delay.size offset) + m.delayPtr).toNat = _
    have hsmall : Tape.place m.delay.size offset < UInt64.size := by
      have hwide : 2147483648 < UInt64.size := by decide
      omega
    rw [UInt64.toNat_add, UInt64.toNat_ofNat_of_lt' hsmall]
    omega
  unfold delayIndex
  rw [hsum]

/-- A read returns the word at its place on the tape. -/
theorem delayWord_eq (h : m.HasTape) (offset : Int32) :
    m.delayWord offset =
      m.wordValue (m.tape[Tape.place m.tape.length offset]?.getD 0) := by
  have hpos : 0 < m.delay.size := Nat.zero_lt_of_lt h.ptr_lt
  unfold delayWord wordValue
  rw [length_tape, getElem?_tape (Tape.place_lt hpos offset), h.delayIndex_eq]

/-! ### Reading and writing -/

theorem noteAccess (h : m.HasTape) (offset : Int32) (access : Access) :
    (m.noteAccess offset access).HasTape ∧ (m.noteAccess offset access).tape = m.tape := by
  rw [noteAccess_eq]
  exact ⟨⟨h.ptr_lt, h.size_lt⟩, rfl⟩

theorem writeDelay (h : m.HasTape) (offset : Int32) (v : Fixed) :
    (m.writeDelay offset v).HasTape := by
  have hframed := framed_writeDelay m offset v
  refine ⟨?_, ?_⟩
  · rw [hframed.delayPtr, hframed.delaySize]
    exact h.ptr_lt
  · rw [hframed.delaySize]
    exact h.size_lt

/-- A write sets the word at its place on the tape. -/
theorem tape_writeDelay (h : m.HasTape) (offset : Int32) (v : Fixed) :
    (m.writeDelay offset v).tape =
      m.tape.set (Tape.place m.tape.length offset) (signExtend v.raw.toUInt32 24) := by
  have hframed := framed_writeDelay m offset v
  have hpos : 0 < m.delay.size := Nat.zero_lt_of_lt h.ptr_lt
  have hplace := Tape.place_lt hpos offset
  have hcell : m.delayIndex offset < m.delay.size := Nat.mod_lt _ hpos
  rw [tape_eq_iff (by rw [List.length_set, length_tape, hframed.delaySize]), hframed.delaySize,
    hframed.delayPtr, delay_writeDelay, Fixed.toSample_fst, length_tape]
  intro i hi
  rw [Array.getElem?_setIfInBounds, List.getElem?_set, length_tape, if_pos hcell,
    if_pos hplace, getElem?_tape hi]
  -- Two offsets share a cell only if they are equal.
  have hsame : m.delayIndex offset = (i + m.delayPtr.toNat) % m.delay.size ↔
      Tape.place m.delay.size offset = i := by
    rw [h.delayIndex_eq, wrap hplace h.ptr_lt, wrap hi h.ptr_lt]
    split <;> split <;> omega
  simp only [hsame]

/-! ### The end of a sample -/

theorem toNat_delayPtr_endSample (h : m.HasTape) :
    m.endSample.delayPtr.toNat =
      if m.delayPtr.toNat = 0 then m.delay.size - 1 else m.delayPtr.toNat - 1 := by
  have hwide : 2147483648 < UInt64.size := by decide
  exact toNat_delayPtr_endSample_of_lt h.ptr_lt (Nat.lt_trans h.size_lt hwide)

theorem endSample (h : m.HasTape) : m.endSample.HasTape := by
  have hptr := h.toNat_delayPtr_endSample
  have hlt := h.ptr_lt
  refine ⟨?_, h.size_lt⟩
  show m.endSample.delayPtr.toNat < m.delay.size
  rw [hptr]
  split <;> omega

/-- The end of a sample scrolls the tape. -/
theorem tape_endSample (h : m.HasTape) : m.endSample.tape = Tape.scroll m.tape := by
  have hlt := h.ptr_lt
  have hptr := h.toNat_delayPtr_endSample
  have hptr' : m.endSample.delayPtr.toNat < m.delay.size := h.endSample.ptr_lt
  rw [tape_eq_iff (by rw [Tape.length_scroll, length_tape]; rfl)]
  intro i hi
  show m.delay[(i + m.endSample.delayPtr.toNat) % m.delay.size]? = _
  replace hi : i < m.delay.size := hi
  cases i with
  | zero =>
    -- The first word is the last one before: the pointer moved onto its cell.
    have hlast : m.delay.size - 1 < m.delay.size := by omega
    have hcell : (0 + m.endSample.delayPtr.toNat) % m.delay.size =
        (m.delay.size - 1 + m.delayPtr.toNat) % m.delay.size := by
      rw [wrap hi hptr', wrap hlast hlt, hptr]
      split <;> split <;> split <;> omega
    rw [Tape.getElem?_scroll_zero, length_tape, getElem?_tape hlast, hcell]
  | succ i =>
    have hprevious : i < m.delay.size := by omega
    have hcell : (i + 1 + m.endSample.delayPtr.toNat) % m.delay.size =
        (i + m.delayPtr.toNat) % m.delay.size := by
      rw [wrap hi hptr', wrap hprevious hlt, hptr]
      split <;> split <;> split <;> omega
    rw [Tape.getElem?_scroll_succ (by rw [length_tape]; exact hi), getElem?_tape hprevious, hcell]

/-- The word at an offset is found one offset further, around the end of the tape. -/
theorem getElem?_tape_endSample (h : m.HasTape) {o : Nat} (ho : o < m.delay.size) :
    m.endSample.tape[(o + 1) % m.delay.size]? = m.tape[o]? := by
  rw [h.tape_endSample]
  by_cases hnext : o + 1 < m.delay.size
  · rw [Nat.mod_eq_of_lt hnext, Tape.getElem?_scroll_succ (by rw [length_tape]; exact hnext)]
  · have hlast : o + 1 = m.delay.size := by omega
    rw [hlast, Nat.mod_self, Tape.getElem?_scroll_zero, length_tape, ← hlast,
      Nat.add_sub_cancel]

/-! ### Sequences of calls -/

/-- The machine and its tape read the same words and stay machine and tape. -/
theorem performAll (h : m.HasTape) (calls : List DelayCall) :
    (m.performAll calls).1 = (Tape.performAll calls m.tape).1.map m.wordValue ∧
      (m.performAll calls).2.tape = (Tape.performAll calls m.tape).2 ∧
      (m.performAll calls).2.HasTape ∧
      (m.performAll calls).2.delay.size = m.delay.size ∧
      (m.performAll calls).2.saturating = m.saturating := by
  -- One call is a frame condition and an equation of tapes; both are carried along.
  induction calls generalizing m with
  | nil => exact ⟨rfl, rfl, h, rfl, rfl⟩
  | cons call calls ih =>
    cases call with
    | read offset =>
      have hframed := framed_noteAccess m offset .read
      obtain ⟨hnoted, htape⟩ := h.noteAccess offset .read
      obtain ⟨hvalues, hafter, hkept, hsize, hsaturating⟩ := ih hnoted
      rw [htape] at hvalues hafter
      rw [hframed.delaySize] at hsize
      rw [hframed.saturating] at hsaturating
      refine ⟨?_, hafter, hkept, hsize, hsaturating⟩
      show m.delayWord offset :: _ = _ :: _
      rw [hvalues, h.delayWord_eq, wordValue_congr hframed.saturating]
    | write offset value =>
      have hframed := framed_writeDelay m offset value
      obtain ⟨hvalues, hafter, hkept, hsize, hsaturating⟩ := ih (h.writeDelay offset value)
      rw [h.tape_writeDelay] at hvalues hafter
      rw [hframed.delaySize] at hsize
      rw [hframed.saturating] at hsaturating
      rw [wordValue_congr hframed.saturating] at hvalues
      exact ⟨hvalues, hafter, hkept, hsize, hsaturating⟩
    | endSample =>
      obtain ⟨hvalues, hafter, hkept, hsize, hsaturating⟩ := ih h.endSample
      rw [h.tape_endSample] at hvalues hafter
      exact ⟨hvalues, hafter, hkept, hsize, hsaturating⟩

/-- What was written is read again from where the tape has carried it. -/
theorem readDelay_performAll_writeDelay (h : m.HasTape) {calls : List DelayCall}
    {offset later : Int32} (v : Fixed)
    (hspares : Tape.Spares m.delay.size (Tape.place m.delay.size offset) calls)
    (hlater : later.toInt = Tape.place m.delay.size offset + DelayCall.samples calls)
    (hlt : Tape.place m.delay.size offset + DelayCall.samples calls < m.delay.size) :
    (((m.writeDelay offset v).performAll calls).2.readDelay later).1 =
      m.wordValue (signExtend v.raw.toUInt32 24) := by
  have hframed := framed_writeDelay m offset v
  have hplace := Tape.place_lt (Nat.zero_lt_of_lt h.ptr_lt) offset
  obtain ⟨-, hafter, hkept, hsize, hsaturating⟩ := (h.writeDelay offset v).performAll calls
  have hlength : (m.writeDelay offset v).tape.length = m.delay.size := by
    rw [length_tape, hframed.delaySize]
  have hword : (m.writeDelay offset v).tape[Tape.place m.delay.size offset]? =
      some (signExtend v.raw.toUInt32 24) := by
    rw [h.tape_writeDelay, length_tape]
    exact List.getElem?_set_self (by rw [length_tape]; exact hplace)
  have hcarried := Tape.getElem?_performAll hword (by rw [hlength]; exact hspares)
    (by rw [hlength]; exact hlt)
  -- An offset within the memory denotes its own place.
  have hlaterPlace : Tape.place m.delay.size later =
      Tape.place m.delay.size offset + DelayCall.samples calls := by
    unfold Tape.place at hlater hlt ⊢
    rw [clampInt_eq_self (v := later.toInt) (by omega) (by omega)]
    omega
  show delayWord _ later = _
  rw [hkept.delayWord_eq, length_tape, hsize, hframed.delaySize, hlaterPlace, hafter, hcarried,
    Option.getD_some, wordValue_congr (hsaturating.trans hframed.saturating)]

end HasTape

/-- Delay memory is a scrolling tape. Every sequence of calls reads the same words from both
    and leaves the machine with the tape that the calls leave; on the way a read changes no
    cell, and the end of a sample moves every word one offset further. So a word that no
    call in between overwrites is read as many offsets further as samples have ended. -/
theorem delay_scrolls {m : Machine} (hptr : m.delayPtr.toNat < m.delay.size)
    (hsize : m.delay.size < 2147483648) (calls : List DelayCall) :
    (m.performAll calls).1 = (Tape.performAll calls m.tape).1.map m.wordValue ∧
      (m.performAll calls).2.tape = (Tape.performAll calls m.tape).2 ∧
      (m.performAll calls).2.delay.size = m.delay.size ∧
      (m.performAll calls).2.delayPtr.toNat < m.delay.size ∧
      (∀ offset, (m.readDelay offset).2.delay = m.delay ∧
        (m.readDelay offset).2.delayPtr = m.delayPtr) ∧
      (∀ o < m.delay.size,
        m.tape[o]? = m.delay[(o + m.delayPtr.toNat) % m.delay.size]? ∧
          m.endSample.tape[(o + 1) % m.delay.size]? = m.tape[o]?) ∧
      ∀ (offset later : Int32) (v : Fixed),
        Tape.Spares m.delay.size (Tape.place m.delay.size offset) calls →
          later.toInt = Tape.place m.delay.size offset + DelayCall.samples calls →
            later.toInt < m.delay.size →
              (((m.writeDelay offset v).performAll calls).2.readDelay later).1 =
                m.wordValue (signExtend v.raw.toUInt32 24) := by
  have h : m.HasTape := ⟨hptr, hsize⟩
  obtain ⟨hvalues, hafter, hkept, hlength, -⟩ := h.performAll calls
  refine ⟨hvalues, hafter, hlength, ?_, ?_, ?_, ?_⟩
  · rw [← hlength]
    exact hkept.ptr_lt
  · intro offset
    show (m.noteAccess offset .read).delay = _ ∧ (m.noteAccess offset .read).delayPtr = _
    rw [noteAccess_eq]
    exact ⟨rfl, rfl⟩
  · intro o ho
    exact ⟨getElem?_tape ho, h.getElem?_tape_endSample ho⟩
  · intro offset later v hspares hlater hlt
    exact h.readDelay_performAll_writeDelay v hspares hlater (by omega)

/-- A word written to offset one is read at offset three when two samples have ended, though
    another word was written in between. -/
theorem delay_scrolls_two_samples :
    (powerOn 4 true).delayPtr.toNat < (powerOn 4 true).delay.size ∧
      (powerOn 4 true).delay.size < 2147483648 ∧
      Tape.Spares 4 1 [.endSample, .write 0 .zero, .endSample] ∧
      ((((powerOn 4 true).writeDelay 1 (.ofRaw 5)).performAll
        [.endSample, .write 0 .zero, .endSample]).2.readDelay 3).1 =
          (powerOn 4 true).wordValue (signExtend 5 24) := by
  have hptr : (powerOn 4 true).delayPtr.toNat < (powerOn 4 true).delay.size := by decide
  have hsize : (powerOn 4 true).delay.size < 2147483648 := by decide
  have hspares : Tape.Spares 4 1 [.endSample, .write 0 .zero, .endSample] := by
    refine ⟨?_, trivial⟩
    decide
  obtain ⟨-, -, -, -, -, -, hread⟩ :=
    delay_scrolls hptr hsize [.endSample, .write 0 .zero, .endSample]
  exact ⟨hptr, hsize, hspares, hread 1 3 (.ofRaw 5) hspares rfl (by decide)⟩

end Machine
end EffectsDsp
