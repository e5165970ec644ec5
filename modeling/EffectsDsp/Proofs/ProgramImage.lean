/-
  EffectsDsp.Proofs.ProgramImage

  What the program in an image is. It consists of the words before the first terminator, or
  of all words, provided that each of them is an ordinary instruction and that there are not
  too many. Otherwise the first word that is none decides, which the limit turns into one
  ordinary instruction too many (`Offends`).

  `Program.extend` looks at one word after the other, and so do the proofs: the number of
  operations decoded so far is the index of the word at hand, and each statement on
  `Program.ofWords` is one on `Program.extend` from no operations.
-/

import Mathlib.Data.List.Forall2
import EffectsDsp.Proofs.Encoding

namespace EffectsDsp

/-! ## Words of an image -/

/-- The word is an instruction that may stand in a program. -/
def Operation.Ordinary (word : UInt32) (op : Operation) : Prop :=
  Operation.decode word = .ok op ∧ op.isTerminator = false ∧ op.mnemonic ≠ .choReserved

namespace Program

/-- The image ends before word `k`, because it has no more words or a terminator there. -/
def EndsAt (words : List UInt32) (k : Nat) : Prop :=
  k = words.length ∨
    ∃ word op, words[k]? = some word ∧ Operation.decode word = .ok op ∧ op.isTerminator = true

/-- The word at index `i` ends the decoding of an image with an error. -/
inductive Offends (limit i : Nat) (word : UInt32) : DecodeError → Prop
  | undecodable {e : DecodeError} (h : Operation.decode word = .error e) : Offends limit i word e
  | reserved {op : Operation} (h : Operation.decode word = .ok op)
      (hreserved : op.mnemonic = .choReserved) : Offends limit i word (.reserved i word)
  | tooLong {op : Operation} (h : Operation.Ordinary word op) (hlimit : i = limit) :
      Offends limit i word (.tooLong limit)

/-- The operations are those of the words before the end of the image, which are ordinary and
    no more than `room`. -/
def Reads (room : Nat) (words : List UInt32) (ops : List Operation) : Prop :=
  ∃ k ≤ room, EndsAt words k ∧ List.Forall₂ Operation.Ordinary (words.take k) ops

/-- The first word of the image that is not ordinary, or one more than the limit allows, ends
    the decoding with an error. The indices count from `index` on. -/
def Fails (limit index : Nat) (words : List UInt32) (e : DecodeError) : Prop :=
  ∃ i word ops, index + i ≤ limit ∧ words[i]? = some word ∧
    List.Forall₂ Operation.Ordinary (words.take i) ops ∧ Offends limit (index + i) word e

variable {limit : Nat} {words words' : List UInt32} {word : UInt32} {program program' : Program}
  {op : Operation}

/-- A terminator is a skip or its alias, without distance. -/
theorem isTerminator_iff :
    op.isTerminator = true ↔
      (op.mnemonic = .skp ∨ op.mnemonic = .nop) ∧ op.bits .distance = 0 := by
  simp only [Operation.isTerminator, Bool.and_eq_true, Bool.or_eq_true, beq_iff_eq]

/-- A reserved sub-command is no terminator. -/
theorem isTerminator_of_reserved (h : op.mnemonic = .choReserved) : op.isTerminator = false := by
  unfold Operation.isTerminator
  rw [h]
  rfl

/-! ## One word after the other -/

theorem extend_of_error {e : DecodeError} (h : Operation.decode word = .error e) :
    extend limit (word :: words) program = .error e := by
  simp only [extend, h]

theorem extend_of_terminator (h : Operation.decode word = .ok op) (hend : op.isTerminator = true) :
    extend limit (word :: words) program = .ok program := by
  simp only [extend, h, if_pos hend]

theorem extend_of_reserved (h : Operation.decode word = .ok op)
    (hreserved : op.mnemonic = .choReserved) :
    extend limit (word :: words) program = .error (.reserved program.size word) := by
  have hgoes : ¬ op.isTerminator = true := by
    rw [isTerminator_of_reserved hreserved]
    exact Bool.false_ne_true
  simp only [extend, h, if_neg hgoes, if_pos hreserved]

theorem extend_of_ordinary (h : Operation.Ordinary word op) :
    extend limit (word :: words) program =
      if program.size = limit then .error (.tooLong limit)
      else extend limit words (program.push op) := by
  obtain ⟨hdecode, hgoes, hknown⟩ := h
  simp only [extend, hdecode, hgoes, Bool.false_eq_true, if_false, if_neg hknown]

/-- A word is of one of four kinds. -/
theorem word_cases (word : UInt32) :
    (∃ e, Operation.decode word = .error e) ∨
      ∃ op, Operation.decode word = .ok op ∧
        (op.isTerminator = true ∨ op.mnemonic = .choReserved ∨ Operation.Ordinary word op) := by
  cases hdecode : Operation.decode word with
  | error e => exact .inl ⟨e, rfl⟩
  | ok op =>
    refine .inr ⟨op, rfl, ?_⟩
    cases hend : op.isTerminator with
    | true => exact .inl rfl
    | false =>
      by_cases hreserved : op.mnemonic = .choReserved
      · exact .inr (.inl hreserved)
      · exact .inr (.inr ⟨hdecode, hend, hreserved⟩)

theorem endsAt_zero : EndsAt (word :: words) 0 ↔
    ∃ op, Operation.decode word = .ok op ∧ op.isTerminator = true := by
  constructor
  · rintro (hlength | ⟨first, op, hfirst, hdecode, hend⟩)
    · cases hlength
    · obtain rfl := Option.some.inj hfirst
      exact ⟨op, hdecode, hend⟩
  · rintro ⟨op, hdecode, hend⟩
    exact .inr ⟨word, op, rfl, hdecode, hend⟩

theorem endsAt_succ {k : Nat} : EndsAt (word :: words) (k + 1) ↔ EndsAt words k :=
  or_congr Nat.succ_inj Iff.rfl

/-- An image begins with a terminator, or with an ordinary word for which there is room. -/
theorem reads_cons {room : Nat} {ops : List Operation} :
    Reads room (word :: words) ops ↔
      ((∃ op, Operation.decode word = .ok op ∧ op.isTerminator = true) ∧ ops = []) ∨
        ∃ op others, Operation.Ordinary word op ∧ 0 < room ∧ Reads (room - 1) words others ∧
          ops = op :: others := by
  constructor
  · rintro ⟨k, hk, hend, hops⟩
    cases k with
    | zero => exact .inl ⟨endsAt_zero.mp hend, List.forall₂_nil_left_iff.mp hops⟩
    | succ k =>
      rw [List.take_succ_cons] at hops
      obtain ⟨op, others, hop, hothers, rfl⟩ := List.forall₂_cons_left_iff.mp hops
      exact .inr ⟨op, others, hop, by omega, ⟨k, by omega, endsAt_succ.mp hend, hothers⟩, rfl⟩
  · rintro (⟨hend, rfl⟩ | ⟨op, others, hop, hroom, ⟨k, hk, hend, hothers⟩, rfl⟩)
    · exact ⟨0, Nat.zero_le _, endsAt_zero.mpr hend, .nil⟩
    · exact ⟨k + 1, by omega, endsAt_succ.mpr hend, .cons hop hothers⟩

/-- The word that fails is the first, or comes behind an ordinary one. -/
theorem fails_cons {index : Nat} {e : DecodeError} :
    Fails limit index (word :: words) e ↔
      (index ≤ limit ∧ Offends limit index word e) ∨
        ((∃ op, Operation.Ordinary word op) ∧ Fails limit (index + 1) words e) := by
  constructor
  · rintro ⟨i, bad, ops, hi, hbad, hops, hoffends⟩
    cases i with
    | zero =>
      obtain rfl := Option.some.inj hbad
      exact .inl ⟨hi, hoffends⟩
    | succ i =>
      rw [List.take_succ_cons] at hops
      obtain ⟨op, others, hop, hothers, rfl⟩ := List.forall₂_cons_left_iff.mp hops
      have hnext : index + (i + 1) = index + 1 + i := by omega
      rw [hnext] at hi hoffends
      exact .inr ⟨⟨op, hop⟩, i, bad, others, hi, hbad, hothers, hoffends⟩
  · rintro (⟨hindex, hoffends⟩ | ⟨⟨op, hop⟩, i, bad, ops, hi, hbad, hops, hoffends⟩)
    · exact ⟨0, word, [], hindex, rfl, .nil, hoffends⟩
    · have hnext : index + 1 + i = index + (i + 1) := by omega
      rw [hnext] at hi hoffends
      exact ⟨i + 1, bad, op :: ops, hi, hbad, .cons hop hops, hoffends⟩

/-- The kinds of words exclude each other. -/
theorem Ordinary.eq_of_decode (h : Operation.Ordinary word op) {op' : Operation}
    (hdecode : Operation.decode word = .ok op') : op' = op :=
  Except.ok.inj (hdecode.symm.trans h.1)

theorem not_ordinary_of_error {e : DecodeError} (h : Operation.decode word = .error e) :
    ¬ Operation.Ordinary word op := fun hop => by
  rw [hop.1] at h
  cases h

theorem not_ordinary_of_terminator (h : Operation.decode word = .ok op)
    (hend : op.isTerminator = true) {op' : Operation} : ¬ Operation.Ordinary word op' := by
  rintro hop
  obtain rfl := Ordinary.eq_of_decode hop h
  rw [hop.2.1] at hend
  cases hend

theorem not_ordinary_of_reserved (h : Operation.decode word = .ok op)
    (hreserved : op.mnemonic = .choReserved) {op' : Operation} :
    ¬ Operation.Ordinary word op' := by
  rintro hop
  obtain rfl := Ordinary.eq_of_decode hop h
  exact hop.2.2 hreserved

/-! ## Whole images -/

/-- At the end of an image the program is complete. -/
theorem ok_eq_ok_iff : (Except.ok program : Except DecodeError Program) = .ok program' ↔
    ∃ ops, ops = [] ∧ program'.toList = program.toList ++ ops := by
  constructor
  · rintro h
    obtain rfl := Except.ok.inj h
    exact ⟨[], rfl, (List.append_nil _).symm⟩
  · rintro ⟨ops, rfl, h⟩
    rw [List.append_nil] at h
    rw [Array.toList_inj.mp h]

theorem reads_nil {room : Nat} {ops : List Operation} : Reads room [] ops ↔ ops = [] := by
  constructor
  · rintro ⟨k, -, -, hops⟩
    rw [List.take_nil] at hops
    exact List.forall₂_nil_left_iff.mp hops
  · rintro rfl
    exact ⟨0, Nat.zero_le _, .inl rfl, .nil⟩

/-- Decoding goes on to the end of the image if all words before are ordinary and if there is
    room for them. -/
theorem extend_eq_ok_iff (hsize : program.size ≤ limit) :
    extend limit words program = .ok program' ↔
      ∃ ops, Reads (limit - program.size) words ops ∧
        program'.toList = program.toList ++ ops := by
  induction words generalizing program with
  | nil =>
    simp only [reads_nil]
    exact ok_eq_ok_iff
  | cons word words ih =>
    simp only [reads_cons]
    obtain ⟨e, hdecode⟩ | ⟨op, hdecode, hend | hreserved | hop⟩ := word_cases word
    · rw [extend_of_error hdecode]
      simp [hdecode, not_ordinary_of_error hdecode]
    · rw [extend_of_terminator hdecode hend]
      have hends : ∃ op, Operation.decode word = .ok op ∧ op.isTerminator = true :=
        ⟨op, hdecode, hend⟩
      simp only [hends, not_ordinary_of_terminator hdecode hend, true_and, false_and, exists_false,
        or_false]
      exact ok_eq_ok_iff
    · rw [extend_of_reserved hdecode hreserved]
      simp [hdecode, isTerminator_of_reserved hreserved, not_ordinary_of_reserved hdecode hreserved]
    · rw [extend_of_ordinary hop]
      by_cases hfull : program.size = limit
      · simp [hfull, hdecode, hop.2.1]
      · have hroom : limit - (program.push op).size = limit - program.size - 1 := by
          rw [Array.size_push]
          omega
        rw [if_neg hfull, ih (by rw [Array.size_push]; omega), hroom]
        -- The operation goes from the head of the operations to the end of the program.
        constructor
        · rintro ⟨ops, hops, h⟩
          refine ⟨op :: ops, .inr ⟨op, ops, hop, by omega, hops, rfl⟩, ?_⟩
          rw [h, Array.toList_push, List.append_assoc]
          rfl
        · rintro ⟨ops, ⟨⟨op', hdecode', hend⟩, -⟩ | ⟨op', others, hop', -, hothers, rfl⟩, h⟩
          · exact absurd hop (not_ordinary_of_terminator hdecode' hend)
          · obtain rfl := Ordinary.eq_of_decode hop hop'.1
            refine ⟨others, hothers, ?_⟩
            rw [h, Array.toList_push, List.append_assoc]
            rfl

/-- What a word that is the first to fail is refused for. -/
theorem offends_iff {index : Nat} {e : DecodeError} :
    Offends limit index word e ↔ match Operation.decode word with
      | .error e' => e = e'
      | .ok op => (op.mnemonic = .choReserved ∧ e = .reserved index word) ∨
          (Operation.Ordinary word op ∧ index = limit ∧ e = .tooLong limit) := by
  constructor
  · rintro (h | ⟨h, hreserved⟩ | ⟨h, hlimit⟩)
    · rw [h]
    · rw [h]
      exact .inl ⟨hreserved, rfl⟩
    · rw [h.1]
      exact .inr ⟨h, hlimit, rfl⟩
  · intro h
    split at h
    · next hdecode =>
      rw [h]
      exact .undecodable hdecode
    · next hdecode =>
      obtain ⟨hreserved, rfl⟩ | ⟨hop, hlimit, rfl⟩ := h
      · exact .reserved hdecode hreserved
      · exact .tooLong hop hlimit

/-- Decoding stops with the error of the first word that fails. -/
theorem extend_eq_error_iff (hsize : program.size ≤ limit) {e : DecodeError} :
    extend limit words program = .error e ↔ Fails limit program.size words e := by
  induction words generalizing program with
  | nil =>
    constructor
    · rintro h
      cases h
    · rintro ⟨i, word, ops, -, hword, -⟩
      cases hword
  | cons word words ih =>
    rw [fails_cons, offends_iff]
    obtain ⟨e', hdecode⟩ | ⟨op, hdecode, hend | hreserved | hop⟩ := word_cases word
    · rw [extend_of_error hdecode]
      simp [hdecode, hsize, not_ordinary_of_error hdecode, eq_comm]
    · rw [extend_of_terminator hdecode hend]
      have hmnemonic : op.mnemonic ≠ .choReserved := fun hreserved => by
        rw [isTerminator_of_reserved hreserved] at hend
        cases hend
      simp [hdecode, hmnemonic, not_ordinary_of_terminator hdecode hend]
    · rw [extend_of_reserved hdecode hreserved]
      simp [hdecode, hsize, hreserved, not_ordinary_of_reserved hdecode hreserved, eq_comm]
    · rw [extend_of_ordinary hop]
      have hops : ∃ op, Operation.Ordinary word op := ⟨op, hop⟩
      simp only [hdecode, hop, hops, hop.2.2, hsize, true_and, false_and, false_or]
      by_cases hfull : program.size = limit
      · subst hfull
        -- This word is the first one too many, and none behind it is looked at.
        have hover : ¬ Fails program.size (program.size + 1) words e := by
          rintro ⟨i, bad, ops, hi, -⟩
          omega
        simp [hover, eq_comm]
      · rw [if_neg hfull, ih (by rw [Array.size_push]; omega), Array.size_push]
        simp [hfull]

/-- The program in an image is what it reads up to its end. -/
theorem ofWords_eq_ok_iff :
    ofWords limit words = .ok program ↔ Reads limit words program.toList := by
  unfold ofWords
  rw [extend_eq_ok_iff (Nat.zero_le limit)]
  constructor
  · rintro ⟨ops, hops, h⟩
    rw [h]
    exact hops
  · intro h
    exact ⟨program.toList, h, rfl⟩

theorem ofWords_eq_error_iff {e : DecodeError} :
    ofWords limit words = .error e ↔ Fails limit 0 words e :=
  extend_eq_error_iff (Nat.zero_le limit)

/-- Only the word behind the limit is still looked at. -/
theorem extend_congr_take (hsize : program.size ≤ limit)
    (h : words'.take (limit + 1 - program.size) = words.take (limit + 1 - program.size)) :
    extend limit words' program = extend limit words program := by
  induction words generalizing words' program with
  | nil =>
    have hnil : words' = [] := by
      rw [List.take_nil, List.take_eq_nil_iff] at h
      exact h.resolve_left (by omega)
    rw [hnil]
  | cons word words ih =>
    have hmore : limit + 1 - program.size = limit - program.size + 1 := by omega
    rw [hmore] at h
    cases words' with
    | nil => cases h
    | cons word' words' =>
      rw [List.take_succ_cons, List.take_succ_cons] at h
      obtain ⟨rfl, hrest⟩ := List.cons.inj h
      obtain ⟨e, hdecode⟩ | ⟨op, hdecode, hend | hreserved | hop⟩ := word_cases word'
      · rw [extend_of_error hdecode, extend_of_error hdecode]
      · rw [extend_of_terminator hdecode hend, extend_of_terminator hdecode hend]
      · rw [extend_of_reserved hdecode hreserved, extend_of_reserved hdecode hreserved]
      · rw [extend_of_ordinary hop, extend_of_ordinary hop]
        by_cases hfull : program.size = limit
        · rw [if_pos hfull, if_pos hfull]
        · have hroom : limit + 1 - (program.push op).size = limit - program.size := by
            rw [Array.size_push]
            omega
          rw [if_neg hfull, if_neg hfull]
          exact ih (by rw [Array.size_push]; omega) (by rw [hroom]; exact hrest)

/-- Nothing is looked at behind a terminator. -/
theorem extend_terminator_append (h : Operation.decode word = .ok op)
    (hend : op.isTerminator = true) (before tail tail' : List UInt32) (program : Program) :
    extend limit (before ++ word :: tail) program =
      extend limit (before ++ word :: tail') program := by
  induction before generalizing program with
  | nil =>
    rw [List.nil_append, List.nil_append, extend_of_terminator h hend, extend_of_terminator h hend]
  | cons first before ih =>
    rw [List.cons_append, List.cons_append]
    unfold extend
    simp only [ih]

/-- The operations of a program are ordinary, and no more than the limit. -/
theorem ordinary_of_ofWords (h : ofWords limit words = .ok program) :
    program.size ≤ limit ∧ ∀ op ∈ program, ∃ word, Operation.Ordinary word op := by
  obtain ⟨k, hk, -, hops⟩ := ofWords_eq_ok_iff.mp h
  have hlength : (words.take k).length = program.size := hops.length_eq
  constructor
  · rw [List.length_take] at hlength
    omega
  · intro op hop
    obtain ⟨i, hi, rfl⟩ := List.getElem_of_mem (Array.mem_toList_iff.mpr hop)
    exact ⟨_, hops.get (hlength ▸ hi) hi⟩

/-- More room changes nothing where there was enough. -/
theorem ofWords_of_le (h : ofWords limit words = .ok program) {limit' : Nat}
    (hle : limit ≤ limit') : ofWords limit' words = .ok program := by
  obtain ⟨k, hk, hops⟩ := ofWords_eq_ok_iff.mp h
  exact ofWords_eq_ok_iff.mpr ⟨k, Nat.le_trans hk hle, hops⟩

/-- An ordinary instruction is neither a skip without distance nor reserved. In particular it
    is no NOP, which has no distance. -/
theorem mnemonic_of_ordinary (h : Operation.Ordinary word op) :
    op.mnemonic ≠ .nop ∧ ¬ (op.mnemonic = .skp ∧ op.bits .distance = 0) ∧
      op.mnemonic ≠ .choReserved := by
  obtain ⟨hdecode, hgoes, hknown⟩ := h
  have hskips : ¬ ((op.mnemonic = .skp ∨ op.mnemonic = .nop) ∧ op.bits .distance = 0) := by
    intro hend
    rw [isTerminator_iff.mpr hend] at hgoes
    cases hgoes
  refine ⟨fun hnop => ?_, fun hskp => hskips ⟨.inl hskp.1, hskp.2⟩, hknown⟩
  obtain ⟨-, hdistance, -⟩ := (Operation.mnemonic_eq_iff hdecode .nop).mp hnop
  exact hskips ⟨.inr hnop, hdistance⟩

/-- The program in an image is the decoded prefix before its end, and there is one exactly if
    the words of this prefix are ordinary instructions and no more than the limit. Otherwise the
    first word that is none decides on the error. So words behind a terminator or behind the
    limit do not matter, a program has no NOP, no skip without distance and no reserved
    instruction, and a larger limit gives the same program. -/
theorem ofWords_decodes_prefix (limit : Nat) (words : List UInt32) :
    (∀ program, ofWords limit words = .ok program ↔
        ∃ k ≤ limit, EndsAt words k ∧
          List.Forall₂ Operation.Ordinary (words.take k) program.toList) ∧
      (∀ e, ofWords limit words = .error e ↔
        ∃ i ≤ limit, ∃ word ops, words[i]? = some word ∧
          List.Forall₂ Operation.Ordinary (words.take i) ops ∧ Offends limit i word e) ∧
      (∀ words', words'.take (limit + 1) = words.take (limit + 1) →
        ofWords limit words' = ofWords limit words) ∧
      (∀ before word op tail tail', words = before ++ word :: tail →
        Operation.decode word = .ok op → op.isTerminator = true →
          ofWords limit (before ++ word :: tail') = ofWords limit words) ∧
      ∀ program, ofWords limit words = .ok program →
        program.size ≤ limit ∧
          (∀ op ∈ program, op.mnemonic ≠ .nop ∧ ¬ (op.mnemonic = .skp ∧ op.bits .distance = 0) ∧
            op.mnemonic ≠ .choReserved) ∧
          ∀ limit' ≥ limit, ofWords limit' words = .ok program := by
  refine ⟨fun program => ofWords_eq_ok_iff, fun e => ?_, fun words' h => ?_, ?_, ?_⟩
  · rw [ofWords_eq_error_iff, Fails]
    simp only [Nat.zero_add, exists_and_left]
  · exact extend_congr_take (Nat.zero_le limit) h
  · rintro before word op tail tail' rfl hdecode hend
    exact extend_terminator_append hdecode hend before tail' tail #[]
  · intro program h
    obtain ⟨hsize, hordinary⟩ := ordinary_of_ofWords h
    refine ⟨hsize, fun op hop => ?_, fun limit' => ofWords_of_le h⟩
    obtain ⟨word, hword⟩ := hordinary op hop
    exact mnemonic_of_ordinary hword

end Program
end EffectsDsp
