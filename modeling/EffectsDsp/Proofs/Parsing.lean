/-
  EffectsDsp.Proofs.Parsing

  What a reading that succeeds has read. `Reads` says that bytes begin with a value of a
  layout and what stands behind it. For each constructor one equivalence says which bytes
  these are, be they the ones that a value is written as or any others: a scalar takes as
  many bytes as it has, a pair its two parts in order, a tag decides between two kinds, and
  a sequence has as many elements as its length field says.

  Whoever knows these equivalences need not look into `Layout.read` again. That function is
  opened here, and where a reading that fails is looked at.
-/

import EffectsDsp.Layout.Basic

namespace EffectsDsp

variable {α β : Type}

theorem Reading.eq_mk_iff {r : Reading α} {a : α} {rest : List UInt8}
    {failure : Option OutOfData} :
    r = ⟨a, rest, failure⟩ ↔ r.target = a ∧ r.rest = rest ∧ r.failure = failure := by
  cases r
  simp only [Reading.mk.injEq]

/-- As many bytes as there are can be split off. -/
theorem exists_head {n : Nat} {bytes : List UInt8} (h : n ≤ bytes.length) :
    ∃ head rest, head.length = n ∧ bytes = head ++ rest := by
  refine ⟨bytes.take n, bytes.drop n, ?_, (List.take_append_drop n bytes).symm⟩
  rw [List.length_take]
  omega

/-- What begins other bytes without being all of them has a tail in them. -/
theorem exists_tail {head bytes : List UInt8} (hbegins : head <+: bytes) (hne : head ≠ bytes) :
    ∃ tail, tail ≠ [] ∧ bytes = head ++ tail := by
  obtain ⟨tail, rfl⟩ := hbegins
  refine ⟨tail, ?_, rfl⟩
  rintro rfl
  exact hne (List.append_nil head).symm

namespace Layout

/-- The bytes begin with a value of the layout: reading them into `target` makes it `a`, and
    leaves `rest`. -/
def Reads (layout : Layout α) (target : α) (bytes : List UInt8) (a : α) (rest : List UInt8) :
    Prop :=
  layout.read target bytes = ⟨a, rest, none⟩

/-- The same of elements that stand one behind the other. -/
def ReadsEach (element : Layout α) : List α → List UInt8 → List α → List UInt8 → Prop
  | [], bytes, xs, rest => xs = [] ∧ bytes = rest
  | target :: targets, bytes, xs, rest =>
    ∃ x mid ys, xs = x :: ys ∧ element.Reads target bytes x mid ∧
      ReadsEach element targets mid ys rest

/-- A reading that did not fail has read what it left in the target. -/
theorem reads_of_failure {layout : Layout α} {target : α} {bytes : List UInt8}
    (h : (layout.read target bytes).failure = none) :
    layout.Reads target bytes (layout.read target bytes).target
      (layout.read target bytes).rest :=
  Reading.eq_mk_iff.mpr ⟨rfl, rfl, h⟩

/-! ## Scalars -/

theorem takeBytes_append (head rest : List UInt8) :
    takeBytes head.length (head ++ rest) = .ok (head, rest) := by
  unfold takeBytes
  simp only [List.take_left, List.drop_left, if_true]

theorem readScalar_of_length (s : Scalar α) (target : α) {head : List UInt8}
    (h : head.length = s.size) (rest : List UInt8) :
    readScalar s target (head ++ rest) = ⟨s.decode head, rest, none⟩ := by
  unfold readScalar
  rw [← h, takeBytes_append]

/-- A scalar that is not complete is not read at all. -/
theorem readScalar_of_short (s : Scalar α) (target : α) {bytes : List UInt8}
    (h : bytes.length < s.size) :
    readScalar s target bytes = ⟨target, bytes, some ⟨s.size, bytes.length⟩⟩ := by
  have htake : (bytes.take s.size).length ≠ s.size := by
    rw [List.length_take]
    omega
  unfold readScalar takeBytes
  simp only [if_neg htake]

/-- A tag is its only byte. -/
theorem readScalar_u8_cons (target tag : UInt8) (body : List UInt8) :
    readScalar Scalar.u8 target (tag :: body) = ⟨tag, body, none⟩ := by
  have hdecode : Scalar.u8.decode [tag] = tag := by
    show UInt8.ofNat (tag.toNat + 256 * 0) = tag
    rw [Nat.mul_zero, Nat.add_zero, UInt8.ofNat_toNat]
  rw [← List.singleton_append, readScalar_of_length Scalar.u8 target rfl, hdecode]

theorem reads_scalar {s : Scalar α} {target a : α} {bytes rest : List UInt8} :
    (scalar s).Reads target bytes a rest ↔
      ∃ head, head.length = s.size ∧ bytes = head ++ rest ∧ a = s.decode head := by
  unfold Reads read
  constructor
  · intro h
    by_cases hshort : bytes.length < s.size
    · rw [readScalar_of_short s target hshort] at h
      cases h
    · obtain ⟨head, body, hlength, rfl⟩ := exists_head (Nat.not_lt.mp hshort)
      rw [readScalar_of_length s target hlength] at h
      cases h
      exact ⟨head, hlength, rfl, rfl⟩
  · rintro ⟨head, hlength, rfl, rfl⟩
    exact readScalar_of_length s target hlength rest

theorem scalar_of_reads {s : Scalar α} {target a : α} {bytes rest : List UInt8}
    (h : (scalar s).Reads target bytes a rest) :
    a = s.decode (bytes.take s.size) ∧ rest = bytes.drop s.size := by
  obtain ⟨head, hlength, rfl, rfl⟩ := reads_scalar.mp h
  rw [List.take_left' hlength, List.drop_left' hlength]
  exact ⟨rfl, rfl⟩

/-! ## Composed layouts -/

theorem reads_transient {target a : α} {bytes rest : List UInt8} :
    (transient α).Reads target bytes a rest ↔ a = target ∧ bytes = rest := by
  unfold Reads read
  simp only [Reading.mk.injEq, and_true, eq_comm]

theorem reads_pair {first : Layout α} {second : Layout β} {target a : α × β}
    {bytes rest : List UInt8} :
    (pair first second).Reads target bytes a rest ↔
      ∃ mid, first.Reads target.1 bytes a.1 mid ∧ second.Reads target.2 mid a.2 rest := by
  unfold Reads
  rw [read]
  rcases hfirst : first.read target.1 bytes with ⟨x, mid, _ | e⟩
  · rcases hsecond : second.read target.2 mid with ⟨y, left, failure⟩
    simp only [Reading.map, Reading.mk.injEq, Prod.ext_iff]
    constructor
    · rintro ⟨⟨hx, hy⟩, hleft, hfailure⟩
      exact ⟨mid, ⟨hx, rfl, trivial⟩, by rw [hsecond, hy, hleft, hfailure]⟩
    · rintro ⟨_, ⟨hx, rfl, -⟩, hy⟩
      rw [hsecond] at hy
      cases hy
      exact ⟨⟨hx, rfl⟩, rfl, rfl⟩
  · simp [Reading.map]

section Either

variable {first : Layout α} {fresh₁ : α} {second : Layout β} {fresh₂ : β} {target a : α ⊕ β}
  {bytes rest : List UInt8}

theorem reads_either_first {body : List UInt8} :
    (either first fresh₁ second fresh₂).Reads target (0 :: body) a rest ↔
      ∃ x, first.Reads fresh₁ body x rest ∧ a = .inl x := by
  unfold Reads
  rw [read, readScalar_u8_cons]
  rcases hfirst : first.read fresh₁ body with ⟨x, left, _ | e⟩
  · simp only [if_true, Reading.map, Reading.mk.injEq, and_true]
    constructor
    · rintro ⟨rfl, rfl⟩
      exact ⟨x, ⟨rfl, rfl⟩, rfl⟩
    · rintro ⟨_, ⟨rfl, rfl⟩, rfl⟩
      exact ⟨rfl, rfl⟩
  · simp

theorem reads_either_second {tag : UInt8} (htag : tag ≠ 0) {body : List UInt8} :
    (either first fresh₁ second fresh₂).Reads target (tag :: body) a rest ↔
      ∃ y, second.Reads fresh₂ body y rest ∧ a = .inr y := by
  unfold Reads
  rw [read, readScalar_u8_cons]
  rcases hsecond : second.read fresh₂ body with ⟨y, left, _ | e⟩
  · simp only [if_neg htag, Reading.map, Reading.mk.injEq, and_true]
    constructor
    · rintro ⟨rfl, rfl⟩
      exact ⟨y, ⟨rfl, rfl⟩, rfl⟩
    · rintro ⟨_, ⟨rfl, rfl⟩, rfl⟩
      exact ⟨rfl, rfl⟩
  · simp [htag]

/-- The tag zero stands before the first kind, every other before the second. -/
theorem reads_either :
    (either first fresh₁ second fresh₂).Reads target bytes a rest ↔
      ∃ tag body, bytes = tag :: body ∧
        ((tag = 0 ∧ ∃ x, first.Reads fresh₁ body x rest ∧ a = .inl x) ∨
          (tag ≠ 0 ∧ ∃ y, second.Reads fresh₂ body y rest ∧ a = .inr y)) := by
  constructor
  · intro h
    cases bytes with
    | nil =>
      unfold Reads at h
      rw [read, readScalar_of_short Scalar.u8 0 (by decide)] at h
      cases h
    | cons tag body =>
      refine ⟨tag, body, rfl, ?_⟩
      by_cases htag : tag = 0
      · subst htag
        exact .inl ⟨rfl, reads_either_first.mp h⟩
      · exact .inr ⟨htag, (reads_either_second htag).mp h⟩
  · rintro ⟨tag, body, rfl, ⟨rfl, h⟩ | ⟨htag, h⟩⟩
    · exact reads_either_first.mpr h
    · exact (reads_either_second htag).mpr h

end Either

theorem reads_whole {inner : Layout α} {fresh target a : α} {bytes rest : List UInt8} :
    (whole inner fresh).Reads target bytes a rest ↔ inner.Reads fresh bytes a rest := by
  unfold Reads
  rw [read]
  rcases hinner : inner.read fresh bytes with ⟨x, left, _ | e⟩
  · rfl
  · simp

theorem reads_view {inner : Layout α} {coding : Coding α β} {target b : β}
    {bytes rest : List UInt8} :
    (view inner coding).Reads target bytes b rest ↔
      ∃ a, inner.Reads (coding.encode target) bytes a rest ∧ b = coding.decode a := by
  unfold Reads
  rw [read]
  rcases hinner : inner.read (coding.encode target) bytes with ⟨x, left, failure⟩
  simp only [Reading.map, Reading.mk.injEq]
  constructor
  · rintro ⟨rfl, rfl, rfl⟩
    exact ⟨x, ⟨rfl, rfl, rfl⟩, rfl⟩
  · rintro ⟨a, ⟨rfl, rfl, rfl⟩, rfl⟩
    exact ⟨rfl, rfl, rfl⟩

/-! ## Elements -/

theorem length_of_readsEach {element : Layout α} {targets xs : List α} {bytes rest : List UInt8}
    (h : element.ReadsEach targets bytes xs rest) : xs.length = targets.length := by
  induction targets generalizing bytes xs with
  | nil =>
    obtain ⟨rfl, -⟩ := h
    rfl
  | cons target targets ih =>
    obtain ⟨x, mid, ys, rfl, -, hys⟩ := h
    rw [List.length_cons, List.length_cons, ih hys]

theorem length_resize (xs : Array α) (n : Nat) (fill : α) : (resize xs n fill).length = n := by
  unfold resize
  rw [List.length_append, List.length_take, List.length_replicate, Array.length_toList]
  omega

theorem readEach_eq_iff {element : Layout α} {targets : List α} {bytes rest : List UInt8}
    {done ys : Array α} :
    readEach element.read targets bytes done = ⟨ys, rest, none⟩ ↔
      ∃ xs, ys = done ++ xs.toArray ∧ element.ReadsEach targets bytes xs rest := by
  -- What is done already only grows, by one element at a time.
  induction targets generalizing bytes done with
  | nil =>
    simp only [readEach, ReadsEach, Reading.mk.injEq, and_true]
    constructor
    · rintro ⟨rfl, rfl⟩
      exact ⟨[], Array.append_empty.symm, rfl, rfl⟩
    · rintro ⟨_, rfl, rfl, rfl⟩
      exact ⟨Array.append_empty.symm, rfl⟩
  | cons target targets ih =>
    unfold readEach ReadsEach Reads
    rcases hread : element.read target bytes with ⟨x, mid, _ | e⟩
    · simp only [ih]
      constructor
      · rintro ⟨xs, rfl, hxs⟩
        exact ⟨x :: xs, List.push_append_toArray, x, mid, xs, rfl, rfl, hxs⟩
      · rintro ⟨_, rfl, _, _, xs, rfl, hx, hxs⟩
        cases hx
        exact ⟨xs, List.push_append_toArray.symm, hxs⟩
    · constructor
      · intro h
        cases congrArg Reading.failure h
      · rintro ⟨_, -, _, _, _, -, hx, -⟩
        cases hx

theorem reads_array {n : Nat} {element : Layout α} {target xs : Vector α n}
    {bytes rest : List UInt8} :
    (array n element).Reads target bytes xs rest ↔
      element.ReadsEach target.toList bytes xs.toList rest := by
  have hread : (array n element).Reads target bytes xs rest ↔
      readEach element.read target.toList bytes #[] = ⟨xs.toArray, rest, none⟩ := by
    unfold Reads
    rw [read, Reading.eq_mk_iff, Reading.eq_mk_iff, Vector.mk_eq]
  rw [hread, readEach_eq_iff]
  constructor
  · rintro ⟨ys, hys, heach⟩
    rw [Array.empty_append] at hys
    have hlist : xs.toList = ys := by rw [← Vector.toList_toArray, hys]
    rwa [hlist]
  · intro heach
    refine ⟨xs.toList, ?_, heach⟩
    rw [Array.empty_append, ← Vector.toList_toArray, Array.toArray_toList]

/-- Behind a length field that the bytes can hold stand that many elements. -/
theorem reads_sequence_append {element : Layout α} {fill : α} {target xs : Array α}
    {head body rest : List UInt8} (hhead : head.length = 8) :
    (sequence element fill).Reads target (head ++ body) xs rest ↔
      (Scalar.u64.decode head).toNat ≤ body.length ∧
        element.ReadsEach (resize target (Scalar.u64.decode head).toNat fill) body xs.toList
          rest := by
  unfold Reads
  rw [read, readScalar_of_length Scalar.u64 0 hhead]
  by_cases hshort : body.length < (Scalar.u64.decode head).toNat
  · simp only [if_pos hshort, Reading.mk.injEq, reduceCtorEq, and_false, false_iff]
    omega
  · simp only [if_neg hshort, readEach_eq_iff, Array.empty_append]
    constructor
    · rintro ⟨ys, rfl, hys⟩
      exact ⟨Nat.not_lt.mp hshort, hys⟩
    · rintro ⟨-, hxs⟩
      exact ⟨xs.toList, rfl, hxs⟩

theorem reads_sequence {element : Layout α} {fill : α} {target xs : Array α}
    {bytes rest : List UInt8} :
    (sequence element fill).Reads target bytes xs rest ↔
      ∃ head body, head.length = 8 ∧ bytes = head ++ body ∧
        (Scalar.u64.decode head).toNat ≤ body.length ∧
        element.ReadsEach (resize target (Scalar.u64.decode head).toNat fill) body xs.toList
          rest := by
  constructor
  · intro h
    by_cases hshort : bytes.length < 8
    · unfold Reads at h
      rw [read, readScalar_of_short Scalar.u64 0 hshort] at h
      cases h
    · obtain ⟨head, body, hhead, rfl⟩ := exists_head (Nat.not_lt.mp hshort)
      exact ⟨head, body, hhead, rfl, (reads_sequence_append hhead).mp h⟩
  · rintro ⟨head, body, hhead, rfl, h⟩
    exact (reads_sequence_append hhead).mpr h

end Layout
end EffectsDsp
