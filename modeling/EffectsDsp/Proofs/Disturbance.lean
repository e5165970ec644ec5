/-
  EffectsDsp.Proofs.Disturbance

  What reading makes of bytes that were written, and of such bytes after a disturbance. A
  layout has no frames, so that each part has to read exactly the bytes that it wrote, for
  any target and whatever stands behind. A truth value is written as eight equal bits and
  read by majority, so that up to three flipped bits in its byte do no harm.

  `reads_of_disturbed` says both of every layout: the bytes of a value, disturbed in its
  truth values only, are read as that value, merged with the target. Bytes that nothing
  disturbed are the special case `readsBack_of_fits`.
-/

import EffectsDsp.Proofs.Codec

namespace EffectsDsp

/-! ## Truth values -/

namespace Scalar

/-- The scalar writes truth values. -/
def IsTruth {α : Type} (s : Scalar α) : Prop :=
  ∃ h : α = Bool, h ▸ s = Scalar.bool

/-- The number of bits in which two bytes differ. -/
def flips (byte other : UInt8) : Nat :=
  bitCount (byte ^^^ other)

/-- Against all ones a byte differs in the bits that are not set. -/
theorem bitCount_add_flips (byte : UInt8) : bitCount byte + flips byte 0xff = 8 := by
  have hflip : ∀ i ∈ List.range 8, (byte ^^^ 0xff).toNat.testBit i = !byte.toNat.testBit i := by
    intro i hi
    have hones : ∀ i ∈ List.range 8, (0xff : UInt8).toNat.testBit i = true := by decide
    rw [UInt8.toNat_xor, Nat.testBit_xor, hones i hi, Bool.xor_true]
  have hcount : flips byte 0xff = (List.range 8).countP fun i => !byte.toNat.testBit i := by
    apply List.countP_congr
    intro i hi
    rw [hflip i hi]
  have hlength := List.length_eq_countP_add_countP (l := List.range 8) byte.toNat.testBit
  simp only [Bool.not_eq_true, Bool.decide_eq_false, List.length_range] at hlength
  rw [hcount, bitCount]
  exact hlength.symm

/-- Three flipped bits leave the majority of eight equal ones. -/
theorem bool_decode_of_flips {b : Bool} {byte written : UInt8}
    (hwritten : Scalar.bool.encode b = [written]) (h : flips byte written ≤ 3) :
    Scalar.bool.decode [byte] = b := by
  cases b with
  | false =>
    obtain rfl : (0x00 : UInt8) = written := List.singleton_inj.mp hwritten
    rw [flips, UInt8.xor_zero] at h
    exact decide_eq_false (by rw [List.headD_cons]; omega)
  | true =>
    obtain rfl : (0xff : UInt8) = written := List.singleton_inj.mp hwritten
    have hcount := bitCount_add_flips byte
    exact decide_eq_true (by rw [List.headD_cons]; omega)

end Scalar

/-! ## Disturbed bytes -/

namespace Layout

variable {α : Type}

/-- For each byte of a value, in order: whether it is that of a truth value. -/
def truths {α : Type} : Layout α → α → List Prop
  | scalar s, _ => List.replicate s.size s.IsTruth
  | transient _, _ => []
  | pair first second, (a, b) => first.truths a ++ second.truths b
  | either first _ _ _, .inl a => False :: first.truths a
  | either _ _ second _, .inr b => False :: second.truths b
  | whole inner _, a => inner.truths a
  | view inner coding, b => inner.truths (coding.encode b)
  | array _ element, xs => xs.toList.flatMap element.truths
  | sequence element _, xs => List.replicate 8 False ++ xs.toList.flatMap element.truths

/-- The bytes are the ones written, apart from up to three flipped bits in each byte that is
    marked in `truths`. -/
def Disturbs : List Prop → List UInt8 → List UInt8 → Prop
  | [], [], [] => True
  | truth :: truths, w :: written, byte :: bytes =>
    (byte = w ∨ truth ∧ Scalar.flips byte w ≤ 3) ∧ Disturbs truths written bytes
  | _, _, _ => False

/-- The bytes are those of the value, apart from up to three flipped bits in the byte of each
    of its truth values. -/
def Disturbed (layout : Layout α) (a : α) (bytes : List UInt8) : Prop :=
  Disturbs (layout.truths a) (layout.write a) bytes

theorem Disturbs.length_eq {truths : List Prop} {written bytes : List UInt8}
    (h : Disturbs truths written bytes) : bytes.length = written.length := by
  induction truths generalizing written bytes with
  | nil =>
    cases written with
    | cons w written => cases h
    | nil =>
      cases bytes with
      | nil => rfl
      | cons byte bytes => cases h
  | cons truth truths ih =>
    cases written with
    | nil => cases h
    | cons w written =>
      cases bytes with
      | nil => cases h
      | cons byte bytes => rw [List.length_cons, List.length_cons, ih h.2]

theorem disturbs_refl {truths : List Prop} {written : List UInt8}
    (hlength : truths.length = written.length) : Disturbs truths written written := by
  induction truths generalizing written with
  | nil =>
    obtain rfl := List.length_eq_zero_iff.mp hlength.symm
    trivial
  | cons truth truths ih =>
    cases written with
    | nil => cases hlength
    | cons w written => exact ⟨.inl rfl, ih (Nat.succ.inj hlength)⟩

/-- Bytes are disturbed part by part. -/
theorem disturbs_append_iff {truths₁ truths₂ : List Prop} {written₁ written₂ bytes : List UInt8}
    (hlength : truths₁.length = written₁.length) :
    Disturbs (truths₁ ++ truths₂) (written₁ ++ written₂) bytes ↔
      ∃ bytes₁ bytes₂, bytes = bytes₁ ++ bytes₂ ∧ Disturbs truths₁ written₁ bytes₁ ∧
        Disturbs truths₂ written₂ bytes₂ := by
  induction truths₁ generalizing written₁ bytes with
  | nil =>
    obtain rfl := List.length_eq_zero_iff.mp hlength.symm
    constructor
    · intro h
      exact ⟨[], bytes, rfl, trivial, h⟩
    · rintro ⟨bytes₁, bytes₂, rfl, h₁, h₂⟩
      obtain rfl := List.length_eq_zero_iff.mp h₁.length_eq
      exact h₂
  | cons truth truths₁ ih =>
    cases written₁ with
    | nil => cases hlength
    | cons w written₁ =>
      cases bytes with
      | nil =>
        constructor
        · intro h
          cases h
        · rintro ⟨bytes₁, bytes₂, hbytes, h₁, -⟩
          obtain ⟨rfl, -⟩ := List.append_eq_nil_iff.mp hbytes.symm
          cases h₁
      | cons byte bytes =>
        have htail : Disturbs (truths₁ ++ truths₂) (written₁ ++ written₂) bytes ↔ _ :=
          ih (Nat.succ.inj hlength)
        constructor
        · rintro ⟨hbyte, h⟩
          obtain ⟨bytes₁, bytes₂, rfl, h₁, h₂⟩ := htail.mp h
          exact ⟨byte :: bytes₁, bytes₂, rfl, ⟨hbyte, h₁⟩, h₂⟩
        · rintro ⟨bytes₁, bytes₂, hbytes, h₁, h₂⟩
          cases bytes₁ with
          | nil => cases h₁
          | cons byte₁ bytes₁ =>
            obtain ⟨rfl, rfl⟩ := List.cons.inj hbytes
            exact ⟨h₁.1, htail.mpr ⟨bytes₁, bytes₂, rfl, h₁.2, h₂⟩⟩

/-- Without a truth value no byte changes. -/
theorem eq_of_disturbs_replicate {truth : Prop} (htruth : ¬ truth) {n : Nat}
    {written bytes : List UInt8} (h : Disturbs (List.replicate n truth) written bytes) :
    bytes = written := by
  induction n generalizing written bytes with
  | zero =>
    cases written with
    | cons w written => cases h
    | nil => exact List.length_eq_zero_iff.mp h.length_eq
  | succ n ih =>
    cases written with
    | nil => cases h
    | cons w written =>
      cases bytes with
      | nil => cases h
      | cons byte bytes =>
        obtain ⟨rfl | ⟨h', -⟩, htail⟩ := h
        · rw [ih htail]
        · exact absurd h' htruth

theorem length_truths (layout : Layout α) (a : α) :
    (layout.truths a).length = (layout.write a).length := by
  induction layout with
  | scalar s => rw [truths, write, List.length_replicate, s.length_encode]
  | transient α => rfl
  | pair first second ihFirst ihSecond =>
    rw [truths, write, List.length_append, List.length_append, ihFirst, ihSecond]
  | either first fresh₁ second fresh₂ ihFirst ihSecond =>
    cases a with
    | inl a => rw [truths, write, List.length_cons, List.length_cons, ihFirst]
    | inr b => rw [truths, write, List.length_cons, List.length_cons, ihSecond]
  | whole inner fresh ih => exact ih a
  | view inner coding ih => exact ih (coding.encode a)
  | array n element ih =>
    rw [truths, write, List.length_flatMap, List.length_flatMap]
    simp only [ih]
  | sequence element fill ih =>
    have hcount := Scalar.u64.length_encode (UInt64.ofNat a.size)
    rw [truths, write, List.length_append, List.length_append, List.length_replicate, hcount,
      List.length_flatMap, List.length_flatMap]
    simp only [ih]
    rfl

/-- Bytes that nothing disturbed. -/
theorem disturbed_write (layout : Layout α) (a : α) : layout.Disturbed a (layout.write a) :=
  disturbs_refl (length_truths layout a)

theorem disturbed_pair {β : Type} {first : Layout α} {second : Layout β} {a : α} {b : β}
    {head tail : List UInt8} (hfirst : first.Disturbed a head)
    (hsecond : second.Disturbed b tail) :
    (pair first second).Disturbed (a, b) (head ++ tail) :=
  (disturbs_append_iff (length_truths first a)).mpr ⟨head, tail, rfl, hfirst, hsecond⟩

/-- Up to three flipped bits in a truth value. -/
theorem disturbed_bool {b : Bool} {byte written : UInt8}
    (hwritten : Scalar.bool.encode b = [written]) (h : Scalar.flips byte written ≤ 3) :
    (scalar Scalar.bool).Disturbed b [byte] := by
  unfold Disturbed write
  rw [hwritten]
  exact ⟨.inr ⟨⟨rfl, rfl⟩, h⟩, trivial⟩

/-! ## Reading -/

/-- Elements that are read back one by one are read back as a whole. -/
theorem readsEach_of_disturbs {element : Layout α} {targets xs : List α} {bytes : List UInt8}
    (hlength : targets.length = xs.length)
    (hread : ∀ x ∈ xs, ∀ {bytes}, element.Disturbed x bytes → ∀ target rest,
      element.Reads target (bytes ++ rest) (element.merge target x) rest)
    (h : Disturbs (xs.flatMap element.truths) (xs.flatMap element.write) bytes)
    (rest : List UInt8) :
    element.ReadsEach targets (bytes ++ rest) (List.zipWith element.merge targets xs) rest := by
  -- Each value takes its target along.
  induction xs generalizing targets bytes with
  | nil =>
    obtain rfl := List.length_eq_zero_iff.mp hlength
    obtain rfl := List.length_eq_zero_iff.mp h.length_eq
    exact ⟨rfl, rfl⟩
  | cons x xs ih =>
    cases targets with
    | nil => cases hlength
    | cons target targets =>
      rw [List.flatMap_cons, List.flatMap_cons] at h
      obtain ⟨head, tail, rfl, hx, hxs⟩ := (disturbs_append_iff (length_truths element x)).mp h
      have hhead := hread x List.mem_cons_self hx target (tail ++ rest)
      have htail := ih (Nat.succ.inj hlength) (fun y hy => hread y (List.mem_cons_of_mem _ hy))
        hxs
      rw [List.append_assoc]
      exact ⟨_, _, _, rfl, hhead, htail⟩

/-- Elements that occupy bytes are not more than the bytes that they are written as. -/
theorem length_le_length_flatMap {write : α → List UInt8} {xs : List α}
    (hwrite : ∀ x ∈ xs, write x ≠ []) : xs.length ≤ (xs.flatMap write).length := by
  induction xs with
  | nil => exact Nat.zero_le _
  | cons x xs ih =>
    have hx := List.length_pos_iff.mpr (hwrite x List.mem_cons_self)
    have hxs := ih fun y hy => hwrite y (List.mem_cons_of_mem _ hy)
    rw [List.flatMap_cons, List.length_append, List.length_cons]
    omega

theorem reads_scalar_of_disturbed {s : Scalar α} {a : α} {bytes : List UInt8}
    (h : (scalar s).Disturbed a bytes) (target : α) (rest : List UInt8) :
    (scalar s).Reads target (bytes ++ rest) a rest := by
  have hlength : bytes.length = s.size := h.length_eq.trans (s.length_encode a)
  refine reads_scalar.mpr ⟨bytes, hlength, rfl, ?_⟩
  by_cases htruth : s.IsTruth
  · obtain ⟨rfl, hs⟩ := htruth
    obtain rfl : s = Scalar.bool := hs
    obtain ⟨byte, rfl⟩ := List.length_eq_one_iff.mp hlength
    rcases h with ⟨hbyte | ⟨-, hflips⟩, -⟩
    · rw [hbyte]
      exact (Scalar.bool.decode_encode a).symm
    · exact (Scalar.bool_decode_of_flips rfl hflips).symm
  · have hbytes : bytes = s.encode a := eq_of_disturbs_replicate htruth h
    rw [hbytes, s.decode_encode]

/-- The bytes of a value that fits are read as the value, also if its truth values were
    disturbed. -/
theorem reads_of_disturbed {layout : Layout α} {a : α} (hfits : layout.Fits a)
    {bytes : List UInt8} (h : layout.Disturbed a bytes) (target : α) (rest : List UInt8) :
    layout.Reads target (bytes ++ rest) (layout.merge target a) rest := by
  induction layout generalizing bytes rest with
  | scalar s => exact reads_scalar_of_disturbed h target rest
  | transient α =>
    obtain rfl : bytes = [] := List.length_eq_zero_iff.mp h.length_eq
    exact reads_transient.mpr ⟨rfl, rfl⟩
  | pair first second ihFirst ihSecond =>
    -- To the first part the bytes of the second are bytes behind it.
    obtain ⟨head, tail, rfl, hfirst, hsecond⟩ :=
      (disturbs_append_iff (length_truths first a.1)).mp h
    rw [List.append_assoc]
    exact reads_pair.mpr ⟨tail ++ rest, ihFirst hfits.1 hfirst _ _, ihSecond hfits.2 hsecond _ _⟩
  | either first fresh₁ second fresh₂ ihFirst ihSecond =>
    cases bytes with
    | nil => cases a <;> cases h
    | cons tag body =>
      -- A tag is no truth value.
      cases a with
      | inl a =>
        obtain ⟨rfl | ⟨htruth, -⟩, hbody⟩ := h
        · exact reads_either_first.mpr ⟨_, ihFirst hfits hbody fresh₁ rest, rfl⟩
        · cases htruth
      | inr b =>
        obtain ⟨rfl | ⟨htruth, -⟩, hbody⟩ := h
        · exact (reads_either_second (by decide)).mpr ⟨_, ihSecond hfits hbody fresh₂ rest, rfl⟩
        · cases htruth
  | whole inner fresh ih => exact reads_whole.mpr (ih hfits h fresh rest)
  | view inner coding ih => exact reads_view.mpr ⟨_, ih hfits h (coding.encode target) rest, rfl⟩
  | array n element ih =>
    have hlength : target.toList.length = a.toList.length := by
      rw [Vector.length_toList, Vector.length_toList]
    have heach := readsEach_of_disturbs hlength (fun x hx _ => ih (hfits x hx)) h rest
    have hmerged : (Vector.zipWith element.merge target a).toList =
        List.zipWith element.merge target.toList a.toList := by
      simp only [Vector.toList, Vector.toArray_zipWith, Array.toList_zipWith]
    apply reads_array.mpr
    rw [merge, hmerged]
    exact heach
  | sequence element fill ih =>
    obtain ⟨hsize, hall⟩ := hfits
    obtain ⟨head, body, rfl, hhead, hbody⟩ := (disturbs_append_iff (by
      rw [List.length_replicate, Scalar.u64.length_encode]; rfl)).mp h
    obtain rfl : head = Scalar.u64.encode (UInt64.ofNat a.size) :=
      eq_of_disturbs_replicate not_false hhead
    have hlength : (resize target a.size fill).length = a.toList.length := by
      rw [length_resize, Array.length_toList]
    have heach := readsEach_of_disturbs hlength (fun x hx _ => ih (hall x hx).1) hbody rest
    -- The length passes the check, as every element has a byte at least.
    have hbytes : a.size ≤ (body ++ rest).length := by
      have hle := length_le_length_flatMap fun x hx => (hall x hx).2
      rw [Array.length_toList] at hle
      rw [List.length_append, hbody.length_eq]
      omega
    rw [List.append_assoc]
    apply (reads_sequence_append (Scalar.u64.length_encode _)).mpr
    rw [Scalar.u64.decode_encode, UInt64.toNat_ofNat_of_lt' hsize]
    exact ⟨hbytes, heach⟩

/-- Reading what was written gives the value back, merged with the target, and leaves the
    bytes behind it. -/
def ReadsBack (layout : Layout α) (a : α) : Prop :=
  ∀ (target : α) (rest : List UInt8),
    layout.read target (layout.write a ++ rest) = ⟨layout.merge target a, rest, none⟩

/-- A value that fits is read back. -/
theorem readsBack_of_fits {layout : Layout α} {a : α} (hfits : layout.Fits a) :
    layout.ReadsBack a :=
  reads_of_disturbed hfits (disturbed_write layout a)

end Layout
end EffectsDsp
